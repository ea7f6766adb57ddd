import Uffs.Update.Undo

open uffs.lib uffs.text

namespace uffs.update

/-! What a killed run leaves, and what recovery makes of it. -/

section journal

variable (setup : Setup)

/-- The targeted binaries with their flags. -/
def flags (journal : Journal) : List ((Str × Str × Path) × Bool) :=
  (entries setup journal).map fun (root, binary, target) => ((root, binary.name, target), binary.added)

/-- Their paths with their flags. -/
def marks (journal : Journal) : List (Path × Bool) := (flags setup journal).map fun (item, added) => (item.2.2, added)

theorem collect_plan_eq (journal : Journal) : collect_plan setup journal = (flags setup journal).map Prod.fst := by
  simp only [collect_plan, flags, List.map_map]
  rfl

theorem mem_marks {journal : Journal} {item : Str × Str × Path} {added : Bool} (h : (item, added) ∈ flags setup journal) :
    (item.2.2, added) ∈ marks setup journal :=
  List.mem_map_of_mem h

section

variable (journal : Journal) (root name : Str)

include journal root name

theorem entries_set_binary {f : BinaryEntry → BinaryEntry} (hname : ∀ binary, (f binary).name = binary.name) :
    entries setup (journal.set_binary root name f) = (entries setup journal).map fun (other, binary, target) =>
      (other, if other = root ∧ binary.name = name then f binary else binary, target) := by
  simp only [entries, Journal.set_binary, List.flatMap_map, List.map_flatMap]
  congr 1
  funext target
  by_cases hroot : target.root = root
  · rw [if_pos hroot]
    simp only [List.map_map]
    congr 1
    funext binary
    by_cases hbinary : binary.name = name
    · simp [Function.comp_apply, hbinary, hroot, hname]
    · simp [Function.comp_apply, hbinary]
  · simp [hroot]

/-- Writing to a binary touches no other flag. -/
theorem flags_set_binary (f : BinaryEntry → BinaryEntry) (g : Bool → Bool) (hname : ∀ binary, (f binary).name = binary.name)
    (hadded : ∀ binary, (f binary).added = g binary.added) :
    flags setup (journal.set_binary root name f) = (flags setup journal).map fun (item, added) =>
      (item, if item.1 = root ∧ item.2.1 = name then g added else added) := by
  simp only [flags, entries_set_binary setup journal root name hname, List.map_map]
  congr 1
  funext entry
  obtain ⟨other, binary, target⟩ := entry
  by_cases h : other = root ∧ binary.name = name
  · simp [Function.comp_apply, h, hname, hadded]
  · simp [Function.comp_apply, h]

theorem flags_set_binary_status (status : BinaryStatus) :
    flags setup (journal.set_binary_status root name status) = flags setup journal := by
  have h := flags_set_binary setup journal root name (fun binary => { binary with status }) id (fun _ => rfl) fun _ => rfl
  simpa [Journal.set_binary_status] using h

theorem flags_set_binary_added :
    flags setup (journal.set_binary_added root name) = (flags setup journal).map fun (item, added) =>
      (item, if item.1 = root ∧ item.2.1 = name then true else added) :=
  flags_set_binary setup journal root name (fun binary => { binary with added := true }) (fun _ => true) (fun _ => rfl) fun _ => rfl

end

end journal

section left

variable {Image : Type} (setup : Setup) (start : Disk Image)

/-- The binaries the run is about. -/
def plan : List (Str × Str × Path) := collect_plan setup (first_journal setup)

/-- Every targeted binary is as it was, absent ones included. -/
def AllOld (disk : Disk Image) : Prop := ∀ item ∈ plan setup, disk.files item.2.2 = start.files item.2.2

/-- Every targeted binary is the staged image. -/
def AllNew (disk : Disk Image) : Prop := ∀ item ∈ plan setup,
  (disk.files item.2.2).isSome ∧ disk.files item.2.2 = start.files (setup.staged item.2.1)

def Whole (disk : Disk Image) : Prop := AllOld setup start disk ∨ AllNew setup start disk

/-- What is left when a program has been cut off: recovery can go either way from here. -/
def Left (disk : Disk Image) : Prop :=
  match disk.journal with
  | none => Whole setup start disk
  | some journal =>
    if journal.state.is_terminal then Whole setup start disk
    else collect_plan setup journal = plan setup ∧
      if journal.commit_point_passed then AllNew setup start disk else Undoing start (marks setup journal) disk

/-- A binary that was absent at the start is in place only when the journal says so. -/
def Flagged (disk : Disk Image) : Prop :=
  ∀ journal, disk.journal = some journal → journal.state.is_terminal = false → journal.commit_point_passed = false →
    ∀ item ∈ marks setup journal, start.files item.1 = none → disk.files item.1 ≠ none → item.2 = true

/-- What is left when a program is killed on a flagged disk. -/
def Cut (disk : Disk Image) : Prop := Flagged setup start disk → Left setup start disk

variable {setup start} {disk : Disk Image} {journal : Journal}

theorem left_terminal (hjournal : disk.journal = some journal) (hterminal : journal.state.is_terminal = true)
    (h : Whole setup start disk) : Left setup start disk := by
  simp only [Left, hjournal, hterminal, if_true]
  exact h

theorem left_undoing (hjournal : disk.journal = some journal) (hstate : journal.state.is_terminal = false)
    (hplan : collect_plan setup journal = plan setup) (hcommit : journal.commit_point_passed = false)
    (h : Undoing start (marks setup journal) disk) : Left setup start disk := by
  simp only [Left, hjournal, hstate, hcommit, Bool.false_eq_true, if_false]
  exact ⟨hplan, h⟩

theorem left_committed (hjournal : disk.journal = some journal) (hplan : collect_plan setup journal = plan setup)
    (hcommit : journal.commit_point_passed = true) (h : AllNew setup start disk) : Left setup start disk := by
  simp only [Left, hjournal, hcommit, if_true]
  split
  · exact .inr h
  · exact ⟨hplan, h⟩

theorem transition_safe {state : UpdateState} {I : Disk Image → Prop} {Q : Journal → Disk Image → Prop} :
    (journal.transition state).Safe I Q disk ↔
      I disk ∧ Q { journal with state } { disk with journal := some { journal with state } } := Iff.rfl

theorem archive_safe {I : Disk Image → Prop} {Q : Unit → Disk Image → Prop} :
    Journal.archive.Safe I Q disk ↔ I disk ∧ Q () { disk with journal := none } := Iff.rfl

/-- The last two steps of a run. -/
theorem finish_safe {journal : Journal} {state : UpdateState} (hstate : state.is_terminal = true) {α : Type} (value : α)
    (hleft : Left setup start disk) (h : Whole setup start disk) {Q : α → Disk Image → Prop}
    (hQ : ∀ disk', Left setup start disk' → Whole setup start disk' → Q value disk') :
    (do
      let _ ← journal.transition state
      Journal.archive
      pure value : Program Image α).Safe (Cut setup start) Q disk := by
  simp only [Prog.safe_bind, transition_safe, archive_safe, Prog.safe_pure]
  refine ⟨fun _ => hleft, fun _ => left_terminal rfl hstate h, hQ _ h h⟩

theorem rollback_entries_safe {marked : List (Path × Bool)} {I : Disk Image → Prop} {disk₀ : Disk Image}
    (hI : ∀ disk', disk'.journal = disk₀.journal → Undoing start marked disk' → I disk')
    {items : List (Str × BinaryEntry × Path)} (hitems : ∀ item ∈ items, (item.2.2, item.2.1.added) ∈ marked)
    {journal : Journal} (hjournal : disk.journal = disk₀.journal) (h : Undoing start marked disk) :
    (rollback_entries journal items).Safe I (fun result disk' => result.2 = true ∧
      flags setup result.1 = flags setup journal ∧ result.1.commit_point_passed = journal.commit_point_passed ∧
      disk'.journal = disk₀.journal ∧ Undoing start marked disk' ∧ (∀ item ∈ items, disk'.files item.2.2 = start.files item.2.2) ∧
      ∀ other : Path, other.Live → disk.files other = start.files other → disk'.files other = start.files other) disk := by
  induction items generalizing disk journal with
  | nil => exact ⟨rfl, rfl, rfl, hjournal, h, nofun, fun _ _ h => h⟩
  | cons item items ih =>
    obtain ⟨root, binary, target⟩ := item
    have hmem := hitems _ List.mem_cons_self
    have hlive : target.Live := (h _ hmem).1
    have hone : (undo_entry binary target).Safe I
        (fun restored disk' => restored = true ∧ Undoing start marked disk' ∧ Restored start target disk disk') disk := by
      unfold undo_entry
      split
      · rename_i hadded
        rw [hadded] at hmem
        rw [Prog.safe_bind]
        refine (remove_added_safe hmem h fun disk' hsame => hI disk' (hsame.trans hjournal)).mono (fun _ h => h) ?_
        exact fun _ _ hdone => ⟨rfl, hdone⟩
      · rename_i hadded
        rw [Bool.eq_false_iff.mpr hadded] at hmem
        exact restore_safe hmem h fun disk' hsame => hI disk' (hsame.trans hjournal)
    refine hone.bind fun restored disk' => ?_
    rintro ⟨rfl, hundoing, hsame, hback, hothers⟩
    rw [if_pos rfl]
    refine (ih (fun item hmem => hitems item (List.mem_cons_of_mem _ hmem)) (hsame.trans hjournal) hundoing).mono
      (fun _ h => h) ?_
    rintro result disk'' ⟨hok, hflags, hcommit, hjournal', hundoing', hitems', hothers'⟩
    refine ⟨hok, ?_, hcommit, hjournal', hundoing', ?_, fun other hother h => hothers' other hother (hothers other hother h)⟩
    · rw [hflags, flags_set_binary_status]
    · intro item hmem
      rcases List.mem_cons.mp hmem with rfl | hmem
      · exact hothers' target hlive hback
      · exact hitems' item hmem

theorem marks_of_flags {journal journal' : Journal} (h : flags setup journal' = flags setup journal) :
    marks setup journal' = marks setup journal := by
  rw [marks, marks, h]

theorem plan_of_flags {journal journal' : Journal} (h : flags setup journal' = flags setup journal) :
    collect_plan setup journal' = collect_plan setup journal := by
  rw [collect_plan_eq, collect_plan_eq, h]

/-- A rollback ends with every targeted binary as it was. -/
theorem rollback_all_safe (hplan : collect_plan setup journal = plan setup) (hcommit : journal.commit_point_passed = false)
    (hleft : Left setup start disk) (h : Undoing start (marks setup journal) disk) :
    (rollback_all setup journal).Safe (Cut setup start)
      (fun result disk' => result.2 = true ∧ Left setup start disk' ∧ AllOld setup start disk') disk := by
  unfold rollback_all
  rw [Prog.safe_bind, transition_safe]
  refine ⟨fun _ => hleft, ?_⟩
  have hI : ∀ disk' : Disk Image, disk'.journal = some { journal with state := .rolling_back } →
      Undoing start (marks setup journal) disk' → Cut setup start disk' := fun disk' hjournal hundoing _ =>
    left_undoing hjournal rfl hplan hcommit hundoing
  have hentries : ∀ item ∈ entries setup journal, (item.2.2, item.2.1.added) ∈ marks setup journal := fun item hmem =>
    mem_marks setup (List.mem_map_of_mem hmem)
  refine (@rollback_entries_safe _ setup start _ (marks setup journal) (Cut setup start)
    { disk with journal := some { journal with state := .rolling_back } } hI _ hentries _ rfl h).bind ?_
  rintro ⟨journal', ok⟩ disk' ⟨rfl, hflags, hcommit', hjournal', hundoing, hall, _⟩
  rw [Prog.safe_bind, transition_safe]
  refine ⟨hI disk' hjournal' hundoing, rfl, ?_, ?_⟩
  · have hflags' : flags setup journal' = flags setup journal := hflags
    rw [← marks_of_flags hflags'] at hundoing
    exact left_undoing rfl rfl ((plan_of_flags hflags').trans hplan) (hcommit'.trans hcommit) hundoing
  · intro item hmem
    rw [← hplan, collect_plan, List.mem_map] at hmem
    obtain ⟨entry, hentry, rfl⟩ := hmem
    exact hall entry hentry

variable (hlive : ∀ item ∈ plan setup, item.2.2.Live)
include hlive

/-- Removing a backup is nothing to the live files. -/
theorem AllNew.write_backup (path : Path) (h : AllNew setup start disk) :
    AllNew setup start (disk.write (backup_path path) none) := by
  intro item hmem
  rw [Disk.write_other _ _ ((hlive item hmem).ne_backup path)]
  exact h item hmem

theorem prune_each_safe {I : Disk Image → Prop} {disk₀ : Disk Image}
    (hI : ∀ disk', disk'.journal = disk₀.journal → AllNew setup start disk' → I disk') (items : List (Str × Str × Path))
    (hjournal : disk.journal = disk₀.journal) (h : AllNew setup start disk) :
    (prune_each items).Safe I (fun _ disk' => disk'.journal = disk₀.journal ∧ AllNew setup start disk') disk := by
  induction items generalizing disk with
  | nil => exact ⟨hjournal, h⟩
  | cons item items ih =>
    obtain ⟨root, stem, target⟩ := item
    rw [prune_each, Prog.safe_bind, prune_backup]
    simp only [Prog.safe_bind, exists_safe]
    refine ⟨hI disk hjournal h, ?_⟩
    split
    · exact ⟨hI disk hjournal h, ih hjournal (h.write_backup hlive target)⟩
    · exact ih hjournal h

section

variable (hplan : collect_plan setup journal = plan setup) (hcommit : journal.commit_point_passed = true)
  (hleft : Left setup start disk) (h : AllNew setup start disk)

include hplan hcommit hleft h

/-- From the commit point on. -/
theorem forward_safe {α : Type} (value : α) {Q : α → Disk Image → Prop}
    (hQ : ∀ disk', Left setup start disk' → Whole setup start disk' → Q value disk') :
    (do
      let journal ← journal.transition .restored
      prune_all setup journal
      let _ ← journal.transition .done
      Journal.archive
      pure value : Program Image α).Safe (Cut setup start) Q disk := by
  rw [Prog.safe_bind, transition_safe]
  refine ⟨fun _ => hleft, ?_⟩
  rw [Prog.safe_bind, prune_all]
  have hI : ∀ disk' : Disk Image, disk'.journal = some { journal with state := .restored } → AllNew setup start disk' →
      Left setup start disk' := fun disk' hjournal hnew => left_committed hjournal hplan hcommit hnew
  refine (@prune_each_safe _ setup start _ hlive (Cut setup start) { disk with journal := some { journal with state := .restored } }
    (fun disk' hjournal hnew _ => hI disk' hjournal hnew) _ rfl h).mono (fun _ h => h) ?_
  rintro _ disk' ⟨hjournal, hnew⟩
  exact finish_safe rfl value (hI disk' hjournal hnew) (.inr hnew) hQ

theorem roll_forward_safe :
    (roll_forward setup journal).Safe (Cut setup start)
      (fun _ disk' => Left setup start disk' ∧ Whole setup start disk') disk :=
  forward_safe hlive hplan hcommit hleft h () fun _ hleft hwhole => ⟨hleft, hwhole⟩

end

omit hlive in
theorem roll_back_safe (hplan : collect_plan setup journal = plan setup) (hcommit : journal.commit_point_passed = false)
    (hleft : Left setup start disk) (h : Undoing start (marks setup journal) disk) :
    (roll_back setup journal).Safe (Cut setup start)
      (fun done disk' => done = true ∧ Left setup start disk' ∧ Whole setup start disk') disk := by
  unfold roll_back
  refine (rollback_all_safe hplan hcommit hleft h).bind ?_
  rintro ⟨journal', ok⟩ disk' ⟨rfl, hleft', hold⟩
  exact finish_safe rfl true hleft' (.inl hold) fun _ hleft hwhole => ⟨rfl, hleft, hwhole⟩

/-- What a run promises that ends this way. -/
def Promised (setup : Setup) (start : Disk Image) (outcome : Outcome) (disk : Disk Image) : Prop :=
  outcome ≠ .failed → outcome ≠ .recovered .in_progress → Whole setup start disk

/-- Whatever is left, a recovery that completes makes it whole; where it is cut off, another can. -/
theorem recover_safe (found : RecoverSetup) (h : Left setup start disk) :
    (recover setup found).CrashSafe (Flagged setup start) (Left setup start) (Promised setup start) disk := by
  change Prog.Safe (Cut setup start) _ _ _
  unfold recover
  rw [Prog.safe_bind, Journal.load, Prog.safe_read]
  refine ⟨fun _ => h, ?_⟩
  have hleft := h
  unfold Left at h
  cases hjournal : disk.journal with
  | none =>
    rw [hjournal] at h
    exact ⟨hleft, fun _ _ => h⟩
  | some journal =>
    simp only [hjournal] at h
    change Prog.Safe _ _ (if journal.state.is_terminal then _ else _) _
    split
    · rename_i hterminal
      rw [if_pos hterminal] at h
      exact ⟨hleft, fun _ _ => h⟩
    · rename_i hterminal
      rw [if_neg hterminal] at h
      obtain ⟨hplan, h⟩ := h
      split
      · exact ⟨hleft, fun _ hne => absurd rfl hne⟩
      · split
        · exact ⟨hleft, fun hne => absurd rfl hne⟩
        · split
          · rename_i hcommit
            rw [if_pos hcommit] at h
            refine (roll_forward_safe hlive hplan hcommit hleft h).bind ?_
            exact fun _ disk' hdone => ⟨hdone.1, fun _ _ => hdone.2⟩
          · rename_i hcommit
            rw [if_neg hcommit] at h
            refine (roll_back_safe hplan (Bool.eq_false_iff.mpr hcommit) hleft h).bind ?_
            rintro _ disk' ⟨rfl, hleft', hwhole⟩
            exact ⟨hleft', fun _ _ => hwhole⟩

end left

end uffs.update
