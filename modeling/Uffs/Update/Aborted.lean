import Uffs.Update.Fallible

open uffs.lib uffs.text

namespace uffs.update.fallible

/-! A run of `apply` that gives up leaves every binary as it was, and no service down, as long as what fails
while something is out of place is undone. -/

section

variable {Image : Type} (setup : Setup) (start : Disk Image)

/-- Where a step may fail. -/
def Spared (world : World Image) : Step → Prop
  | .stop | .save .quiesced => world.journal.services_stopped = []
  | .save .swapping | .save .swapped | .save .smoke_ok | .save .rolling_back | .find_undo _ | .undo =>
    AllOld setup start world.disk
  | .find_target target => world.disk.files target = none
  | _ => True

/-- The backup that is found of a binary that is as it was is a copy of it. -/
def Copied (world : World Image) : Step → Prop
  | .find_backup binary | .find_undo binary => world.disk.files binary = start.files binary →
    world.disk.files (backup_path binary) = none ∨ world.disk.files (backup_path binary) = start.files binary
  | _ => True

/-- The condition on a step and on the state before it. -/
def Benign (world : World Image) (step : Step) (fails : Bool) : Prop :=
  if fails then Spared setup start world step else Copied start world step

def Restarted (world : World Image) : Prop :=
  ∀ component ∈ (planned setup).running, component ∈ [BROKER_COMPONENT, "daemon".toList, "mcp".toList] → component ∈ world.started

/-- An aborted run has changed nothing, and a run that ends in an error has restarted what it stopped. -/
structure Reverted (result : Option Unit) (world : World Image) : Prop where
  aborted : ∀ journal, world.archived = some journal → journal.state = .aborted → AllOld setup start world.disk
  restarted : result = none → world.journal.services_stopped ≠ [] → Restarted setup world

/-- What undoing a binary needs. -/
def Kept (start : Disk Image) (added : Bool) (path : Path) (disk : Disk Image) : Prop :=
  if added then start.files path = none
  else disk.files path = start.files path ∨
    ∃ image, disk.files (backup_path path) = some image ∧ start.files path = some image

def AllKept (start : Disk Image) (marked : List (Path × Bool)) (disk : Disk Image) : Prop :=
  ∀ mark ∈ marked, mark.1.Live ∧ Kept start mark.2 mark.1 disk

variable {setup start} {disk disk' : Disk Image}

theorem Kept.congr {added : Bool} {path : Path} (h : Kept start added path disk) (hlive : disk'.files path = disk.files path)
    (hbackup : disk'.files (backup_path path) = disk.files (backup_path path)) : Kept start added path disk' := by
  unfold Kept at h ⊢
  rw [hlive, hbackup]
  exact h

theorem Kept.of_same {added : Bool} {path : Path} (h : Kept start added path disk)
    (hsame : disk'.files path = start.files path) : Kept start added path disk' := by
  unfold Kept at h ⊢
  split
  · rename_i hadded
    rwa [if_pos hadded] at h
  · exact .inl hsame

theorem Kept.of_backup {added : Bool} {path : Path} (h : Kept start added path disk) {image : Image}
    (hbackup : disk'.files (backup_path path) = some image) (hstart : start.files path = some image) :
    Kept start added path disk' := by
  unfold Kept at h ⊢
  split
  · rename_i hadded
    rwa [if_pos hadded] at h
  · exact .inr ⟨image, hbackup, hstart⟩

/-- What happens to the two files of one binary is nothing to the others. -/
theorem AllKept.frame {marked : List (Path × Bool)} (h : AllKept start marked disk) (path : Path)
    (hframe : ∀ other, other ≠ path → other ≠ backup_path path → disk'.files other = disk.files other)
    (hpath : ∀ added, Kept start added path disk → Kept start added path disk') (hlive : path.Live) :
    AllKept start marked disk' := by
  intro mark hmem
  obtain ⟨hmark, hkept⟩ := h mark hmem
  refine ⟨hmark, ?_⟩
  by_cases heq : mark.1 = path
  · rw [heq] at hkept ⊢
    exact hpath mark.2 hkept
  · refine hkept.congr (hframe _ heq (hmark.ne_backup path)) (hframe _ (hlive.ne_backup _).symm fun hbackup => ?_)
    exact heq (backup_path_injective hbackup)

section undo

variable {marked : List (Path × Bool)} {world : World Image}

/-- What a step of undoing keeps besides the disk. -/
structure Aside (world world' : World Image) : Prop where
  archived : world'.archived = world.archived
  started : world'.started = world.started
  stopped : world'.journal.services_stopped = world.journal.services_stopped
  flags : ∀ setup, flags setup world'.journal = flags setup world.journal

theorem Aside.refl (world : World Image) : Aside world world := ⟨rfl, rfl, rfl, fun _ => rfl⟩

theorem Aside.trans {world world' world'' : World Image} (h : Aside world world') (h' : Aside world' world'') : Aside world world'' where
  archived := h'.archived.trans h.archived
  started := h'.started.trans h.started
  stopped := h'.stopped.trans h.stopped
  flags setup := (h'.flags setup).trans (h.flags setup)

/-- The binary is as it was, what was still is, and all can still be undone. -/
structure Back (start : Disk Image) (marked : List (Path × Bool)) (path : Path) (disk disk' : Disk Image) : Prop where
  kept : AllKept start marked disk'
  back : disk'.files path = start.files path
  others : ∀ other : Path, other.Live → disk.files other = start.files other → disk'.files other = start.files other

/-- The end of an undoing of the binary: when it fails, all was as it was and still is. -/
def Undone (setup : Setup) (start : Disk Image) (marked : List (Path × Bool)) (path : Path) (world : World Image)
    (result : Option Unit) (world' : World Image) : Prop :=
  Aside world world' ∧ match result with
    | some _ => Back start marked path world.disk world'.disk
    | none => AllOld setup start world'.disk

variable {path : Path} {ok : World Image → Step → Bool → Prop}

theorem exists_bind_ends {step : Step} {α : Type} {g : Bool → Program Image α} {Q : Option α → World Image → Prop} :
    (exists_ step path >>= g).Ends ok Q world ↔ (ok world step false → (g (world.disk.files path).isSome).Ends ok Q world) ∧
      (ok world step true → (g false).Ends ok Q world) := Iff.rfl

/-- A rename of what is there. -/
theorem rename_ends {step : Step} {source dest : Path} {image : Image} (himage : world.disk.files source = some image)
    {Q : Option Unit → World Image → Prop} :
    (rename step source dest).Ends ok Q world ↔
      (ok world step false → Q (some ()) (world.rename source dest)) ∧ (ok world step true → Q none world) := by
  unfold rename
  rw [Attempt.ends_get_bind]
  simp only [himage, Option.isSome_some, if_true]
  rfl

theorem remove_file_ends {step : Step} {Q : Option Unit → World Image → Prop} :
    (remove_file step path).Ends ok Q world ↔
      (ok world step false → Q (some ()) (world.write path none)) ∧ (ok world step true → Q none world) := Iff.rfl

/-- Putting one binary back undoes the move for its path alone, and a failure leaves every binary in one
of its two places. -/
theorem restore_binary_ends (hmem : (path, false) ∈ marked) (hplan : ∃ item ∈ plan setup, item.2.2 = path)
    (h : AllKept start marked world.disk) :
    (restore_binary path).Ends (Benign setup start) (Undone setup start marked path world) world := by
  obtain ⟨hlive, hkept⟩ := h _ hmem
  have hsame : world.disk.files path = start.files path → Undone setup start marked path world (some ()) world := fun hsame =>
    ⟨.refl world, h, hsame, fun _ _ h => h⟩
  unfold restore_binary
  simp only [exists_bind_ends]
  constructor
  · intro hcopied
    have hcopied : world.disk.files path = start.files path → world.disk.files (backup_path path) = none ∨
        world.disk.files (backup_path path) = start.files path := hcopied
    cases hbackup : world.disk.files (backup_path path) with
    | none =>
      refine hsame ?_
      rcases hkept with hkept | ⟨image, hsome, _⟩
      · exact hkept
      · rw [hbackup] at hsome
        cases hsome
    | some image =>
      -- the backup holds what was there
      have hstart : start.files path = some image := by
        rcases hkept with hkept | ⟨_, hsome, hstart⟩
        · rcases hcopied hkept with hnone | hcopy
          · rw [hbackup] at hnone
            cases hnone
          · rw [← hcopy, hbackup]
        · rw [hstart, ← hsome, hbackup]
      have hrename : ∀ world' : World Image, Aside world world' → world'.disk.files (backup_path path) = some image →
          (∀ other, other ≠ path → world'.disk.files other = world.disk.files other) →
          (rename .undo (backup_path path) path).Ends (Benign setup start) (Undone setup start marked path world) world' := by
        intro world' haside hbackup' hother
        rw [rename_ends hbackup']
        refine ⟨fun _ => ⟨haside.trans ⟨rfl, rfl, rfl, fun _ => rfl⟩, ?_⟩, fun hold => ⟨haside, hold⟩⟩
        have hmoved := @Disk.rename_eq _ world'.disk (backup_path path) path image hbackup'
        have hafter : ∀ other, other ≠ path → other ≠ backup_path path →
            (world'.rename (backup_path path) path).disk.files other = world.disk.files other := by
          intro other hne hne'
          rw [World.rename, hmoved, Disk.write_other _ _ hne, Disk.write_other _ _ hne', hother other hne]
        have hback : (world'.rename (backup_path path) path).disk.files path = start.files path := by
          rw [World.rename, hmoved, Disk.write_same, hstart]
        refine ⟨h.frame path hafter (fun _ hkept => hkept.of_same hback) hlive, hback, ?_⟩
        intro other hother' hsame
        by_cases hne : other = path
        · rw [hne, hback]
        · rw [hafter other hne (hother'.ne_backup path), hsame]
      rw [Option.isSome_some, if_pos rfl, exists_bind_ends]
      have hdirect := hrename world (.refl world) hbackup fun _ _ => rfl
      refine ⟨fun _ => ?_, fun _ => hdirect⟩
      split
      · rw [Attempt.ends_bind, remove_file_ends]
        refine ⟨fun _ => hrename _ ⟨rfl, rfl, rfl, fun _ => rfl⟩ ?_ fun other hne => Disk.write_other _ _ hne, fun hold => ⟨.refl world, hold⟩⟩
        rw [World.write, Disk.write_other _ _ (hlive.ne_backup path).symm, hbackup]
      · exact hdirect
  · intro hold
    have hold : AllOld setup start world.disk := hold
    obtain ⟨item, hitem, rfl⟩ := hplan
    exact hsame (hold item hitem)

theorem remove_added_ends (hmem : (path, true) ∈ marked) (hplan : ∃ item ∈ plan setup, item.2.2 = path)
    (h : AllKept start marked world.disk) :
    (remove_added path).Ends (Benign setup start) (Undone setup start marked path world) world := by
  obtain ⟨hlive, hmissing⟩ := h _ hmem
  have hmissing : start.files path = none := hmissing
  have hsame : world.disk.files path = start.files path → Undone setup start marked path world (some ()) world := fun hsame =>
    ⟨.refl world, h, hsame, fun _ _ h => h⟩
  unfold remove_added
  rw [exists_bind_ends]
  constructor
  · intro _
    split
    · rw [remove_file_ends]
      refine ⟨fun _ => ⟨⟨rfl, rfl, rfl, fun _ => rfl⟩, ?_⟩, fun hold => ⟨.refl world, hold⟩⟩
      have hback : (world.write path none).disk.files path = start.files path := by
        rw [World.write, Disk.write_same, hmissing]
      refine ⟨h.frame path (fun other hne _ => Disk.write_other _ _ hne) (fun _ hkept => hkept.of_same hback) hlive, hback, ?_⟩
      intro other _ hsame
      by_cases hne : other = path
      · rw [hne, hback]
      · rw [World.write, Disk.write_other _ _ hne, hsame]
    · rename_i hgone
      refine hsame ?_
      rw [hmissing]
      simpa using hgone
  · intro hold
    have hold : AllOld setup start world.disk := hold
    obtain ⟨item, hitem, rfl⟩ := hplan
    exact hsame (hold item hitem)

theorem undo_entry_ends {binary : BinaryEntry} (hmem : (path, binary.added) ∈ marked)
    (hplan : ∃ item ∈ plan setup, item.2.2 = path) (h : AllKept start marked world.disk) :
    (undo_entry binary path).Ends (Benign setup start) (Undone setup start marked path world) world := by
  unfold undo_entry
  split
  · rename_i hadded
    rw [hadded] at hmem
    exact remove_added_ends hmem hplan h
  · rename_i hadded
    rw [Bool.eq_false_iff.mpr hadded] at hmem
    exact restore_binary_ends hmem hplan h

/-- Rolling back the entries restores the files of all of them, and what was already restored stays so. -/
theorem rollback_entries_ends {items : List (Str × BinaryEntry × Path)} (hitems : ∀ item ∈ items, (item.2.2, item.2.1.added) ∈ marked)
    (hplan : ∀ item ∈ items, ∃ other ∈ plan setup, other.2.2 = item.2.2) (h : AllKept start marked world.disk) :
    (rollback_entries items).Ends (Benign setup start) (fun result world' => Aside world world' ∧
      match result with
      | some _ => (∀ item ∈ items, world'.disk.files item.2.2 = start.files item.2.2) ∧
          ∀ other : Path, other.Live → world.disk.files other = start.files other → world'.disk.files other = start.files other
      | none => AllOld setup start world'.disk) world := by
  induction items generalizing world with
  | nil => exact ⟨.refl world, nofun, fun _ _ h => h⟩
  | cons item items ih =>
    obtain ⟨root, binary, target⟩ := item
    have hmem := hitems _ List.mem_cons_self
    have hlive : target.Live := (h _ hmem).1
    refine (undo_entry_ends hmem (hplan _ List.mem_cons_self) h).bind (fun _ h => h) ?_
    rintro _ world' ⟨haside, hundone⟩
    rw [Attempt.ends_modify_bind]
    have hkept : AllKept start marked
        (world'.set_journal fun journal => journal.set_binary_status root binary.name .rolled_back).disk := hundone.kept
    have haside' : Aside world (world'.set_journal fun journal => journal.set_binary_status root binary.name .rolled_back) :=
      haside.trans ⟨rfl, rfl, rfl, fun setup => flags_set_binary_status setup _ root binary.name _⟩
    refine (ih (fun item hmem => hitems item (List.mem_cons_of_mem _ hmem))
      (fun item hmem => hplan item (List.mem_cons_of_mem _ hmem)) hkept).mono ?_
    rintro (_ | _) world'' ⟨haside'', hrest⟩
    · exact ⟨haside'.trans haside'', hrest⟩
    · obtain ⟨hitems', hothers⟩ := hrest
      refine ⟨haside'.trans haside'', ?_, fun other hother hsame => hothers other hother (hundone.others other hother hsame)⟩
      intro item hmem
      rcases List.mem_cons.mp hmem with rfl | hmem
      · exact hothers target hlive hundone.back
      · exact hitems' item hmem

end undo

theorem transition_ends {world : World Image} {state : UpdateState} {ok : World Image → Step → Bool → Prop}
    {Q : Option Unit → World Image → Prop} :
    (transition state).Ends ok Q world ↔
      (ok (world.set_journal fun journal => { journal with state }) (.save state) false →
        Q (some ()) (world.set_journal fun journal => { journal with state }).save) ∧
      (ok (world.set_journal fun journal => { journal with state }) (.save state) true →
        Q none (world.set_journal fun journal => { journal with state })) := Iff.rfl

theorem transition_bind_ends {world : World Image} {state : UpdateState} {ok : World Image → Step → Bool → Prop} {α : Type}
    {g : Unit → Program Image α} {Q : Option α → World Image → Prop} :
    (transition state >>= g).Ends ok Q world ↔
      (ok (world.set_journal fun journal => { journal with state }) (.save state) false →
        (g ()).Ends ok Q (world.set_journal fun journal => { journal with state }).save) ∧
      (ok (world.set_journal fun journal => { journal with state }) (.save state) true →
        Q none (world.set_journal fun journal => { journal with state })) := Iff.rfl

theorem save_bind_ends {world : World Image} {ok : World Image → Step → Bool → Prop} {α : Type} {g : Unit → Program Image α}
    {Q : Option α → World Image → Prop} :
    (save >>= g).Ends ok Q world ↔
      (ok world (.save world.journal.state) false → (g ()).Ends ok Q world.save) ∧
      (ok world (.save world.journal.state) true → Q none world) := Iff.rfl

/-- While images are being placed: what is placed can be undone. -/
structure Held (setup : Setup) (start : Disk Image) (world : World Image) : Prop where
  plan : collect_plan setup world.journal = plan setup
  kept : AllKept start (marks setup world.journal) world.disk
  unarchived : world.archived = none

/-- A rollback, whatever fails in it, ends with the old files in place and nothing archived. -/
theorem rollback_all_ends {world : World Image} (h : Held setup start world) :
    (rollback_all setup).Ends (Benign setup start) (fun _ world' => world'.archived = none ∧ AllOld setup start world'.disk) world := by
  unfold rollback_all
  rw [transition_bind_ends]
  refine ⟨fun _ => ?_, fun hold => ⟨h.unarchived, hold⟩⟩
  rw [Attempt.ends_get_bind]
  have hentries : ∀ item ∈ entries setup world.journal, (item.2.2, item.2.1.added) ∈ marks setup world.journal := fun item hmem =>
    mem_marks setup (List.mem_map_of_mem hmem)
  have hplan : ∀ item ∈ entries setup world.journal, ∃ other ∈ plan setup, other.2.2 = item.2.2 := by
    intro item hmem
    refine ⟨(item.1, item.2.1.name, item.2.2), ?_, rfl⟩
    rw [← h.plan]
    exact List.mem_map_of_mem hmem
  refine (@rollback_entries_ends _ setup start _ (world.set_journal fun journal => { journal with state := .rolling_back }).save _
    hentries hplan h.kept).bind ?_ ?_
  · rintro world' ⟨haside, hold⟩
    exact ⟨haside.archived.trans h.unarchived, hold⟩
  · rintro _ world' ⟨haside, hback, _⟩
    have hold : AllOld setup start world'.disk := by
      intro item hmem
      rw [← h.plan, collect_plan, List.mem_map] at hmem
      obtain ⟨entry, hentry, rfl⟩ := hmem
      exact hback entry hentry
    have harchived := haside.archived.trans h.unarchived
    exact transition_ends.mpr ⟨fun _ => ⟨harchived, hold⟩, fun _ => ⟨harchived, hold⟩⟩

section place

/-- A binary is as it was for as long as its staged image is there. -/
def Untouched (setup : Setup) (start : Disk Image) (disk : Disk Image) : Prop :=
  ∀ item ∈ plan setup, (disk.files (setup.staged item.2.1)).isSome → disk.files item.2.2 = start.files item.2.2

variable (hlive : ∀ item ∈ plan setup, item.2.2.Live) (hapart : ∀ item ∈ plan setup, item.1 ≠ setup.stage)
include hlive hapart

/-- A staged image may go, and the target it goes to is the only other file that changes. -/
theorem Untouched.swap {disk before : Disk Image} (h : Untouched setup start disk) {root stem : Str} {image : Image}
    (hitem : (root, stem, setup.target root stem) ∈ plan setup) (hstaged : before.files (setup.staged stem) = some image)
    (hother : ∀ other : Path, other ≠ setup.target root stem → other ≠ backup_path (setup.target root stem) →
      before.files other = disk.files other) :
    Untouched setup start (before.rename (setup.staged stem) (setup.target root stem)) := by
  intro item hmem hsome
  have htarget := mem_plan_target hmem
  have hdir : ∀ name (path : Path), path.dir = root → setup.staged name ≠ path := by
    rintro name path rfl heq
    exact hapart _ hitem (congrArg Path.dir heq).symm
  rw [Disk.rename_eq hstaged] at hsome ⊢
  rw [Disk.write_other _ _ (hdir _ _ rfl)] at hsome
  by_cases hstem : item.2.1 = stem
  · rw [hstem, Disk.write_same] at hsome
    cases hsome
  · have hne : item.2.2 ≠ setup.target root stem := fun heq => hstem (target_injective (htarget.symm.trans heq)).2
    have hne' : item.2.2 ≠ setup.staged stem := by
      rw [htarget]
      exact fun heq => hapart item hmem (congrArg Path.dir heq)
    have hname : setup.staged item.2.1 ≠ setup.staged stem := fun heq =>
      hstem (exe_name_injective (congrArg Path.file heq))
    rw [Disk.write_other _ _ hname, hother _ (hdir _ _ rfl) (hdir _ _ rfl)] at hsome
    rw [Disk.write_other _ _ hne, Disk.write_other _ _ hne', hother _ hne ((hlive item hmem).ne_backup _)]
    exact h item hmem hsome

omit hlive in
/-- A staged image is nothing to the binaries. -/
theorem AllKept.write_staged {journal : Journal} (hplan : collect_plan setup journal = plan setup) {disk : Disk Image}
    (h : AllKept start (marks setup journal) disk) (stem : Str) (image : Option Image) :
    AllKept start (marks setup journal) (disk.write (setup.staged stem) image) := by
  intro mark hmem
  obtain ⟨hmark, hkept⟩ := h mark hmem
  have hdir : ∀ path : Path, path.dir = mark.1.dir → path ≠ setup.staged stem := by
    obtain ⟨item, hitem, rfl⟩ := List.mem_map.mp hmem
    have hmem := mem_plan_of_flags hitem
    rw [hplan] at hmem
    rintro path hdir rfl
    have hdir : (setup.staged stem).dir = item.1.2.2.dir := hdir
    rw [mem_plan_target hmem] at hdir
    exact hapart _ hmem hdir.symm
  exact ⟨hmark, hkept.congr (Disk.write_other _ _ (hdir _ rfl)) (Disk.write_other _ _ (hdir _ rfl))⟩

/-- A replacement or an add, once there is nothing in its way any more. -/
theorem swap_in_ends {world before : World Image} (h : Held setup start world) (huntouched : Untouched setup start world.disk)
    {root stem : Str} {image : Image} (hitem : (root, stem, setup.target root stem) ∈ plan setup)
    (hstaged : world.disk.files (setup.staged stem) = some image) (haside : before.journal = world.journal ∧ before.archived = none)
    (hother : ∀ other : Path, other ≠ setup.target root stem → other ≠ backup_path (setup.target root stem) →
      before.disk.files other = world.disk.files other)
    (hkept : AllKept start (marks setup world.journal) before.disk) (placed : Placed)
    (hplaced : ∀ added disk', disk'.files (backup_path (setup.target root stem)) =
        before.disk.files (backup_path (setup.target root stem)) → Kept start added (setup.target root stem) before.disk →
      Kept start (if placed = .added then true else added) (setup.target root stem) disk') :
    (swap_in (setup.staged stem) (setup.target root stem)).Ends (Benign setup start) (fun result world' =>
      world'.journal = world.journal ∧ world'.archived = none ∧
      match result with
      | some _ => AllKept start (marks setup (recorded world.journal root stem placed)) world'.disk ∧ Untouched setup start world'.disk
      | none => AllKept start (marks setup world.journal) world'.disk) before := by
  have hlive' : (setup.target root stem).Live := hlive _ hitem
  have hdir : ∀ path : Path, path.dir = root → setup.staged stem ≠ path := by
    rintro path rfl heq
    exact hapart _ hitem (congrArg Path.dir heq).symm
  have hstaged' : before.disk.files (setup.staged stem) = some image := (hother _ (hdir _ rfl) (hdir _ rfl)).trans hstaged
  rw [swap_in, rename_ends hstaged']
  refine ⟨fun _ => ⟨haside.1, haside.2, ?_, huntouched.swap hlive hapart hitem hstaged' hother⟩, fun _ => ⟨haside.1, haside.2, hkept⟩⟩
  have hbackup : (before.rename (setup.staged stem) (setup.target root stem)).disk.files (backup_path (setup.target root stem)) =
      before.disk.files (backup_path (setup.target root stem)) := by
    rw [World.rename, Disk.rename_eq hstaged', Disk.write_other _ _ (hlive'.ne_backup _).symm, Disk.write_other _ _ (hdir _ rfl).symm]
  intro mark hmark
  obtain ⟨added, hmem, hflag⟩ := mem_marks_recorded hmark
  obtain ⟨hmarked, hkept'⟩ := hkept _ hmem
  refine ⟨hmarked, ?_⟩
  by_cases heq : mark.1 = setup.target root stem
  · rw [hflag, heq]
    rw [heq] at hkept'
    simpa only [and_true] using hplaced added _ hbackup hkept'
  · rw [hflag, if_neg fun hboth => heq hboth.2]
    refine (hkept.write_staged hapart h.plan stem none _ hmem).2.congr ?_ ?_
    · rw [World.rename, Disk.rename_eq hstaged', Disk.write_other _ _ heq]
    · rw [World.rename, Disk.rename_eq hstaged', Disk.write_other _ _ (hlive'.ne_backup _).symm]

variable {world : World Image}

omit hapart in
/-- After a backup there is one, and it is what was there. -/
theorem backup_ends {marked : List (Path × Bool)} (h : AllKept start marked world.disk) (hunarchived : world.archived = none)
    {path : Path} (hplan : ∃ item ∈ plan setup, item.2.2 = path) {old : Image} (hold : world.disk.files path = some old)
    (hstart : world.disk.files path = start.files path) :
    (backup path).Ends (Benign setup start) (fun result world' => world'.journal = world.journal ∧ world'.archived = none ∧
      AllKept start marked world'.disk ∧
      (∀ other, other ≠ path → other ≠ backup_path path → world'.disk.files other = world.disk.files other) ∧
      (result.isSome → world'.disk.files (backup_path path) = start.files path)) world := by
  obtain ⟨item, hitem, rfl⟩ := hplan
  have hlive' : item.2.2.Live := hlive item hitem
  have hmove : (do
      rename .place item.2.2 (backup_path item.2.2)
      pure (backup_path item.2.2) : Program Image Path).Ends (Benign setup start) (fun result world' =>
      world'.journal = world.journal ∧ world'.archived = none ∧ AllKept start marked world'.disk ∧
      (∀ other, other ≠ item.2.2 → other ≠ backup_path item.2.2 → world'.disk.files other = world.disk.files other) ∧
      (result.isSome → world'.disk.files (backup_path item.2.2) = start.files item.2.2)) world := by
    rw [Attempt.ends_bind, rename_ends hold]
    refine ⟨fun _ => ⟨rfl, hunarchived, ?_, ?_, fun _ => ?_⟩, fun _ => ⟨rfl, hunarchived, h, fun _ _ _ => rfl, nofun⟩⟩
    · refine h.frame item.2.2 ?_ (fun _ hkept => hkept.of_backup ?_ (hstart.symm.trans hold)) hlive'
      · intro other hne hne'
        rw [World.rename, Disk.rename_eq hold, Disk.write_other _ _ hne', Disk.write_other _ _ hne]
      · rw [World.rename, Disk.rename_eq hold, Disk.write_same]
    · intro other hne hne'
      rw [World.rename, Disk.rename_eq hold, Disk.write_other _ _ hne', Disk.write_other _ _ hne]
    · rw [World.rename, Disk.rename_eq hold, Disk.write_same, ← hstart, hold]
  unfold backup
  rw [exists_bind_ends]
  refine ⟨fun hcopied => ?_, fun _ => hmove⟩
  have hcopied : world.disk.files item.2.2 = start.files item.2.2 → world.disk.files (backup_path item.2.2) = none ∨
      world.disk.files (backup_path item.2.2) = start.files item.2.2 := hcopied
  split
  · rename_i hsome
    refine ⟨rfl, hunarchived, h, fun _ _ _ => rfl, fun _ => ?_⟩
    rcases hcopied hstart with hnone | hcopy
    · rw [hnone] at hsome
      cases hsome
    · exact hcopy
  · exact hmove

/-- One swap leaves the disk as the journal will record it, or, when it fails, as the journal says
already. -/
theorem backup_and_swap_ends (h : Held setup start world) (huntouched : Untouched setup start world.disk) {root stem : Str}
    (hitem : (root, stem, setup.target root stem) ∈ plan setup) :
    (backup_and_swap (setup.staged stem) (setup.target root stem)).Ends (Benign setup start) (fun result world' =>
      world'.journal = world.journal ∧ world'.archived = none ∧
      match result with
      | some placed => AllKept start (marks setup (recorded world.journal root stem placed)) world'.disk ∧
          Untouched setup start world'.disk
      | none => AllKept start (marks setup world.journal) world'.disk) world := by
  unfold backup_and_swap
  rw [exists_bind_ends]
  refine ⟨fun _ => ?_, fun _ => ⟨rfl, h.unarchived, h.kept⟩⟩
  cases hstaged : world.disk.files (setup.staged stem) with
  | none => exact ⟨rfl, h.unarchived, h.kept⟩
  | some image =>
    have hstart : world.disk.files (setup.target root stem) = start.files (setup.target root stem) :=
      huntouched _ hitem (by rw [hstaged]; rfl)
    have hadd : world.disk.files (setup.target root stem) = none → (do
        swap_in (setup.staged stem) (setup.target root stem)
        pure .added : Program Image Placed).Ends (Benign setup start) (fun result world' =>
        world'.journal = world.journal ∧ world'.archived = none ∧
        match result with
        | some placed => AllKept start (marks setup (recorded world.journal root stem placed)) world'.disk ∧
            Untouched setup start world'.disk
        | none => AllKept start (marks setup world.journal) world'.disk) world := by
      intro hmissing
      refine (swap_in_ends hlive hapart h huntouched hitem hstaged ⟨rfl, h.unarchived⟩ (fun _ _ _ => rfl) h.kept .added
        ?_).bind (fun _ h => h) fun _ _ h => h
      intro _ _ _ _
      exact hstart.symm.trans hmissing
    change Attempt.Ends _ _ (exists_ _ _ >>= _) _
    rw [exists_bind_ends]
    refine ⟨fun _ => ?_, fun hmissing => hadd hmissing⟩
    cases htarget : world.disk.files (setup.target root stem) with
    | none => exact hadd htarget
    | some old =>
      refine (backup_ends hlive h.kept h.unarchived ⟨_, hitem, rfl⟩ htarget hstart).bind ?_ ?_
      · rintro world' ⟨hjournal, hunarchived, hkept, _⟩
        exact ⟨hjournal, hunarchived, hkept⟩
      · rintro backup world' ⟨hjournal, hunarchived, hkept, hother, hbackup⟩
        refine (swap_in_ends hlive hapart h huntouched hitem hstaged ⟨hjournal, hunarchived⟩ hother hkept
          (.replaced backup) ?_).bind (fun _ h => h) fun _ _ h => h
        intro added disk' hsame hkept'
        rw [if_neg nofun]
        have hold : start.files (setup.target root stem) = some old := hstart.symm.trans htarget
        exact hkept'.of_backup (hsame.trans ((hbackup rfl).trans hold)) hold

/-- Before and between the placements. -/
structure Placing (setup : Setup) (start : Disk Image) (world : World Image) : Prop extends Held setup start world where
  untouched : Untouched setup start world.disk

/-- The swaps keep the journal ahead of the disk; the first failure has rolled all of them back. -/
theorem swap_each_ends {items : List (Str × Str × Path)} (hitems : ∀ item ∈ items, item ∈ plan setup)
    (hstate : world.journal.state = .swapping) (h : Placing setup start world) :
    (swap_each setup items).Ends (Benign setup start) (fun result world' => world'.archived = none ∧
      match result with
      | some _ => Held setup start world'
      | none => AllOld setup start world'.disk) world := by
  induction items generalizing world with
  | nil => exact ⟨h.unarchived, h.toHeld⟩
  | cons item items ih =>
    obtain ⟨root, stem, target⟩ := item
    have hitem : (root, stem, target) ∈ plan setup := hitems _ List.mem_cons_self
    obtain rfl : target = setup.target root stem := mem_plan_target hitem
    refine (backup_and_swap_ends hlive hapart h.toHeld h.untouched hitem).caught_bind ?_
    rintro (_ | placed) world' ⟨hjournal, hunarchived, hplaced⟩
    · refine (rollback_all_ends ⟨?_, ?_, hunarchived⟩).bind (fun _ h => h) fun _ _ h => h
      · rw [hjournal]
        exact h.plan
      · rw [hjournal]
        exact hplaced
    · obtain ⟨hkept, huntouched⟩ := hplaced
      change Attempt.Ends _ _ (record root stem placed >>= fun _ => save >>= fun _ => swap_each setup items) _
      rw [record, Attempt.ends_modify_bind, save_bind_ends]
      have hrecorded : (world'.set_journal fun journal =>
          (if placed = .added then journal.set_binary_added root stem else journal).set_binary_status root stem .swapped).journal =
          recorded world.journal root stem placed := by
        rw [← hjournal]
        rfl
      have hstate' : (recorded world.journal root stem placed).state = .swapping := by
        unfold recorded
        split
        · exact hstate
        · exact hstate
      rw [hrecorded, hstate']
      refine ⟨fun _ => ih (fun item hmem => hitems item (List.mem_cons_of_mem _ hmem)) ?_ ?_, fun hold => ⟨hunarchived, hold⟩⟩
      · rw [World.save, hrecorded]
        exact hstate'
      · refine ⟨⟨?_, ?_, hunarchived⟩, huntouched⟩
        · rw [World.save, hrecorded, ← h.plan, collect_plan_eq, collect_plan_eq, flags_recorded, List.map_map]
          rfl
        · rw [World.save, hrecorded]
          exact hkept

omit hlive hapart in
theorem smoke_each_ends (items : List (Str × Str × Path)) (h : Held setup start world) :
    (smoke_each setup items).Ends (Benign setup start) (fun result world' => world'.archived = none ∧
      match result with
      | some _ => Held setup start world'
      | none => AllOld setup start world'.disk) world := by
  induction items generalizing world with
  | nil => exact ⟨h.unarchived, h⟩
  | cons item items ih =>
    obtain ⟨root, stem, target⟩ := item
    have hroll : (do
        rollback_all setup
        .err : Program Image Unit).Ends (Benign setup start) (fun result world' => world'.archived = none ∧
        match result with
        | some _ => Held setup start world'
        | none => AllOld setup start world'.disk) world :=
      (rollback_all_ends h).bind (fun _ h => h) fun _ _ h => h
    rw [smoke_each, Attempt.ends_ask_bind]
    refine ⟨fun _ => ih ?_, fun _ => hroll⟩
    have hflags := flags_set_binary_status setup world.journal root stem .smoke_ok
    refine ⟨(plan_of_flags hflags).trans h.plan, ?_, h.unarchived⟩
    change AllKept start (marks setup (world.journal.set_binary_status root stem .smoke_ok)) world.disk
    rw [marks_of_flags hflags]
    exact h.kept

/-- When it has given up, everything is as it was. -/
theorem apply_all_ends (h : Placing setup start world) :
    (apply_all setup).Ends (Benign setup start) (fun result world' => world'.archived = none ∧
      (result = none → AllOld setup start world'.disk)) world := by
  unfold apply_all
  rw [transition_bind_ends]
  refine ⟨fun _ => ?_, fun hold => ⟨h.unarchived, fun _ => hold⟩⟩
  rw [Attempt.ends_get_bind]
  have hplacing : Placing setup start (world.set_journal fun journal => { journal with state := .swapping }).save :=
    ⟨⟨h.plan, h.kept, h.unarchived⟩, h.untouched⟩
  have hitems : ∀ item ∈ collect_plan setup world.journal, item ∈ plan setup := fun item hmem => h.plan ▸ hmem
  refine (swap_each_ends hlive hapart hitems rfl hplacing).bind (fun _ h => ⟨h.1, fun _ => h.2⟩) ?_
  rintro _ world₁ ⟨hunarchived, hheld⟩
  rw [transition_bind_ends]
  refine ⟨fun _ => ?_, fun hold => ⟨hunarchived, fun _ => hold⟩⟩
  have hheld' : Held setup start (world₁.set_journal fun journal => { journal with state := .swapped }).save :=
    ⟨hheld.plan, hheld.kept, hheld.unarchived⟩
  refine (smoke_each_ends _ hheld').bind (fun _ h => ⟨h.1, fun _ => h.2⟩) ?_
  rintro _ world₂ ⟨hunarchived, _⟩
  rw [commit, Attempt.ends_modify_bind, transition_ends]
  exact ⟨fun _ => ⟨hunarchived, nofun⟩, fun hold => ⟨hunarchived, fun _ => hold⟩⟩

end place

section run

/-- Only the flags of the journal, the files and the archive matter. -/
theorem Placing.same {world world' : World Image} (h : Placing setup start world)
    (hflags : flags setup world'.journal = flags setup world.journal) (hfiles : world'.disk.files = world.disk.files)
    (harchived : world'.archived = world.archived) : Placing setup start world' where
  plan := (plan_of_flags hflags).trans h.plan
  kept := by
    intro mark hmem
    rw [marks_of_flags hflags] at hmem
    obtain ⟨hlive, hkept⟩ := h.kept mark hmem
    exact ⟨hlive, hkept.congr (by rw [hfiles]) (by rw [hfiles])⟩
  unarchived := harchived.trans h.unarchived
  untouched := by
    intro item hmem
    rw [hfiles]
    exact h.untouched item hmem

variable {world : World Image}

/-- Stopping the services touches no file, and a failure has started again those it stopped. -/
theorem quiesce_each_ends (components : List Str) (h : Placing setup start world) :
    (quiesce_each components).Ends (Benign setup start) (fun result world' => Placing setup start world' ∧
      (result = none → world'.journal.services_stopped = [])) world := by
  induction components generalizing world with
  | nil => exact ⟨h, nofun⟩
  | cons component components ih =>
    have hgo : (do
        .modify fun world => world.set_journal fun journal => { journal with services_stopped := journal.services_stopped ++ [component] }
        transition .quiesced
        quiesce_each components : Program Image Unit).Ends (Benign setup start) (fun result world' =>
        Placing setup start world' ∧ (result = none → world'.journal.services_stopped = [])) world := by
      rw [Attempt.ends_modify_bind, transition_bind_ends]
      exact ⟨fun _ => ih (h.same rfl rfl rfl), fun hnone => ⟨h.same rfl rfl rfl, fun _ => hnone⟩⟩
    rw [quiesce_each, stop_component]
    split
    · exact ⟨fun _ => hgo, fun _ => hgo⟩
    · rw [Attempt.ends_attempt_bind]
      exact ⟨fun _ => hgo, fun hnone => ⟨h, fun _ => hnone⟩⟩

theorem quiesce_ends (snapshot : Snapshot) (h : Placing setup start world) :
    (quiesce snapshot).Ends (Benign setup start) (fun result world' => Placing setup start world' ∧
      (result = none → world'.journal.services_stopped = [])) world := by
  unfold quiesce
  refine (quiesce_each_ends _ h).bind (fun _ h => h) ?_
  rintro _ world' ⟨h', _⟩
  rw [transition_ends]
  exact ⟨fun _ => ⟨h'.same rfl rfl rfl, nofun⟩, fun hnone => ⟨h'.same rfl rfl rfl, fun _ => hnone⟩⟩

variable {ok : World Image → Step → Bool → Prop}

theorem preflight_ends (items : List (Str × Str × Path)) :
    (preflight setup items).Ends ok (fun _ world' => world' = world) world := by
  induction items with
  | nil => rfl
  | cons item items ih =>
    obtain ⟨root, stem, target⟩ := item
    rw [preflight, exists_bind_ends]
    refine ⟨fun _ => ?_, fun _ => rfl⟩
    split
    · rfl
    · exact ⟨fun _ => ih, fun _ => rfl⟩

/-- A sweep takes backups only. -/
theorem sweep_ends (dir : Str) (names : List Str) :
    (sweep_stale_backups dir names).Ends ok (fun _ world' => world'.archived = world.archived ∧ world'.journal = world.journal ∧
      ∀ path : Path, path.Live → world'.disk.files path = world.disk.files path) world := by
  induction names generalizing world with
  | nil => exact ⟨rfl, rfl, fun _ _ => rfl⟩
  | cons name names ih =>
    unfold sweep_stale_backups
    split
    · exact ih
    · rename_i live hname
      obtain ⟨rfl, _⟩ := live_name_some hname
      rw [exists_bind_ends]
      refine ⟨fun _ => ?_, fun _ => ih⟩
      split
      · refine ⟨fun _ => (@ih (world.write ⟨dir, live ++ bak⟩ none)).mono ?_, fun _ => ih⟩
        rintro _ world' ⟨harchived, hjournal, hfiles⟩
        refine ⟨harchived, hjournal, fun path hpath => (hfiles path hpath).trans (Disk.write_other _ _ ?_)⟩
        exact hpath.ne_backup ⟨dir, live⟩
      · exact ih

/-- The sweep touches no file but backups. -/
theorem sweep_if_idle_ends :
    (sweep_self_backups_if_idle setup).Ends ok (fun _ world' => world'.archived = world.archived ∧ world'.journal = world.journal ∧
      ∀ path : Path, path.Live → world'.disk.files path = world.disk.files path) world := by
  have hidle : (do
      if ← .ask .best_effort fun _ => true then sweep_stale_backups setup.self_dir setup.listing : Program Image Unit).Ends ok
      (fun _ world' => world'.archived = world.archived ∧ world'.journal = world.journal ∧
        ∀ path : Path, path.Live → world'.disk.files path = world.disk.files path) world :=
    ⟨fun _ => sweep_ends _ _, fun _ => ⟨rfl, rfl, fun _ _ => rfl⟩⟩
  unfold sweep_self_backups_if_idle
  rw [Attempt.ends_ask_bind]
  refine ⟨fun _ => ?_, fun _ => hidle⟩
  split
  · exact ⟨rfl, rfl, fun _ _ => rfl⟩
  · exact hidle

/-- Every listed component is tried. -/
theorem start_each_ends (components : List Str) :
    (start_each components).Ends ok (fun result world' => result.isSome ∧ world'.archived = world.archived ∧
      world'.disk = world.disk ∧ world'.journal = world.journal ∧ world'.started = world.started ++ components) world := by
  induction components generalizing world with
  | nil => exact ⟨rfl, rfl, rfl, rfl, (List.append_nil _).symm⟩
  | cons component components ih =>
    have hrest := @ih { world with started := world.started ++ [component] }
    rw [start_each, Attempt.ends_modify_bind, Attempt.ends_ask_bind]
    constructor
    all_goals
      intro _
      refine hrest.bind (fun _ h => nomatch h.1) ?_
      rintro failed world' ⟨_, harchived, hdisk, hjournal, hstarted⟩
      exact ⟨rfl, harchived, hdisk, hjournal, by simpa using hstarted⟩

theorem restore_ends :
    (restore (planned setup)).Ends ok (fun result world' => result.isSome ∧ world'.archived = world.archived ∧
      world'.disk = world.disk ∧ Restarted setup world') world := by
  refine (start_each_ends _).mono ?_
  rintro result world' ⟨hsome, harchived, hdisk, _, hstarted⟩
  refine ⟨hsome, harchived, hdisk, fun component hrunning hknown => ?_⟩
  rw [hstarted, List.mem_append, List.mem_flatMap]
  exact .inr ⟨component, hknown, List.mem_filter.mpr ⟨hrunning, by simp⟩⟩

theorem archive_ends {Q : Option Unit → World Image → Prop} :
    archive.Ends ok Q world ↔ (ok world .best_effort false → Q (some ()) world.archive) ∧
      (ok world .best_effort true → Q (some ()) world) := Iff.rfl

theorem archive_bind_ends {α : Type} {g : Unit → Program Image α} {Q : Option α → World Image → Prop} :
    (archive >>= g).Ends ok Q world ↔ (ok world .best_effort false → (g ()).Ends ok Q world.archive) ∧
      (ok world .best_effort true → (g ()).Ends ok Q world) := Iff.rfl

theorem prune_each_ends (items : List (Str × Str × Path)) :
    (prune_each items).Ends ok (fun result world' => result.isSome ∧ world'.archived = world.archived ∧
      world'.started = world.started) world := by
  induction items generalizing world with
  | nil => exact ⟨rfl, rfl, rfl⟩
  | cons item items ih =>
    obtain ⟨root, stem, target⟩ := item
    have hone : (prune_backup target).Ends ok (fun _ world' => world'.archived = world.archived ∧ world'.started = world.started)
        world := by
      unfold prune_backup
      rw [exists_bind_ends]
      refine ⟨fun _ => ?_, fun _ => ⟨rfl, rfl⟩⟩
      split
      · exact ⟨fun _ => ⟨rfl, rfl⟩, fun _ => ⟨rfl, rfl⟩⟩
      · exact ⟨rfl, rfl⟩
    refine hone.caught_bind ?_
    rintro _ world' ⟨harchived, hstarted⟩
    refine ih.mono ?_
    rintro result world'' ⟨hsome, harchived', hstarted'⟩
    exact ⟨hsome, harchived'.trans harchived, hstarted'.trans hstarted⟩

theorem Restarted.of_started {world world' : World Image} (h : Restarted setup world) (hstarted : world'.started = world.started) :
    Restarted setup world' := by
  intro component hrunning hknown
  rw [hstarted]
  exact h component hrunning hknown

/-- Nothing has been archived: only the services count. -/
theorem reverted_unarchived {result : Option Unit} (h : world.archived = none)
    (hrestarted : world.journal.services_stopped = [] ∨ Restarted setup world) : Reverted setup start result world where
  aborted journal hsome := by
    rw [h] at hsome
    cases hsome
  restarted _ hstopped := hrestarted.resolve_left hstopped

/-- The journal of the last save is archived. -/
theorem archive_saved (world : World Image) : world.save.archive.archived = some world.journal := rfl

theorem abort_ends (hunarchived : world.archived = none) (hold : AllOld setup start world.disk)
    (hrestarted : world.journal.services_stopped = [] ∨ Restarted setup world) :
    (abort : Program Image Unit).Ends ok (Reverted setup start) world := by
  unfold abort
  rw [transition_bind_ends]
  refine ⟨fun _ => ?_, fun _ => reverted_unarchived hunarchived hrestarted⟩
  rw [archive_bind_ends]
  refine ⟨fun _ => ⟨fun _ _ _ => hold, fun _ hstopped => hrestarted.resolve_left hstopped⟩, fun _ => ?_⟩
  exact reverted_unarchived hunarchived hrestarted

/-- What follows the commit point. -/
theorem committed_ends (hunarchived : world.archived = none) (hrestarted : Restarted setup world) :
    (do
      transition .restored
      prune_all setup
      transition .done
      archive : Program Image Unit).Ends ok (Reverted setup start) world := by
  rw [transition_bind_ends]
  refine ⟨fun _ => ?_, fun _ => reverted_unarchived hunarchived (.inr hrestarted)⟩
  rw [prune_all, Attempt.ends_bind, Attempt.ends_get_bind]
  refine (prune_each_ends _).mono ?_
  rintro (_ | _) world' ⟨hsome, harchived, hstarted⟩
  · cases hsome
  · have hunarchived' : world'.archived = none := harchived.trans hunarchived
    have hrestarted' : Restarted setup world' := hrestarted.of_started hstarted
    change Attempt.Ends _ _ (transition .done >>= fun _ => archive) _
    rw [transition_bind_ends]
    refine ⟨fun _ => ?_, fun _ => reverted_unarchived hunarchived' (.inr hrestarted')⟩
    rw [archive_ends]
    refine ⟨fun _ => ⟨fun journal hsome hstate => ?_, nofun⟩, fun _ => reverted_unarchived hunarchived' (.inr hrestarted')⟩
    rw [archive_saved] at hsome
    cases hsome
    cases hstate

/-- An update whose failures are all benign ends with the new version committed, or reverted. -/
theorem run_apply_ends (hlive : ∀ item ∈ plan setup, item.2.2.Live) (hapart : ∀ item ∈ plan setup, item.1 ≠ setup.stage) :
    (run_apply setup).Ends (Benign setup start) (Reverted setup start) { disk := start } := by
  unfold run_apply
  refine sweep_if_idle_ends.bind (fun world ⟨hunarchived, hjournal, _⟩ => reverted_unarchived hunarchived (.inl ?_)) ?_
  · rw [hjournal]
  rintro _ world ⟨hunarchived, hjournal, hfiles⟩
  have hunarchived : world.archived = none := hunarchived
  have hold : AllOld setup start world.disk := fun item hmem => hfiles _ (hlive item hmem)
  rw [Attempt.ends_attempt_bind]
  refine ⟨fun _ => ?_, fun _ => reverted_unarchived hunarchived (.inl (by rw [hjournal]))⟩
  rw [Attempt.ends_modify_bind, transition_bind_ends]
  refine ⟨fun _ => ?_, fun _ => reverted_unarchived hunarchived (.inl rfl)⟩
  refine (preflight_ends _).caught_bind ?_
  rintro (_ | _) _ rfl
  · exact abort_ends hunarchived hold (.inl rfl)
  · change Attempt.Ends _ _ (transition .preflight_ok >>= _) _
    rw [transition_bind_ends]
    refine ⟨fun _ => ?_, fun _ => reverted_unarchived hunarchived (.inl rfl)⟩
    -- nothing has been placed yet
    have hplacing : Placing setup start (((world.set_journal fun _ => first_journal setup).set_journal fun journal =>
        { journal with state := .acquired }).save.set_journal fun journal => { journal with state := .preflight_ok }).save := by
      refine ⟨⟨rfl, fun mark hmem => ?_, hunarchived⟩, fun item hmem _ => hold item hmem⟩
      obtain ⟨item, hitem, rfl⟩ := List.mem_map.mp hmem
      obtain ⟨hplan, hadded⟩ := flags_first_journal hitem
      refine ⟨hlive _ hplan, ?_⟩
      rw [Kept, hadded, if_neg nofun]
      exact .inl (hold _ hplan)
    refine (quiesce_ends _ hplacing).bind (fun _ h => reverted_unarchived h.1.unarchived (.inl (h.2 rfl))) ?_
    rintro _ quiet ⟨hquiet, _⟩
    refine (apply_all_ends hlive hapart hquiet).caught_bind ?_
    rintro result applied ⟨hunarchived, hgiven⟩
    cases result with
    | none =>
      refine restore_ends.bind (fun _ h => nomatch h.1) ?_
      rintro _ restored ⟨_, harchived, hdisk, hrestarted⟩
      exact abort_ends (harchived.trans hunarchived) (hdisk ▸ hgiven rfl) (.inr hrestarted)
    | some _ =>
      refine restore_ends.bind (fun _ h => nomatch h.1) ?_
      rintro _ restored ⟨_, harchived, _, hrestarted⟩
      exact committed_ends (harchived.trans hunarchived) hrestarted

/-- In every run of benign steps: an aborted run has changed nothing, and a run that ends in an error has
restarted what it stopped. -/
theorem aborted_run_is_reverted {setup : Setup} {start : Disk Image} (hlive : ∀ item ∈ plan setup, item.2.2.Live)
    (hapart : ∀ item ∈ plan setup, item.1 ≠ setup.stage) {events : List Bool} {trial : Trial (World Image) Step Unit}
    (hmeets : Meets Trial.step (Trial.Allowed (Benign setup start)) ⟨{ disk := start }, run_apply setup⟩ events)
    (hrun : run_events Trial.step ⟨{ disk := start }, run_apply setup⟩ events = some trial) {result : Option Unit}
    (hended : trial.ended = some result) : Reverted setup start result trial.state :=
  Trial.run_rule (run_apply_ends hlive hapart) hmeets hrun hended

instance [DecidableEq Image] (disk : Disk Image) : Decidable (AllOld setup start disk) := by
  unfold AllOld
  infer_instance

instance [DecidableEq Image] (world : World Image) (step : Step) (fails : Bool) : Decidable (Benign setup start world step fails) := by
  unfold Benign Spared Copied
  split <;> split <;> infer_instance

/-- One step fails, after so many that do not. -/
def failing (before after : Nat) : List Bool := List.replicate before false ++ true :: List.replicate after false

/-- One old binary, and the daemon and the broker that use it. -/
def serving_setup : Setup :=
  let setup := sample_setup ["a".toList]
  { setup with elevated := true, snapshot := { setup.snapshot with running := ["daemon".toList, BROKER_COMPONENT] } }

set_option maxRecDepth 2000 in
/-- The smoke test fails with the new binary in place; the daemon and the broker are running again. -/
theorem aborted_run_is_reverted_serving : ∃ trial,
    run_events Trial.step ⟨{ disk := replace_one }, run_apply serving_setup⟩ (failing 42 21) = some trial ∧
      trial.ended = some none ∧ trial.state.archived.map Journal.state = some .aborted ∧ trial.state.started.length = 2 ∧
      Reverted serving_setup replace_one none trial.state :=
  ⟨_, rfl, rfl, rfl, rfl, @aborted_run_is_reverted _ serving_setup replace_one (by decide) (by decide) (failing 42 21) _
    (by decide) rfl _ rfl⟩

/-- The journal cannot be saved after the placement, and the run is archived as aborted with the new
binary in place; the broker does not stop, and the daemon stays down. -/
theorem failed_save_and_failed_stop :
    (∃ trial, run_events Trial.step ⟨{ disk := replace_one }, run_apply (sample_setup ["a".toList])⟩ (failing 28 4) = some trial ∧
      trial.ended = some none ∧ trial.state.archived.map Journal.state = some .aborted ∧
      ¬ AllOld (sample_setup ["a".toList]) replace_one trial.state.disk ∧
      ¬ Reverted (sample_setup ["a".toList]) replace_one none trial.state) ∧
    ∃ trial, run_events Trial.step ⟨{ disk := replace_one }, run_apply serving_setup⟩ (failing 17 0) = some trial ∧
      trial.ended = some none ∧ trial.state.journal.services_stopped = ["daemon".toList] ∧ trial.state.started = [] ∧
      ¬ Reverted serving_setup replace_one none trial.state := by
  constructor
  · refine ⟨_, rfl, rfl, rfl, by decide, fun h => ?_⟩
    exact absurd (h.aborted _ rfl rfl) (by decide)
  · refine ⟨_, rfl, rfl, rfl, rfl, fun h => ?_⟩
    exact absurd (h.restarted rfl nofun "daemon".toList (by decide) (by decide)) nofun

end run

end

end uffs.update.fallible
