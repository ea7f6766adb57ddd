import Uffs.Update.Rollback

open uffs.lib uffs.text

namespace uffs.update

/-! Whatever kills it, a run of the updater ends with all of the old binaries or all of the new ones. -/

section

variable {Image : Type} {setup : Setup} {start : Disk Image}
variable {journal : Journal} {disk : Disk Image}


theorem mem_plan_target {item : Str × Str × Path} (h : item ∈ collect_plan setup journal) :
    item.2.2 = setup.target item.1 item.2.1 := by
  simp only [collect_plan, entries, List.mem_map, List.mem_flatMap] at h
  obtain ⟨entry, ⟨target, _, binary, _, rfl⟩, rfl⟩ := h
  rfl

theorem mem_plan_of_flags {item : (Str × Str × Path) × Bool} (h : item ∈ flags setup journal) :
    item.1 ∈ collect_plan setup journal := by
  rw [collect_plan_eq]
  exact List.mem_map_of_mem h

theorem exe_name_injective {stem other : Str} (h : setup.exe_name stem = setup.exe_name other) : stem = other := by
  unfold Setup.exe_name at h
  split at h
  · exact List.append_cancel_right h
  · exact h

theorem target_injective {root stem root' stem' : Str} (h : setup.target root stem = setup.target root' stem') :
    root = root' ∧ stem = stem' := by
  simp only [Setup.target, Path.mk.injEq] at h
  exact ⟨h.1, exe_name_injective h.2⟩

/-- The backup goes with the updater's own at the start of the run. -/
def Swept (setup : Setup) (start : Disk Image) (path : Path) : Prop :=
  start.journal = none ∧ path.dir = setup.self_dir ∧ path.file ≠ [] ∧ path.file ++ bak ∈ setup.listing ∧ (start.files path).isSome

/-- No unfinished run is left, the plan names binaries outside of the staging directory, and what lies
next to one as its backup is a copy of it, or is swept. -/
structure Ready (setup : Setup) (start : Disk Image) : Prop where
  fresh : ∀ journal, start.journal = some journal → journal.state.is_terminal = true
  live : ∀ item ∈ plan setup, item.2.2.Live
  apart : ∀ item ∈ plan setup, item.1 ≠ setup.stage
  backups : ∀ item ∈ plan setup, ∀ image, start.files (backup_path item.2.2) = some image →
    start.files item.2.2 = some image ∨ Swept setup start item.2.2

theorem live_name_some {name live : Str} (h : live_name name = some live) : name = live ++ bak ∧ live ≠ [] := by
  simp only [live_name] at h
  split at h
  · rename_i heq
    cases h
    exact heq
  · cases h

theorem live_name_append {live : Str} (h : live ≠ []) : live_name (live ++ bak) = some live := by
  simp [live_name, h]

/-- Only backups have gone. -/
structure Thinned (disk disk' : Disk Image) : Prop where
  journal : disk'.journal = disk.journal
  live : ∀ path : Path, path.Live → disk'.files path = disk.files path
  backup : ∀ path, disk'.files (backup_path path) = disk.files (backup_path path) ∨ disk'.files (backup_path path) = none

theorem Thinned.trans {disk' disk'' : Disk Image} (h : Thinned disk disk') (h' : Thinned disk' disk'') : Thinned disk disk'' where
  journal := h'.journal.trans h.journal
  live path hpath := (h'.live path hpath).trans (h.live path hpath)
  backup path := by
    rcases h'.backup path with heq | hnone
    · rw [heq]
      exact h.backup path
    · exact .inr hnone

theorem Thinned.remove (disk : Disk Image) (path : Path) : Thinned disk (disk.write (backup_path path) none) where
  journal := rfl
  live other hother := Disk.write_other _ _ (hother.ne_backup path)
  backup other := by
    by_cases h : backup_path other = backup_path path
    · rw [h, Disk.write_same]
      exact .inr rfl
    · exact .inl (Disk.write_other _ _ h)

theorem sweep_safe {I : Disk Image → Prop} (dir : Str) (names : List Str)
    (hI : ∀ disk', Thinned disk disk' → I disk') :
    (sweep_stale_backups dir names).Safe I (fun _ disk' => Thinned disk disk' ∧
      ∀ path : Path, path.Live → path.dir = dir → path.file ≠ [] → path.file ++ bak ∈ names → (disk.files path).isSome →
        disk'.files (backup_path path) = none) disk := by
  induction names generalizing disk with
  | nil => exact ⟨⟨rfl, fun _ _ => rfl, fun _ => .inl rfl⟩, nofun⟩
  | cons name names ih =>
    unfold sweep_stale_backups
    split
    · rename_i hnone
      refine (ih hI).mono (fun _ h => h) fun _ disk' ⟨hthin, hgone⟩ => ⟨hthin, ?_⟩
      intro path hlive hdir hfile hmem hsome
      rcases List.mem_cons.mp hmem with rfl | hmem
      · rw [live_name_append hfile] at hnone
        cases hnone
      · exact hgone path hlive hdir hfile hmem hsome
    · rename_i live hlive
      obtain ⟨rfl, _⟩ := live_name_some hlive
      rw [Prog.safe_bind, exists_safe]
      refine ⟨hI disk ⟨rfl, fun _ _ => rfl, fun _ => .inl rfl⟩, ?_⟩
      split
      · have hthin := Thinned.remove disk ⟨dir, live⟩
        refine ⟨hI disk ⟨rfl, fun _ _ => rfl, fun _ => .inl rfl⟩, ?_⟩
        refine (ih fun disk' h => hI disk' (hthin.trans h)).mono (fun _ h => h) ?_
        rintro _ disk' ⟨hthin', hgone⟩
        refine ⟨hthin.trans hthin', ?_⟩
        intro path hpath hdir hfile hmem hsome
        rcases List.mem_cons.mp hmem with heq | hmem
        · obtain rfl : path = ⟨dir, live⟩ := by
            rw [← hdir, ← List.append_cancel_right heq]
          exact (hthin'.backup _).elim (fun h => h.trans (Disk.write_same ..)) fun h => h
        · refine hgone path hpath hdir hfile hmem ?_
          rw [Disk.write_other _ _ (hpath.ne_backup ⟨dir, live⟩)]
          exact hsome
      · rename_i hmissing
        refine (ih hI).mono (fun _ h => h) ?_
        rintro _ disk' ⟨hthin, hgone⟩
        refine ⟨hthin, ?_⟩
        intro path hpath hdir hfile hmem hsome
        rcases List.mem_cons.mp hmem with heq | hmem
        · obtain rfl : path = ⟨dir, live⟩ := by
            rw [← hdir, ← List.append_cancel_right heq]
          exact absurd hsome hmissing
        · exact hgone path hpath hdir hfile hmem hsome

/-- Before the first image is placed, and while images are being placed: the journal is saved. -/
structure Forward (setup : Setup) (start : Disk Image) (journal : Journal) (disk : Disk Image) : Prop where
  saved : disk.journal = some journal
  state : journal.state.is_terminal = false
  commit : journal.commit_point_passed = false
  plan : collect_plan setup journal = plan setup
  undoing : Undoing start (marks setup journal) disk
  missing : ∀ item ∈ update.plan setup, disk.files item.2.2 = none → start.files item.2.2 = none
  staged : ∀ item ∈ update.plan setup,
    disk.files (setup.staged item.2.1) = none ∨ disk.files (setup.staged item.2.1) = start.files (setup.staged item.2.1)

namespace Forward

section

variable (h : Forward setup start journal disk)

include h

theorem left : Left setup start disk :=
  left_undoing h.saved h.state h.plan h.commit h.undoing

theorem cut : Cut setup start disk := fun _ => h.left

/-- Another journal with the same binaries is saved. -/
theorem save {journal' : Journal} (hflags : flags setup journal' = flags setup journal)
    (hstate : journal'.state.is_terminal = false) (hcommit : journal'.commit_point_passed = false) :
    Forward setup start journal' { disk with journal := some journal' } where
  saved := rfl
  state := hstate
  commit := hcommit
  plan := (plan_of_flags hflags).trans h.plan
  undoing := by
    rw [marks_of_flags hflags]
    exact h.undoing
  missing := h.missing
  staged := h.staged

theorem transition {state : UpdateState} (hstate : state.is_terminal = false) {Q : Journal → Disk Image → Prop}
    (hQ : ∀ journal' disk', Forward setup start journal' disk' → Q journal' disk') :
    (journal.transition state).Safe (Cut setup start) Q disk :=
  ⟨h.cut, hQ _ _ (h.save rfl hstate h.commit)⟩

end

end Forward

theorem preflight_safe (h : Forward setup start journal disk) (items : List (Str × Str × Path)) :
    (preflight setup items).Safe (Cut setup start) (fun _ disk' => disk' = disk) disk := by
  induction items with
  | nil => rfl
  | cons item items ih =>
    obtain ⟨root, stem, target⟩ := item
    rw [preflight, Prog.safe_bind, exists_safe]
    refine ⟨h.cut, ?_⟩
    split
    · rfl
    · split
      · rfl
      · exact ih

theorem quiesce_each_safe (h : Forward setup start journal disk) (components : List Str) :
    (quiesce_each setup journal components).Safe (Cut setup start) (fun result disk' => Forward setup start result.1 disk') disk := by
  induction components generalizing journal disk with
  | nil => exact h
  | cons component components ih =>
    unfold quiesce_each
    split
    · exact h
    · exact ⟨h.cut, ih (h.save rfl rfl h.commit)⟩

theorem quiesce_safe (h : Forward setup start journal disk) (snapshot : Snapshot) :
    (quiesce setup journal snapshot).Safe (Cut setup start) (fun result disk' => Forward setup start result.1 disk') disk := by
  unfold quiesce
  refine (quiesce_each_safe h _).bind ?_
  rintro ⟨journal', ok⟩ disk' h'
  cases ok with
  | false => exact h'
  | true =>
    rw [Prog.safe_bind]
    exact Forward.transition h' rfl fun _ _ h => h

/-- The journal that is saved after a placement. -/
def recorded (journal : Journal) (root stem : Str) (placed : Placed) : Journal :=
  (if placed = .added then journal.set_binary_added root stem else journal).set_binary_status root stem .swapped

/-- A binary has been placed, and nothing else that matters here. -/
structure PlacedAt (setup : Setup) (start : Disk Image) (root stem : Str) (disk disk' : Disk Image) : Prop where
  journal : disk'.journal = disk.journal
  placed : (disk'.files (setup.target root stem)).isSome
  image : disk'.files (setup.target root stem) = start.files (setup.staged stem)
  others : ∀ other : Path, other.Live → other.dir ≠ setup.stage → other ≠ setup.target root stem →
    disk'.files other = disk.files other
  staged : ∀ other, disk'.files (setup.staged other) = none ∨ disk'.files (setup.staged other) = disk.files (setup.staged other)
  backup : ∀ other : Path, other.dir ≠ setup.stage → other ≠ setup.target root stem →
    disk'.files (backup_path other) = disk.files (backup_path other)

theorem flags_recorded (journal : Journal) (root stem : Str) (placed : Placed) :
    flags setup (recorded journal root stem placed) = (flags setup journal).map fun (item, added) =>
      (item, if placed = .added ∧ item.1 = root ∧ item.2.1 = stem then true else added) := by
  rw [recorded, flags_set_binary_status]
  split
  · rename_i hadded
    simp [flags_set_binary_added, hadded]
  · rename_i hadded
    simp [hadded]

theorem mem_marks_recorded {root stem : Str} {placed : Placed} {mark : Path × Bool}
    (h : mark ∈ marks setup (recorded journal root stem placed)) : ∃ added, (mark.1, added) ∈ marks setup journal ∧
      mark.2 = if placed = .added ∧ mark.1 = setup.target root stem then true else added := by
  rw [marks, flags_recorded, List.map_map, List.mem_map] at h
  obtain ⟨⟨item, added⟩, hmem, rfl⟩ := h
  refine ⟨added, mem_marks setup hmem, ?_⟩
  have htarget : item.2.2 = setup.target item.1 item.2.1 := mem_plan_target (mem_plan_of_flags hmem)
  have hiff : item.1 = root ∧ item.2.1 = stem ↔ item.2.2 = setup.target root stem := by
    rw [htarget]
    refine ⟨?_, target_injective⟩
    rintro ⟨hroot, hstem⟩
    rw [hroot, hstem]
  simp only [Function.comp_apply, hiff]

section place

variable (hready : Ready setup start) (h : Forward setup start journal disk) {root stem : Str}
  (hitem : (root, stem, setup.target root stem) ∈ update.plan setup)
include hready h hitem

variable {disk' : Disk Image}

omit hitem in
/-- The journal of a placement is saved. -/
theorem Forward.recorded {placed : Placed} (hplaced : PlacedAt setup start root stem disk disk')
    (hundoing : Undoing start (marks setup (recorded journal root stem placed)) disk') :
    Forward setup start (update.recorded journal root stem placed)
      { disk' with journal := some (update.recorded journal root stem placed) } where
  saved := rfl
  state := by
    unfold update.recorded
    split
    · exact h.state
    · exact h.state
  commit := by
    unfold update.recorded
    split
    · exact h.commit
    · exact h.commit
  plan := by
    rw [← h.plan, collect_plan_eq, collect_plan_eq, flags_recorded, List.map_map]
    rfl
  undoing := hundoing
  missing item hmem hnone := by
    by_cases heq : item.2.2 = setup.target root stem
    · have hsome := hplaced.placed
      rw [← heq] at hsome
      rw [show disk'.files item.2.2 = none from hnone] at hsome
      cases hsome
    · refine h.missing item hmem ?_
      rw [← hplaced.others item.2.2 (hready.live item hmem) ?_ heq]
      · exact hnone
      · rw [mem_plan_target hmem]
        exact hready.apart item hmem
  staged item hmem := by
    rcases hplaced.staged item.2.1 with hnone | hsame
    · exact .inl hnone
    · rcases h.staged item hmem with hnone | hstart
      · exact .inl (hsame.trans hnone)
      · exact .inr (hsame.trans hstart)

omit h in
/-- The last step of a placement, from the disk it is made on. -/
theorem swap_lands {image : Image} {before : Disk Image} (hstaged : before.files (setup.staged stem) = some image)
    (himage : start.files (setup.staged stem) = some image) (hjournal : before.journal = disk.journal)
    (hother : ∀ other : Path, other ≠ setup.target root stem → other ≠ backup_path (setup.target root stem) →
      before.files other = disk.files other) :
    PlacedAt setup start root stem disk (before.rename (setup.staged stem) (setup.target root stem)) := by
  have hlive : (setup.target root stem).Live := hready.live _ hitem
  have hapart : root ≠ setup.stage := hready.apart _ hitem
  have hfiles : ∀ other : Path, other ≠ setup.target root stem → other ≠ setup.staged stem →
      (before.rename (setup.staged stem) (setup.target root stem)).files other = before.files other := by
    intro other hne hne'
    rw [Disk.rename_eq hstaged, Disk.write_other _ _ hne, Disk.write_other _ _ hne']
  have htarget : (before.rename (setup.staged stem) (setup.target root stem)).files (setup.target root stem) = some image := by
    rw [Disk.rename_eq hstaged, Disk.write_same]
  constructor
  case journal => rw [Disk.rename_journal, hjournal]
  case placed => rw [htarget]; rfl
  case image => rw [htarget, himage]
  case others =>
    intro other hlive' hdir hne
    rw [hfiles other hne fun heq => hdir (congrArg Path.dir heq), hother other hne (hlive'.ne_backup _)]
  case staged =>
    intro other
    have htarget_ne : setup.staged other ≠ setup.target root stem := fun h => hapart (congrArg Path.dir h).symm
    have hbackup_ne : setup.staged other ≠ backup_path (setup.target root stem) := fun h => hapart (congrArg Path.dir h).symm
    by_cases heq : setup.staged other = setup.staged stem
    · refine .inl ?_
      rw [heq] at htarget_ne ⊢
      rw [Disk.rename_eq hstaged, Disk.write_other _ _ htarget_ne, Disk.write_same]
    · exact .inr ((hfiles _ htarget_ne heq).trans (hother _ htarget_ne hbackup_ne))
  case backup =>
    intro other hdir hne
    rw [hfiles _ (hlive.ne_backup other).symm fun heq => hdir (congrArg Path.dir heq)]
    exact hother _ (hlive.ne_backup other).symm fun heq => hne (backup_path_injective heq)

omit hitem in
/-- A placement is nothing to the other binaries. -/
theorem undoable_elsewhere (hplaced : PlacedAt setup start root stem disk disk') {mark : Path × Bool}
    (hmem : mark ∈ marks setup journal) (hne : mark.1 ≠ setup.target root stem) : Undoable start mark.2 mark.1 disk' := by
  obtain ⟨hlive, hundo⟩ := h.undoing _ hmem
  obtain ⟨⟨item, added⟩, hflags, rfl⟩ := List.mem_map.mp hmem
  have hplan := mem_plan_of_flags hflags
  rw [h.plan] at hplan
  have hdir : item.2.2.dir ≠ setup.stage := by
    rw [mem_plan_target hplan]
    exact hready.apart item hplan
  exact hundo.congr (hplaced.others _ hlive hdir hne) (hplaced.backup _ hdir hne)

omit hitem in
/-- What a placement leaves can be undone, when the binary itself can. -/
theorem undoing_placed {placed : Placed} (hplaced : PlacedAt setup start root stem disk disk')
    (htarget : ∀ added, (setup.target root stem, added) ∈ marks setup journal →
      Undoable start (if placed = .added then true else added) (setup.target root stem) disk') :
    Undoing start (marks setup (update.recorded journal root stem placed)) disk' := by
  intro mark hmark
  obtain ⟨added, hmem, hflag⟩ := mem_marks_recorded hmark
  refine ⟨(h.undoing _ hmem).1, ?_⟩
  by_cases heq : mark.1 = setup.target root stem
  · rw [heq] at hmem
    have hafter := htarget added hmem
    simpa only [hflag, heq, and_true] using hafter
  · rw [hflag, if_neg fun hboth => heq hboth.2]
    exact undoable_elsewhere hready h hplaced hmem heq

omit hitem in
/-- An add: until its flag is saved, the disk is not flagged. -/
theorem cut_added (hplaced : PlacedAt setup start root stem disk disk')
    (hmissing : start.files (setup.target root stem) = none) : Cut setup start disk' := by
  intro hflagged
  have hjournal := hplaced.journal.trans h.saved
  refine left_undoing hjournal h.state h.plan h.commit fun mark hmem => ⟨(h.undoing _ hmem).1, ?_⟩
  by_cases heq : mark.1 = setup.target root stem
  · have hadded : mark.2 = true := by
      refine hflagged journal hjournal h.state h.commit mark hmem (heq ▸ hmissing) fun hnone => ?_
      have hsome := hplaced.placed
      rw [← heq, hnone] at hsome
      cases hsome
    rw [hadded, heq]
    exact hmissing
  · exact undoable_elsewhere hready h hplaced hmem heq

/-- A replacement, from the moment on when the backup is there. -/
theorem swap_in_safe {image kept : Image} {before : Disk Image} (hstaged : disk.files (setup.staged stem) = some image)
    (himage : start.files (setup.staged stem) = some image) (hjournal : before.journal = disk.journal)
    (hother : ∀ other : Path, other ≠ setup.target root stem → other ≠ backup_path (setup.target root stem) →
      before.files other = disk.files other)
    (hkept : before.files (backup_path (setup.target root stem)) = some kept)
    (hfrom : disk.files (backup_path (setup.target root stem)) = some kept ∨
      disk.files (backup_path (setup.target root stem)) = none ∧ disk.files (setup.target root stem) = some kept)
    (backup : Path) :
    (swap_in (setup.staged stem) (setup.target root stem)).Safe (Cut setup start) (fun done disk' => done = true ∧
      Cut setup start disk' ∧ PlacedAt setup start root stem disk disk' ∧
      Undoing start (marks setup (update.recorded journal root stem (.replaced backup))) disk') before := by
  have hlive : (setup.target root stem).Live := hready.live _ hitem
  have hapart : root ≠ setup.stage := hready.apart _ hitem
  have htarget_ne : setup.staged stem ≠ setup.target root stem := fun h => hapart (congrArg Path.dir h).symm
  have hbackup_ne : setup.staged stem ≠ backup_path (setup.target root stem) := fun h => hapart (congrArg Path.dir h).symm
  have hstaged' : before.files (setup.staged stem) = some image := (hother _ htarget_ne hbackup_ne).trans hstaged
  have hundo : ∀ disk' : Disk Image, disk'.files (backup_path (setup.target root stem)) = some kept →
      ∀ mark ∈ marks setup journal, mark.1 = setup.target root stem → Undoable start mark.2 (setup.target root stem) disk' := by
    intro disk' hbackup mark hmem heq
    have hbefore := (h.undoing mark hmem).2
    rw [heq] at hbefore
    exact hbefore.backed_up hbackup hfrom
  have hplaced : PlacedAt setup start root stem disk (before.rename (setup.staged stem) (setup.target root stem)) :=
    swap_lands hready hitem hstaged' himage hjournal hother
  have hkept' : (before.rename (setup.staged stem) (setup.target root stem)).files (backup_path (setup.target root stem)) =
      some kept := by
    rw [Disk.rename_eq hstaged', Disk.write_other _ _ (hlive.ne_backup _).symm, Disk.write_other _ _ hbackup_ne.symm, hkept]
  rw [swap_in, rename_safe]
  refine ⟨fun _ => ?_, by rw [hstaged']; rfl, fun _ => ?_, hplaced, ?_⟩
  · refine left_undoing (hjournal.trans h.saved) h.state h.plan h.commit ?_
    exact h.undoing.frame _ hother (hundo before hkept) hlive
  · refine left_undoing (hplaced.journal.trans h.saved) h.state h.plan h.commit fun mark hmem => ⟨(h.undoing _ hmem).1, ?_⟩
    by_cases heq : mark.1 = setup.target root stem
    · rw [heq]
      exact hundo _ hkept' mark hmem heq
    · exact undoable_elsewhere hready h hplaced hmem heq
  · refine undoing_placed hready h hplaced fun added hmem => ?_
    rw [if_neg nofun]
    exact hundo _ hkept' _ hmem rfl

theorem backup_and_swap_safe : (backup_and_swap (setup.staged stem) (setup.target root stem)).Safe (Cut setup start)
    (fun placed disk' => match placed with
      | none => Forward setup start journal disk'
      | some placed => Cut setup start disk' ∧ PlacedAt setup start root stem disk disk' ∧
        Undoing start (marks setup (update.recorded journal root stem placed)) disk') disk := by
  unfold backup_and_swap
  rw [Prog.safe_bind, exists_safe]
  refine ⟨h.cut, ?_⟩
  cases hstaged : disk.files (setup.staged stem) with
  | none => exact h
  | some image =>
    have himage : start.files (setup.staged stem) = some image := by
      rcases h.staged _ hitem with hnone | hsame
      · rw [hstaged] at hnone
        cases hnone
      · rw [← hsame, hstaged]
    rw [if_neg (by simp), Prog.safe_bind, exists_safe]
    refine ⟨h.cut, ?_⟩
    cases htarget : disk.files (setup.target root stem) with
    | none =>
      have hplaced : PlacedAt setup start root stem disk (disk.rename (setup.staged stem) (setup.target root stem)) :=
        swap_lands hready hitem hstaged himage rfl fun _ _ _ => rfl
      have hmissing : start.files (setup.target root stem) = none := h.missing _ hitem htarget
      rw [if_neg (by simp), Prog.safe_bind, swap_in, rename_safe, hstaged, if_pos (by rfl)]
      exact ⟨h.cut, cut_added hready h hplaced hmissing, hplaced, undoing_placed hready h hplaced fun _ _ => hmissing⟩
    | some old =>
      have hswap := fun before kept hjournal hother hkept hfrom =>
        @swap_in_safe _ _ _ _ _ hready h _ _ hitem image kept before hstaged himage hjournal hother hkept hfrom
          (backup_path (setup.target root stem))
      rw [if_pos (by rfl), Prog.safe_bind, backup, Prog.safe_bind, exists_safe]
      refine ⟨h.cut, ?_⟩
      cases hbackup : disk.files (backup_path (setup.target root stem)) with
      | some kept =>
        rw [if_pos (by rfl), Prog.safe_pure]
        refine (hswap disk kept rfl (fun _ _ _ => rfl) hbackup (.inl hbackup)).bind ?_
        rintro _ disk' ⟨rfl, hcut, hplaced, hundoing⟩
        exact ⟨hcut, hplaced, hundoing⟩
      | none =>
        rw [if_neg (by simp), Prog.safe_bind, rename_safe, htarget, if_pos (by rfl), Prog.safe_pure]
        have hmoved := @Disk.rename_eq _ disk _ (backup_path (setup.target root stem)) old htarget
        refine ⟨h.cut, (hswap _ old (Disk.rename_journal ..) ?_ ?_ (.inr ⟨hbackup, htarget⟩)).bind ?_⟩
        · intro other hne hne'
          rw [hmoved, Disk.write_other _ _ hne', Disk.write_other _ _ hne]
        · rw [hmoved, Disk.write_same]
        · rintro _ disk' ⟨rfl, hcut, hplaced, hundoing⟩
          exact ⟨hcut, hplaced, hundoing⟩

end place

/-- The binary is the staged image. -/
def IsNew (setup : Setup) (start : Disk Image) (item : Str × Str × Path) (disk : Disk Image) : Prop :=
  (disk.files item.2.2).isSome ∧ disk.files item.2.2 = start.files (setup.staged item.2.1)

theorem PlacedAt.isNew {root stem : Str} {disk' : Disk Image} (h : PlacedAt setup start root stem disk disk')
    {item : Str × Str × Path} (heq : item.2.2 = setup.target item.1 item.2.1) (hsame : item.2.2 = setup.target root stem) :
    IsNew setup start item disk' := by
  have hstem := (target_injective (heq.symm.trans hsame)).2
  rw [IsNew, hsame, hstem]
  exact ⟨h.placed, h.image⟩

/-- Every image that is placed stays in place. -/
theorem swap_each_safe (hready : Ready setup start) {items : List (Str × Str × Path)} (hitems : ∀ item ∈ items, item ∈ plan setup) (h : Forward setup start journal disk) :
    (swap_each setup journal items).Safe (Cut setup start) (fun result disk' => Forward setup start result.1 disk' ∧
      (result.2 = true → (∀ item ∈ items, IsNew setup start item disk') ∧
        ∀ item ∈ plan setup, IsNew setup start item disk → IsNew setup start item disk')) disk := by
  induction items generalizing journal disk with
  | nil => exact ⟨h, fun _ => ⟨nofun, fun _ _ h => h⟩⟩
  | cons item items ih =>
    obtain ⟨root, stem, target⟩ := item
    have hitem : (root, stem, target) ∈ plan setup := hitems _ List.mem_cons_self
    obtain rfl : target = setup.target root stem := mem_plan_target hitem
    refine (backup_and_swap_safe hready h hitem).bind ?_
    rintro (_ | placed) disk' hplaced
    · exact ⟨hplaced, nofun⟩
    · obtain ⟨hcut, hplaced, hundoing⟩ := hplaced
      have hforward := h.recorded hready hplaced hundoing
      refine ⟨hcut, (ih (fun item hmem => hitems item (List.mem_cons_of_mem _ hmem)) hforward).mono (fun _ h => h) ?_⟩
      rintro result disk'' ⟨hforward', hdone⟩
      refine ⟨hforward', fun hok => ?_⟩
      obtain ⟨hnew, hkept⟩ := hdone hok
      refine ⟨fun item hmem => ?_, fun item hmem hold => hkept item hmem ?_⟩
      · rcases List.mem_cons.mp hmem with rfl | hmem
        · exact hkept _ hitem (hplaced.isNew rfl rfl)
        · exact hnew item hmem
      · by_cases hsame : item.2.2 = setup.target root stem
        · exact hplaced.isNew (mem_plan_target hmem) hsame
        · have hother := hplaced.others item.2.2 (hready.live item hmem) ?_ hsame
          · rw [IsNew]
            rw [show disk'.files item.2.2 = disk.files item.2.2 from hother]
            exact hold
          · rw [mem_plan_target hmem]
            exact hready.apart item hmem

theorem flags_smoke_each (items : List (Str × Str × Path)) :
    flags setup (smoke_each setup journal items).1 = flags setup journal ∧
      (smoke_each setup journal items).1.state = journal.state ∧
      (smoke_each setup journal items).1.commit_point_passed = journal.commit_point_passed := by
  induction items generalizing journal with
  | nil => exact ⟨rfl, rfl, rfl⟩
  | cons item items ih =>
    obtain ⟨root, stem, target⟩ := item
    unfold smoke_each
    split
    · obtain ⟨hflags, hstate, hcommit⟩ := @ih (journal.set_binary_status root stem .smoke_ok)
      rw [flags_set_binary_status] at hflags
      exact ⟨hflags, hstate, hcommit⟩
    · exact ⟨rfl, rfl, rfl⟩

/-- Up to the commit point: all is new there, or all is old again. -/
theorem apply_all_safe (hready : Ready setup start) (h : Forward setup start journal disk) :
    (apply_all setup journal).Safe (Cut setup start) (fun result disk' => Left setup start disk' ∧
      match result.2 with
      | false => AllOld setup start disk'
      | true => collect_plan setup result.1 = plan setup ∧ result.1.commit_point_passed = true ∧ AllNew setup start disk') disk := by
  unfold apply_all
  rw [Prog.safe_bind]
  refine h.transition rfl fun journal disk h => ?_
  have hroll : ∀ {journal : Journal} {disk : Disk Image}, Forward setup start journal disk → ∀ {journal' : Journal},
      flags setup journal' = flags setup journal → journal'.commit_point_passed = journal.commit_point_passed →
      (rollback_all setup journal' >>= fun result => pure (result.1, false) : Program Image (Journal × Bool)).Safe (Cut setup start)
        (fun result disk' => Left setup start disk' ∧
          match result.2 with
          | false => AllOld setup start disk'
          | true => collect_plan setup result.1 = plan setup ∧ result.1.commit_point_passed = true ∧ AllNew setup start disk') disk := by
    intro journal disk h journal' hflags hcommit
    have hundoing := h.undoing
    rw [← marks_of_flags hflags] at hundoing
    refine (rollback_all_safe ((plan_of_flags hflags).trans h.plan) (hcommit.trans h.commit) h.left hundoing).bind ?_
    exact fun _ disk' hdone => hdone.2
  refine (swap_each_safe hready (fun item hmem => h.plan ▸ hmem) h).bind ?_
  rintro ⟨journal', ok⟩ disk' ⟨hforward, hnew⟩
  cases ok with
  | false => exact hroll hforward rfl rfl
  | true =>
    have hswapped : Forward setup start { journal' with state := .swapped }
        { disk' with journal := some { journal' with state := .swapped } } := hforward.save rfl rfl hforward.commit
    have hall : AllNew setup start disk' := fun item hmem => (hnew rfl).1 item (h.plan.symm ▸ hmem)
    rw [Prog.safe_bind, transition_safe]
    refine ⟨hforward.cut, ?_⟩
    obtain ⟨hflags, _, hcommit⟩ := @flags_smoke_each setup { journal' with state := .swapped } (collect_plan setup journal)
    split
    · rename_i tested hsmoke
      rw [hsmoke] at hflags hcommit
      exact hroll hswapped hflags hcommit
    · rename_i tested hsmoke
      rw [hsmoke] at hflags hcommit
      have hplan : collect_plan setup tested = plan setup := (plan_of_flags hflags).trans hswapped.plan
      exact ⟨hswapped.cut, left_committed rfl hplan rfl hall, hplan, rfl, hall⟩

/-- The first journal tracks every binary as it is. -/
theorem flags_first_journal {item : (Str × Str × Path) × Bool} (h : item ∈ flags setup (first_journal setup)) :
    item.1 ∈ plan setup ∧ item.2 = false := by
  refine ⟨mem_plan_of_flags h, ?_⟩
  simp only [flags, entries, first_journal, journal_from_snapshot, List.mem_map, List.mem_flatMap] at h
  obtain ⟨entry, ⟨target, ⟨found, _, rfl⟩, binary, hbinary, rfl⟩, rfl⟩ := h
  obtain ⟨name, _, rfl⟩ := List.mem_map.mp hbinary
  rfl

theorem Thinned.refl (disk : Disk Image) : Thinned disk disk := ⟨rfl, fun _ _ => rfl, fun _ => .inl rfl⟩

section

variable (hready : Ready setup start)

include hready

theorem Thinned.allOld (h : Thinned start disk) : AllOld setup start disk :=
  fun item hmem => h.live item.2.2 (hready.live item hmem)

/-- Until the first journal is saved, nothing has happened. -/
theorem Thinned.left (h : Thinned start disk) : Left setup start disk := by
  cases hjournal : start.journal with
  | none =>
    rw [Left, h.journal, hjournal]
    exact .inl (h.allOld hready)
  | some journal => exact left_terminal (h.journal.trans hjournal) (hready.fresh journal hjournal) (.inl (h.allOld hready))

theorem sweep_if_idle_safe :
    (sweep_self_backups_if_idle setup).Safe (Cut setup start) (fun _ disk' => Thinned start disk' ∧
      ∀ item ∈ plan setup, ∀ image, disk'.files (backup_path item.2.2) = some image → start.files item.2.2 = some image) start := by
  unfold sweep_self_backups_if_idle
  rw [Prog.safe_bind, Journal.load, Prog.safe_read]
  refine ⟨fun _ => (Thinned.refl start).left hready, ?_⟩
  cases hjournal : start.journal with
  | some journal =>
    refine ⟨.refl start, fun item hmem image himage => ?_⟩
    rcases hready.backups item hmem image himage with hsame | hswept
    · exact hsame
    · have hnone := hswept.1
      rw [hjournal] at hnone
      cases hnone
  | none =>
    have hI : ∀ disk', Thinned start disk' → Cut setup start disk' := fun disk' hthin _ => hthin.left hready
    refine (sweep_safe setup.self_dir setup.listing hI).mono (fun _ h => h) ?_
    rintro _ disk' ⟨hthin, hgone⟩
    refine ⟨hthin, fun item hmem image himage => ?_⟩
    rcases hthin.backup item.2.2 with hsame | hnone
    · rcases hready.backups item hmem image (hsame.symm.trans himage) with hstart | ⟨_, hdir, hfile, hlisted, hsome⟩
      · exact hstart
      · rw [hgone item.2.2 (hready.live item hmem) hdir hfile hlisted hsome] at himage
        cases himage
    · rw [hnone] at himage
      cases himage

/-- The first journal is saved. -/
theorem Forward.first (hthin : Thinned start disk)
    (hbackups : ∀ item ∈ update.plan setup, ∀ image, disk.files (backup_path item.2.2) = some image →
      start.files item.2.2 = some image) :
    Forward setup start { first_journal setup with state := .acquired }
      { disk with journal := some { first_journal setup with state := .acquired } } where
  saved := rfl
  state := rfl
  commit := rfl
  plan := rfl
  undoing mark hmem := by
    obtain ⟨item, hitem, rfl⟩ := List.mem_map.mp hmem
    obtain ⟨hplan, hadded⟩ := flags_first_journal hitem
    refine ⟨hready.live _ hplan, ?_⟩
    rw [Undoable, hadded, if_neg Bool.false_ne_true]
    cases hbackup : disk.files (backup_path item.1.2.2) with
    | none => exact .inl ⟨rfl, hthin.allOld hready _ hplan⟩
    | some image => exact .inr ⟨image, rfl, hbackups _ hplan image hbackup⟩
  missing item hmem hnone := by
    rw [← hthin.allOld hready item hmem]
    exact hnone
  staged item hmem := by
    refine .inr (hthin.live _ ?_)
    have hlive := hready.live item hmem
    rw [mem_plan_target hmem] at hlive
    exact hlive

end

/-- A run that gives up with everything as it was. -/
theorem abort_safe (hleft : Left setup start disk) (hold : AllOld setup start disk) :
    (do
      let _ ← journal.transition .aborted
      Journal.archive
      pure .failed : Program Image Outcome).Safe (Cut setup start)
      (fun outcome disk' => Left setup start disk' ∧ Promised setup start outcome disk') disk :=
  @finish_safe _ _ _ _ _ .aborted rfl _ Outcome.failed hleft (.inl hold) _ fun _ hleft _ => ⟨hleft, fun hne => absurd rfl hne⟩

/-- A run of `apply`, wherever it is killed. -/
theorem run_apply_safe (hready : Ready setup start) :
    (run_apply setup).CrashSafe (Flagged setup start) (Left setup start) (Promised setup start) start := by
  change Prog.Safe (Cut setup start) _ _ _
  unfold run_apply
  refine (sweep_if_idle_safe hready).bind ?_
  rintro _ disk ⟨hthin, hbackups⟩
  have hfirst := Forward.first hready hthin hbackups
  have hold : AllOld setup start { disk with journal := some { first_journal setup with state := .acquired } } := (hthin.allOld hready :)
  rw [Prog.safe_bind, transition_safe]
  refine ⟨fun _ => hthin.left hready, ?_⟩
  refine (preflight_safe hfirst _).bind ?_
  rintro ok _ rfl
  split
  · exact abort_safe hfirst.left hold
  · rw [Prog.safe_bind]
    refine hfirst.transition rfl fun journal quiet hforward => ?_
    refine (quiesce_safe hforward _).bind ?_
    rintro ⟨journal, stopped⟩ quiet hforward
    cases stopped with
    | false => exact ⟨hforward.left, fun hne => absurd rfl hne⟩
    | true =>
      refine (apply_all_safe hready hforward).bind ?_
      rintro ⟨journal, committed⟩ ended ⟨hleft, hend⟩
      cases committed with
      | false => exact abort_safe hleft hend
      | true =>
        obtain ⟨hplan, hcommit, hnew⟩ := hend
        exact forward_safe hready.live hplan hcommit hleft hnew Outcome.applied fun _ hleft hwhole => ⟨hleft, fun _ _ => hwhole⟩

/-- In every run of the updater in which programs are killed on flagged disks only, a recovery that
completes leaves all of the old binaries or all of the new ones. -/
theorem recovered_run_is_whole (hready : Ready setup start) {events : List (SessionEvent RecoverSetup)}
    {s : Session (Disk Image) Outcome}
    (hmeets : Meets (Session.step (recover setup)) (Session.KilledOn (Flagged setup start)) ⟨start, some (run_apply setup)⟩ events)
    (hrun : run_events (Session.step (recover setup)) ⟨start, some (run_apply setup)⟩ events = some s) {recovery : Recovery}
    (hresult : s.result = some (.recovered recovery)) (hdone : recovery ≠ .in_progress) : Whole setup start s.disk := by
  have hpromised : Promised setup start (.recovered recovery) s.disk :=
    Session.recovery_rule (fun found _ hleft => recover_safe hready.live found hleft) (run_apply_safe hready) hmeets hrun hresult
  refine hpromised nofun fun heq => hdone ?_
  cases heq
  rfl

section runs

/-- A root with binaries of these names. -/
def sample_setup (names : List Str) : Setup where
  windows := false
  elevated := false
  self_dir := "self".toList
  listing := []
  snapshot_path := "snapshot".toList
  snapshot := { targets := [{ root := "root".toList, channel := "unmanaged".toList, binaries := names }] }
  stage := "stage".toList
  writable _ := true
  stops _ := true
  smoke_ok _ := true

def sample_path (dir file : String) : Path := ⟨dir.toList, file.toList⟩

/-- One old binary, and the image that is to replace it. -/
def replace_one : Disk Nat where
  files := Function.update (Function.update (fun _ => none) (sample_path "root" "a") (some 1)) (sample_path "stage" "a") (some 2)
  journal := none

/-- The program goes on for some steps and is killed; a recovery goes on for some steps. -/
def killed_after (before after : Nat) : List (SessionEvent RecoverSetup) :=
  List.replicate before .act ++ .kill :: .restart ⟨false, true⟩ :: List.replicate after .act

theorem plan_one : plan (sample_setup ["a".toList]) = [("root".toList, "a".toList, sample_path "root" "a")] := by decide

theorem ready_replace_one : Ready (sample_setup ["a".toList]) replace_one where
  fresh _ h := nomatch h
  live := by decide
  apart := by decide
  backups item hmem image himage := by
    rw [plan_one, List.mem_singleton] at hmem
    subst hmem
    rw [show replace_one.files (backup_path (sample_path "root" "a")) = none by decide] at himage
    cases himage

/-- Killed between the backup and the swap. -/
theorem recovered_run_is_whole_backed_up : ∃ s,
    run_events (Session.step (recover (sample_setup ["a".toList]))) ⟨replace_one, some (run_apply (sample_setup ["a".toList]))⟩
      (killed_after 10 8) = some s ∧
    s.result = some (.recovered .rolled_back) ∧ Whole (sample_setup ["a".toList]) replace_one s.disk := by
  refine ⟨_, rfl, rfl, ?_⟩
  refine @recovered_run_is_whole _ _ _ ready_replace_one (killed_after 10 8) _ (Session.meets_acts rfl ?_) rfl _ rfl nofun
  refine .cons ?_ rfl (.cons trivial rfl ?_)
  · -- the only binary was there at the start
    rintro journal hjournal _ _ ⟨path, added⟩ hmem hnone
    cases hjournal
    obtain ⟨rfl, rfl⟩ : path = sample_path "root" "a" ∧ added = false := by
      simpa using (show (path, added) ∈ [(sample_path "root" "a", false)] from hmem)
    cases hnone
  · exact @Session.meets_acts _ _ _ _ _ 8 _ _ [] rfl trivial

/-- An older backup lies next to the binary. -/
def replace_one_again : Disk Nat := replace_one.write (sample_path "root" "a.bak") (some 0)

/-- One old binary and one that is missing. -/
def replace_and_add : Disk Nat := replace_one.write (sample_path "stage" "b") (some 3)

/-- The older backup comes back before anything is swapped, and an added binary stays that was placed
when the run was killed. -/
theorem recovery_mixes :
    (∃ s, run_events (Session.step (recover (sample_setup ["a".toList])))
        ⟨replace_one_again, some (run_apply (sample_setup ["a".toList]))⟩ (killed_after 2 9) = some s ∧
      s.result = some (.recovered .rolled_back) ∧ ¬ Whole (sample_setup ["a".toList]) replace_one_again s.disk) ∧
    ∃ s, run_events (Session.step (recover (sample_setup ["a".toList, "b".toList])))
        ⟨replace_and_add, some (run_apply (sample_setup ["a".toList, "b".toList]))⟩ (killed_after 16 10) = some s ∧
      s.result = some (.recovered .rolled_back) ∧ ¬ Whole (sample_setup ["a".toList, "b".toList]) replace_and_add s.disk := by
  constructor
  · refine ⟨_, rfl, rfl, ?_⟩
    rintro (hold | hnew)
    · exact absurd (hold ("root".toList, "a".toList, sample_path "root" "a") (by decide)) (by decide)
    · exact absurd (hnew ("root".toList, "a".toList, sample_path "root" "a") (by decide)).2 (by decide)
  · refine ⟨_, rfl, rfl, ?_⟩
    rintro (hold | hnew)
    · exact absurd (hold ("root".toList, "b".toList, sample_path "root" "b") (by decide)) (by decide)
    · exact absurd (hnew ("root".toList, "a".toList, sample_path "root" "a") (by decide)).2 (by decide)

end runs

end

end uffs.update
