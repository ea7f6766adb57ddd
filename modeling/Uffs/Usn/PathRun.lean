import Uffs.Usn.Ends

open uffs.lib uffs.mft uffs.text uffs.bloom uffs.compact

namespace uffs.usn

/-- Stored path lengths through the mutation loop: they stay, except where a slot is created over,
and every entry of the change set names a slot. -/
structure Lengths (start : DriveCompactIndex) (patch : Patch) : Prop where
  inRange : ∀ change ∈ patch.path_changes, change.idx.toNat < patch.drive.records.length
  kept : ∀ c rec, start.records[c]? = some rec → ∃ rec', patch.drive.records[c]? = some rec' ∧
    (rec'.path_len = rec.path_len ∨ ∃ change ∈ patch.path_changes, change.idx.toNat = c ∧ change.subtree = false)

theorem Lengths.start (drive : DriveCompactIndex) : Lengths drive { drive := drive } :=
  ⟨fun _ h => absurd h List.not_mem_nil, fun _ rec hget => ⟨rec, hget, Or.inl rfl⟩⟩

/-- One change keeps every stored length, but the one of a slot it creates over. -/
theorem Lengths.step {env : Env} {start : DriveCompactIndex} {patch : Patch} (h : Lengths start patch)
    (change : FileChange) (hroom : (apply_change env patch change).drive.records.length < UInt32.size) :
    Lengths start (apply_change env patch change) := by
  have heffect := apply_change_effect env patch change
  generalize apply_change env patch change = after at *
  cases heffect with
  | idle hrecords _ hpath _ =>
    refine ⟨?_, ?_⟩
    · rw [hpath, hrecords]
      exact h.inRange
    · rw [hpath, hrecords]
      exact h.kept
  | deleted old _ _ hget hrecords _ hpath _ =>
    refine ⟨?_, fun c rec hrec => ?_⟩
    · rw [hpath, hrecords, List.length_set]
      exact h.inRange
    · obtain ⟨rec', hrec', hlen⟩ := h.kept c rec hrec
      rw [hpath, hrecords, List.getElem?_set]
      by_cases hc : (slot_of patch.drive change.frs).toNat = c
      · subst hc
        cases hget.symm.trans hrec'
        rw [if_pos rfl, if_pos (List.getElem?_eq_some_iff.mp hget).1]
        exact ⟨_, rfl, hlen⟩
      · rw [if_neg hc]
        exact ⟨rec', hrec', hlen⟩
  | appended new _ _ _ _ hrecords _ hpath _ =>
    have hslot : (len_to_u32 patch.drive.records.length).toNat = patch.drive.records.length := by
      apply len_to_u32_toNat
      rw [hrecords, List.length_append] at hroom
      omega
    refine ⟨fun entry hentry => ?_, fun c rec hrec => ?_⟩
    · rw [hrecords, List.length_append, List.length_singleton]
      rw [hpath, List.mem_append, List.mem_singleton] at hentry
      rcases hentry with hold | rfl
      · exact Nat.lt_succ_of_lt (h.inRange entry hold)
      · exact Nat.lt_succ_of_le (Nat.le_of_eq hslot)
    · obtain ⟨rec', hrec', hlen⟩ := h.kept c rec hrec
      rw [hrecords, List.getElem?_append_left (List.getElem?_eq_some_iff.mp hrec').1]
      refine ⟨rec', hrec', hlen.imp_right fun ⟨entry, hentry, hidx⟩ => ⟨entry, ?_, hidx⟩⟩
      rw [hpath]
      exact List.mem_append_left _ hentry
  | rewritten old new subtree _ _ hget _ _ hcreate hrename hrecords _ hpath _ =>
    refine ⟨fun entry hentry => ?_, fun c rec hrec => ?_⟩
    · rw [hrecords, List.length_set]
      rw [hpath, List.mem_append, List.mem_singleton] at hentry
      rcases hentry with hold | rfl
      · exact h.inRange entry hold
      · exact (List.getElem?_eq_some_iff.mp hget).1
    · obtain ⟨rec', hrec', hlen⟩ := h.kept c rec hrec
      have hmono : (rec'.path_len = rec.path_len ∨
          ∃ entry ∈ patch.path_changes, entry.idx.toNat = c ∧ entry.subtree = false) →
          rec'.path_len = rec.path_len ∨ ∃ entry ∈ after.path_changes, entry.idx.toNat = c ∧ entry.subtree = false := by
        rw [hpath]
        exact fun hor => hor.imp_right fun ⟨entry, hentry, hidx⟩ => ⟨entry, List.mem_append_left _ hentry, hidx⟩
      rw [hrecords, List.getElem?_set]
      by_cases hc : (slot_of patch.drive change.frs).toNat = c
      · subst hc
        cases hget.symm.trans hrec'
        rw [if_pos rfl, if_pos (List.getElem?_eq_some_iff.mp hget).1]
        refine ⟨new, rfl, ?_⟩
        cases hcreated : change.created with
        | true =>
          right
          refine ⟨{ idx := slot_of patch.drive change.frs, subtree := subtree }, ?_, rfl, (hcreate hcreated).1⟩
          rw [hpath]
          exact List.mem_append_right _ List.mem_cons_self
        | false =>
          rw [(hrename hcreated).2]
          exact hmono hlen
      · rw [if_neg hc]
        exact ⟨rec', hrec', hmono hlen⟩

variable {env : Env} {drive : DriveCompactIndex}

theorem run_changes_lengths {ordered : List FileChange}
    (hroom : (run_changes env drive ordered).drive.records.length < UInt32.size) :
    Lengths drive (run_changes env drive ordered) :=
  run_changes_induction hroom (Lengths.start drive) fun _ change h _ hspace => h.step change hspace

/-- The condition on a batch: after it the live rows are a forest again, and every entry of the
change set is covered in the state that its turn meets. -/
structure Tidy (env : Env) (drive : DriveCompactIndex) (changes : List FileChange) : Prop where
  forest : Forest (overlaid env drive changes).names (overlaid env drive changes).records
  covered : (mutated env drive changes).path_changes.length ≤ FULL_PATH_RECOMPUTE_THRESHOLD →
    ∀ before change after, (mutated env drive changes).path_changes = before ++ change :: after →
      Covered (overlaid env drive changes).names (overlaid env drive changes).records
        (update_path_lengths_incremental (overlaid env drive changes).records (overlaid env drive changes).names
          (overlaid env drive changes).children (overlaid env drive changes).delta before) change after

/-- States of a run all of whose batches meet the condition. -/
inductive TidyRun (env : Env) (start : DriveCompactIndex) : DriveCompactIndex → Prop where
  | start (hroomy : Roomy start) : TidyRun env start start
  | patch {drive : DriveCompactIndex} (h : TidyRun env start drive) {changes : List FileChange}
      (htidy : Tidy env drive changes) (hroomy : Roomy (apply_usn_patch env drive changes).1) :
      TidyRun env start (apply_usn_patch env drive changes).1
  | compact {drive : DriveCompactIndex} (h : TidyRun env start drive) : TidyRun env start drive.compact_base
  | fold_save {drive : DriveCompactIndex} (h : TidyRun env start drive) : TidyRun env start drive.fold_delta_for_save

/-- Every live row stores what a recomputation from scratch would store. -/
def PathLensRight (drive : DriveCompactIndex) : Prop :=
  ∀ (idx : UInt32) rec, drive.records[idx.toNat]? = some rec → rec.Live →
    (compute_path_lengths drive.records drive.names)[idx.toNat]?.map CompactRecord.path_len = some rec.path_len

/-- The invariant of a tidy run. -/
structure ExactLens (drive : DriveCompactIndex) : Prop where
  forest : Forest drive.names drive.records
  exact_rows : ∀ (idx : UInt32) rec, drive.records[idx.toNat]? = some rec → rec.Live →
    Exact drive.names drive.records idx

theorem ExactLens.right (h : ExactLens drive) (hroomy : Roomy drive) : PathLensRight drive := by
  intro idx rec hget hlive
  have hcore := sameCore_compute_path_lengths drive.records drive.names
  obtain ⟨len, hlen⟩ := @Rooted.hasLen drive.names _ idx (h.forest.rooted idx rec hget hlive)
  have hhere := h.forest.len_at_eq (SameCore.refl _) h.exact_rows hlen hget hlive
  have hthere := h.forest.len_at_eq hcore
    (fun idx rec hget hlive => h.forest.compute_exact (Nat.le_of_lt hroomy.lt_size) hget hlive) hlen hget hlive
  obtain ⟨row, hrow, -⟩ := SameCore.exists_core hcore.symm hget
  rw [len_at_of_get hget] at hhere
  rw [len_at_of_get hrow] at hthere
  rw [hrow, Option.map_some, UInt16.toNat_inj.mp (hthere.trans hhere.symm)]

theorem TidyRun.reachable {start drive : DriveCompactIndex} (h : TidyRun env start drive) :
    Reachable env start Roomy drive := by
  induction h with
  | start hroomy => exact Reachable.start hroomy
  | patch _ _ hroomy ih => exact ih.step (Step.patch _) hroomy
  | compact _ ih => exact ih.step Step.compact (roomy_compact_base ih.ok)
  | @fold_save drive _ ih =>
    refine ih.step Step.fold_save ?_
    cases fold_delta_for_save_eq drive with
    | inl heq => rw [heq]; exact ih.ok
    | inr heq => rw [heq]; exact ih.ok

theorem rebuild_derived_columns {drive after : DriveCompactIndex} {path_changes : List PathChange} {tombstones : List UInt32}
    (hafter : (drive.apply_index_delta path_changes tombstones).1 = after) :
    (rebuild_derived drive path_changes tombstones).names = after.names ∧
      (rebuild_derived drive path_changes tombstones).records =
        if path_changes.length > FULL_PATH_RECOMPUTE_THRESHOLD then compute_path_lengths after.records after.names
        else update_path_lengths_incremental after.records after.names after.children after.delta path_changes := by
  unfold rebuild_derived
  rw [hafter]
  split
  · exact ⟨rfl, rfl⟩
  · exact ⟨rfl, rfl⟩

section

variable (env) (drive) (changes : List FileChange)

theorem apply_usn_patch_columns :
    (apply_usn_patch env drive changes).1.names = (overlaid env drive changes).names ∧
      (apply_usn_patch env drive changes).1.records =
        if (mutated env drive changes).path_changes.length > FULL_PATH_RECOMPUTE_THRESHOLD then
          compute_path_lengths (overlaid env drive changes).records (overlaid env drive changes).names
        else update_path_lengths_incremental (overlaid env drive changes).records (overlaid env drive changes).names
          (overlaid env drive changes).children (overlaid env drive changes).delta
          (mutated env drive changes).path_changes := by
  have hcolumns := @rebuild_derived_columns (mutated env drive changes).drive (overlaid env drive changes)
    (mutated env drive changes).path_changes (mutated env drive changes).tombstones rfl
  simpa only [apply_usn_patch, mutated] using hcolumns

theorem overlaid_names : (overlaid env drive changes).names = (mutated env drive changes).drive.names := by
  rw [← (apply_usn_patch_columns env drive changes).1, (apply_usn_patch_rebuilt env drive changes).names]

end

variable {changes : List FileChange}

/-- The child entries after a batch, as the refresh uses them. -/
theorem listed_overlaid {base : List CompactRecord} {base_names : List UInt8}
    (hinv : OverlayInv (apply_usn_patch env drive changes).1 base base_names)
    (hroomy : Roomy (apply_usn_patch env drive changes).1) :
    Listed (overlaid env drive changes).records (overlaid env drive changes).children (overlaid env drive changes).delta := by
  have hcore : SameCore (overlaid env drive changes).records (apply_usn_patch env drive changes).1.records := by
    rw [overlaid_records]
    exact (apply_usn_patch_rebuilt env drive changes).core
  have hlt : ∀ p : UInt32, p.toNat < (overlaid env drive changes).records.length → p ≠ NO_ENTRY := by
    intro p hp heq
    rw [heq, ← hcore.length_eq] at hp
    exact absurd hroomy (Nat.not_lt.mpr (Nat.le_of_lt hp))
  refine ⟨fun p _ => ?_, fun p hp c hc => ?_, fun c p rec hget hlive hparent hp => ?_⟩
  · rw [push_children_overlaid]
    exact (children_of_ascending hinv hroomy p).nodup
  · rw [push_children_overlaid] at hc
    obtain ⟨rec, hget, hparent, -⟩ := children_of_sound hinv hroomy hc
    rw [← parent_of_core hcore]
    exact parent_of_eq_some.mpr ⟨rec, hget, hparent ▸ hlt p hp, hparent⟩
  · rw [push_children_overlaid]
    obtain ⟨row, hrow, hrec⟩ := SameCore.exists_core hcore.symm hget
    obtain ⟨rec', hget', -, hidx⟩ := parent_of_eq_some.mp hparent
    cases hget.symm.trans hget'
    have hrowParent : row.parent_idx = p := (parent_idx_of_core hrec).trans hidx
    rw [← hrowParent]
    refine mem_children_of hinv hroomy hrow ((live_of_core hrec).mpr hlive) ?_
    rw [hrowParent, hcore.length_eq]
    exact hp

/-- A row that a batch leaves alone is as exact as it was, unless its parent is created over. -/
theorem exact_of_untouched (h : ExactLens drive) (hfits : ∀ rec ∈ drive.records, RowFits drive.names rec)
    (hroom : (mutated env drive changes).drive.records.length < UInt32.size)
    (hchildren : ∀ before (change : PathChange) after, (mutated env drive changes).path_changes = before ++ change :: after →
      change.subtree = false → ∀ (idx : UInt32) rec, (mutated env drive changes).drive.records[idx.toNat]? = some rec →
        rec.Live → rec.parent_idx = change.idx → ∃ later ∈ after, later.idx = idx)
    {idx : UInt32} {rec : CompactRecord} (hget : (mutated env drive changes).drive.records[idx.toNat]? = some rec)
    (hlive : rec.Live) (hnone : ∀ change ∈ (mutated env drive changes).path_changes, change.idx ≠ idx) :
    Exact (mutated env drive changes).drive.names (mutated env drive changes).drive.records idx := by
  have hloop : Loop drive (mutated env drive changes) := run_changes_loop hroom
  have hlengths : Lengths drive (mutated env drive changes) := run_changes_lengths hroom
  generalize mutated env drive changes = patch at *
  have hnotAdds : ¬ patch.Adds idx.toNat := by
    rintro ⟨change, hmem, hidx⟩
    exact hnone change hmem (UInt32.toNat_inj.mp hidx)
  have hold : drive.records[idx.toNat]? = some rec := by
    rcases hloop.slot idx.toNat rec hget with hsame | hdead | hadded
    · exact hsame.1
    · exact absurd hlive hdead.1
    · exact absurd hadded.2.2 hnotAdds
  obtain ⟨rec', hrec', hlen⟩ := h.exact_rows idx rec hold hlive
  cases hold.symm.trans hrec'
  refine ⟨rec, hget, ?_⟩
  obtain ⟨tail, hnames⟩ := hloop.names
  have hrange := hfits rec (List.mem_of_getElem? hold) hlive
  have hchars : name_char_count rec patch.drive.names = name_char_count rec drive.names := by
    rw [name_char_count, name_char_count, hnames, CompactRecord.name_range_append hrange]
  rw [len_at_of_get hget, ← len_at_of_get hold, hlen, due_len, due_len, root_path_len, root_path_len, hchars]
  split
  · rfl
  next hne =>
    -- The parent stores what it stored, or it is created over and this row has an entry.
    have hparent : len_at patch.drive.records rec.parent_idx = len_at drive.records rec.parent_idx := by
      obtain ⟨up, hup, -⟩ := h.forest.live_parent idx rec rec.parent_idx hold hlive
        (parent_of_eq_some.mpr ⟨rec, hold, hne, rfl⟩)
      obtain ⟨up', hup', hkept⟩ := hlengths.kept _ up hup
      rcases hkept with hkept | ⟨change, hmem, hidx, halone⟩
      · rw [len_at_of_get hup', len_at_of_get hup, hkept]
      · obtain ⟨before, after, hsplit⟩ := List.append_of_mem hmem
        obtain ⟨later, hlater, hlaterIdx⟩ := hchildren before change after hsplit halone idx rec hget hlive
          (UInt32.toNat_inj.mp hidx).symm
        refine absurd hlaterIdx (hnone later ?_)
        rw [hsplit]
        exact List.mem_append_right _ (List.mem_cons_of_mem _ hlater)
    rw [hparent]

/-- A batch that meets the condition keeps the lengths exact. -/
theorem ExactLens.patch {env : Env} {drive : DriveCompactIndex} (h : ExactLens drive)
    (hfits : ∀ rec ∈ drive.records, RowFits drive.names rec) (htidy : Tidy env drive changes)
    (hroomy : Roomy (apply_usn_patch env drive changes).1) {base : List CompactRecord} {base_names : List UInt8}
    (hinv : OverlayInv (apply_usn_patch env drive changes).1 base base_names) :
    ExactLens (apply_usn_patch env drive changes).1 := by
  obtain ⟨hnames, hrecords⟩ := apply_usn_patch_columns env drive changes
  have hcore : SameCore (overlaid env drive changes).records (apply_usn_patch env drive changes).1.records := by
    rw [overlaid_records]
    exact (apply_usn_patch_rebuilt env drive changes).core
  have hlength := hroomy.lt_size
  rw [hcore.length_eq] at hlength
  refine ⟨?_, fun idx rec hget hlive => ?_⟩
  · rw [hnames]
    exact htidy.forest.of_core hcore
  · obtain ⟨row, hrow, hrec⟩ := SameCore.exists_core hcore hget
    have hrowLive := (live_of_core hrec).mpr hlive
    rw [hnames, hrecords]
    split
    · exact htidy.forest.compute_exact (Nat.le_of_lt hlength) hrow hrowLive
    next hsmall =>
      have hcovered := htidy.covered (Nat.not_lt.mp hsmall)
      have hroom : (mutated env drive changes).drive.records.length < UInt32.size := by
        rw [← overlaid_records]
        exact hlength
      have hloop : Loop drive (mutated env drive changes) := run_changes_loop hroom
      have hlengths : Lengths drive (mutated env drive changes) := run_changes_lengths hroom
      refine update_exact htidy.forest (listed_overlaid hinv hroomy) (fun change hmem => ?_) (SameCore.refl _) hcovered
        (fun other otherRow hother hotherLive hnone => ?_) hrow hrowLive
      · rw [overlaid_records]
        have hslot := List.getElem?_eq_getElem (hlengths.inRange change hmem)
        refine ⟨_, hslot, ?_⟩
        rcases hloop.slot _ _ hslot with hsame | hdead | hadded
        · exact absurd ⟨change, hmem, rfl⟩ hsame.2.1
        · exact Or.inr hdead.2
        · exact Or.inl hadded.1
      · rw [overlaid_records] at hother ⊢
        rw [overlaid_names]
        refine exact_of_untouched h hfits hroom (fun before change after hsplit halone idx rec hget hlive hparent => ?_)
          hother hotherLive hnone
        rw [← overlaid_records] at hget
        exact (hcovered before change after hsplit).children halone idx rec hget hlive hparent

/-- A fresh index whose live rows are a forest has exact lengths. -/
theorem exactLens_build {letter : Char} {fold : CaseFold} {index : MftIndex}
    (hforest : Forest (build_compact_index env letter fold index).names (build_compact_index env letter fold index).records)
    (hroomy : Roomy (build_compact_index env letter fold index)) : ExactLens (build_compact_index env letter fold index) := by
  obtain ⟨hcore, hnames, -⟩ := build_compact_index_columns env letter fold index
  refine ⟨hforest, fun idx rec hget hlive => ?_⟩
  have hrows : Forest (expanded_rows index).1 (expanded_rows index).2 := by
    rw [← hnames]
    exact hforest.of_core hcore.symm
  obtain ⟨row, hrow, hrec⟩ := SameCore.exists_core hcore hget
  have hsize := hroomy.lt_size
  rw [hcore.length_eq] at hsize
  have hexact := hrows.compute_exact (Nat.le_of_lt hsize) hrow ((live_of_core hrec).mpr hlive)
  exact hexact

/-- The lengths are exact in every state of a tidy run. -/
theorem TidyRun.exactLens {letter : Char} {fold : CaseFold} {index : MftIndex}
    (hrun : TidyRun env (build_compact_index env letter fold index) drive) (hwf : WellFormed index)
    (hforest : Forest (build_compact_index env letter fold index).names (build_compact_index env letter fold index).records) :
    ExactLens drive := by
  induction hrun with
  | start hroomy => exact exactLens_build hforest hroomy
  | @patch drive hrun changes htidy hroomy ih =>
    have hreach := hrun.reachable
    obtain ⟨-, base, base_names, hinv⟩ := hreach.overlayInv hwf fun _ h => h
    obtain ⟨-, base', base_names', hinv'⟩ := (hreach.step (Step.patch changes) hroomy).overlayInv hwf fun _ h => h
    exact ih.patch hinv.1.fits htidy hroomy hinv'
  | compact _ ih => exact ⟨ih.forest, ih.exact_rows⟩
  | @fold_save drive _ ih =>
    cases fold_delta_for_save_eq drive with
    | inl heq => rw [heq]; exact ih
    | inr heq => rw [heq]; exact ⟨ih.forest, ih.exact_rows⟩

/-- In every run whose batches all meet the condition, in every state it reaches, the stored path
lengths of the live rows are those of a recomputation from scratch. -/
theorem path_lens_right_of_tidy_run {env : Env} {letter : Char} {fold : CaseFold} {index : MftIndex}
    (hwf : WellFormed index)
    (hforest : Forest (build_compact_index env letter fold index).names (build_compact_index env letter fold index).records)
    {drive : DriveCompactIndex} (hrun : TidyRun env (build_compact_index env letter fold index) drive) :
    PathLensRight drive :=
  (hrun.exactLens hwf hforest).right hrun.reachable.ok

/-- Rows with short names, each a root or below an earlier row, are a forest. -/
theorem forest_of_rows {names : List UInt8} {records : List CompactRecord} (hfew : records.length < 2 ^ 12)
    (hrows : ∀ i : Fin records.length, records[i].name_len ≠ 0 ∧ name_char_count records[i] names ≤ 8 ∧
      (records[i].parent_idx = NO_ENTRY ∨ records[i].parent_idx.toNat < i)) : Forest names records := by
  have hrow : ∀ (idx : UInt32) rec, records[idx.toNat]? = some rec → idx.toNat < records.length ∧ rec.Live ∧
      name_char_count rec names ≤ 8 ∧ (rec.parent_idx ≠ NO_ENTRY → rec.parent_idx.toNat < idx.toNat) := by
    intro idx rec hget
    obtain ⟨hlt, rfl⟩ := List.getElem?_eq_some_iff.mp hget
    obtain ⟨hlive, hshort, hup⟩ := hrows ⟨idx.toNat, hlt⟩
    exact ⟨hlt, hlive, hshort, hup.resolve_left⟩
  have habove : ∀ (idx : UInt32) rec, records[idx.toNat]? = some rec → rec.parent_idx ≠ NO_ENTRY →
      ∃ row, records[rec.parent_idx.toNat]? = some row := by
    intro idx rec hget hne
    obtain ⟨hlt, -, -, hup⟩ := hrow idx rec hget
    exact ⟨_, List.getElem?_eq_getElem ((hup hne).trans hlt)⟩
  refine ⟨fun idx rec hget _ => ?_, fun idx rec parent hget _ hup => ?_, fun idx rec len hget _ hlen => ?_⟩
  · -- a parent is an earlier row
    induction hn : idx.toNat using Nat.strong_induction_on generalizing idx rec with
    | _ n ih =>
      by_cases hroot : rec.parent_idx = NO_ENTRY
      · exact Rooted.root hget hroot
      · obtain ⟨row, hparent⟩ := habove idx rec hget hroot
        refine Rooted.child (parent_of_eq_some.mpr ⟨rec, hget, hroot, rfl⟩) (ih _ ?_ _ row hparent (hrow _ _ hparent).2.1 rfl)
        exact hn ▸ (hrow idx rec hget).2.2.2 hroot
  · obtain ⟨rec', hget', hne, rfl⟩ := parent_of_eq_some.mp hup
    obtain ⟨row, hparent⟩ := habove idx rec' hget' hne
    exact ⟨row, hparent, (hrow _ row hparent).2.1⟩
  · have hbound : len ≤ 16 * (idx.toNat + 1) := by
      clear hget
      induction hlen with
      | root hget _ =>
        obtain ⟨-, -, hshort, -⟩ := hrow _ _ hget
        rw [root_path_len]
        split <;> simp only [DRIVE_PREFIX_CHARS] <;> omega
      | child hget hne _ ih =>
        obtain ⟨-, -, hshort, hup⟩ := hrow _ _ hget
        have := hup hne
        omega
    have hlt := (hrow idx rec hget).1
    have hsize : UInt16.size = 65536 := rfl
    omega

/-- The directory `a` is renamed, above its child `b`. -/
def rename_dir : FileChange where
  frs := 16
  parent_frs := 5
  filename := ['a', 'a']
  renamed := true

theorem tidy_rename_dir : Tidy sample_env (build_compact_index sample_env 'C' ⟨[]⟩ dirs_mft) [rename_dir] := by
  have hchanges : (mutated sample_env (build_compact_index sample_env 'C' ⟨[]⟩ dirs_mft) [rename_dir]).path_changes =
      [{ idx := 0, subtree := true }] := by decide
  refine ⟨forest_of_rows (by decide) (by decide), fun _ before change after hsplit => ?_⟩
  rw [hchanges] at hsplit
  obtain ⟨rfl, hrest⟩ | ⟨rest, rfl, hnil⟩ := List.cons_eq_append_iff.mp hsplit
  · cases hrest
    have hlens : ∀ rec ∈ (overlaid sample_env (build_compact_index sample_env 'C' ⟨[]⟩ dirs_mft) [rename_dir]).records,
        rec.path_len.toNat ≤ 6 := by decide
    refine ⟨nofun, by decide, fun _ idx rec hget _ _ _ => ?_⟩
    have hlen := hlens rec (List.mem_of_getElem? hget)
    have hsize : UInt16.size = 65536 := rfl
    have hnew : path_len_from_parent (overlaid sample_env (build_compact_index sample_env 'C' ⟨[]⟩ dirs_mft) [rename_dir]).records
        (overlaid sample_env (build_compact_index sample_env 'C' ⟨[]⟩ dirs_mft) [rename_dir]).names 0 = 5 := by decide
    have hold : len_at (overlaid sample_env (build_compact_index sample_env 'C' ⟨[]⟩ dirs_mft) [rename_dir]).records 0 = 4 := by decide
    rw [update_path_lengths_incremental, List.foldl_nil] at hget ⊢
    dsimp only
    rw [len_at_of_get hget, hnew, hold]
    omega
  · cases (List.append_eq_nil_iff.mp hnil.symm).2

theorem roomy_rename_dir : Roomy (apply_usn_patch sample_env (build_compact_index sample_env 'C' ⟨[]⟩ dirs_mft) [rename_dir]).1 := by
  rw [Roomy]
  decide

theorem dirs_mft_forest : Forest (build_compact_index sample_env 'C' ⟨[]⟩ dirs_mft).names
    (build_compact_index sample_env 'C' ⟨[]⟩ dirs_mft).records := forest_of_rows (by decide) (by decide)

/-- The child of the renamed directory is moved with it. -/
theorem path_lens_right_of_tidy_run_rename_dir :
    WellFormed dirs_mft ∧ Tidy sample_env (build_compact_index sample_env 'C' ⟨[]⟩ dirs_mft) [rename_dir] ∧
      PathLensRight (apply_usn_patch sample_env (build_compact_index sample_env 'C' ⟨[]⟩ dirs_mft) [rename_dir]).1 := by
  have hroomy := @roomy_build dirs_mft (by decide) sample_env 'C' ⟨[]⟩
  exact ⟨dirs_mft_wellFormed, tidy_rename_dir, path_lens_right_of_tidy_run dirs_mft_wellFormed dirs_mft_forest
    (TidyRun.patch (TidyRun.start hroomy) tidy_rename_dir roomy_rename_dir)⟩

/-- A directory `cc` created over the record number of the directory `a`. -/
def create_over : FileChange where
  frs := 16
  parent_frs := 5
  filename := ['c', 'c']
  created := true

/-- Created over a directory with a child: the child keeps the length of its old path. -/
theorem path_lens_wrong_after_create_over :
    WellFormed dirs_mft ∧
      Forest (build_compact_index sample_env 'C' ⟨[]⟩ dirs_mft).names (build_compact_index sample_env 'C' ⟨[]⟩ dirs_mft).records ∧
      Forest (apply_usn_patch sample_env (build_compact_index sample_env 'C' ⟨[]⟩ dirs_mft) [create_over]).1.names
        (apply_usn_patch sample_env (build_compact_index sample_env 'C' ⟨[]⟩ dirs_mft) [create_over]).1.records ∧
      ¬ PathLensRight (apply_usn_patch sample_env (build_compact_index sample_env 'C' ⟨[]⟩ dirs_mft) [create_over]).1 := by
  refine ⟨dirs_mft_wellFormed, dirs_mft_forest, ?_⟩
  -- From scratch the child's path is one character longer than what it stores.
  have hstored : (apply_usn_patch sample_env (build_compact_index sample_env 'C' ⟨[]⟩ dirs_mft) [create_over]).1.records[1]?.map
      (fun rec => (rec.name_len, rec.path_len)) = some (1, 6) := by decide
  have hscratch : (compute_path_lengths (apply_usn_patch sample_env (build_compact_index sample_env 'C' ⟨[]⟩ dirs_mft) [create_over]).1.records
      (apply_usn_patch sample_env (build_compact_index sample_env 'C' ⟨[]⟩ dirs_mft) [create_over]).1.names)[1]?.map CompactRecord.path_len =
      some 7 := by decide
  refine ⟨forest_of_rows (by decide) (by decide), fun hright => ?_⟩
  obtain ⟨b, hget, hb⟩ := Option.map_eq_some_iff.mp hstored
  rw [Prod.mk.injEq] at hb
  have hlen := hright 1 b hget (by rw [CompactRecord.Live, hb.1]; decide)
  rw [hb.2] at hlen
  exact absurd (hscratch.symm.trans hlen) (by decide)

end uffs.usn
