import Uffs.Usn.FrsMap

open uffs.mft uffs.text uffs.bloom uffs.compact

namespace uffs.usn

/-- No live row carries the record number. -/
def Gone (records : List CompactRecord) (frs : UInt64) : Prop := ∀ row ∈ records, row.Live → row.frs ≠ frs

/-- The slot the record number was mapped to has lost its name. -/
def DeadAt (start : DriveCompactIndex) (frs : UInt64) (patch : Patch) : Prop :=
  slot_of start frs ≠ NO_ENTRY → ∀ row, patch.drive.records[(slot_of start frs).toNat]? = some row → ¬ row.Live

/-- A loop of deletes: rows only lose their names, rows that nothing maps to stay as they were, and
a record number keeps its slot or has left it dead. -/
structure Deleting (start : DriveCompactIndex) (patch : Patch) : Prop where
  live : ∀ (c : Nat) (row : CompactRecord), patch.drive.records[c]? = some row → row.Live → start.records[c]? = some row
  unmapped : ∀ (c : Nat) (row : CompactRecord), start.records[c]? = some row →
    (∀ f, slot_of start f ≠ NO_ENTRY → (slot_of start f).toNat ≠ c) → patch.drive.records[c]? = some row
  map : ∀ f, slot_of patch.drive f = slot_of start f ∨ (slot_of patch.drive f = NO_ENTRY ∧ DeadAt start f patch)

theorem Deleting.start (drive : DriveCompactIndex) : Deleting drive { drive := drive } :=
  ⟨fun _ _ hget _ => hget, fun _ _ hget _ => hget, fun _ => Or.inl rfl⟩

/-- Clearing a slot revives none. -/
theorem DeadAt.set {start : DriveCompactIndex} {frs : UInt64} {before after : Patch} (h : DeadAt start frs before)
    {slot : Nat} {dead : CompactRecord} (hdead : ¬ dead.Live)
    (hrecords : after.drive.records = before.drive.records.set slot dead) : DeadAt start frs after := by
  intro hmapped row hget
  rw [hrecords, List.getElem?_set] at hget
  split at hget
  · split at hget
    · exact Option.some.inj hget ▸ hdead
    · cases hget
  · exact h hmapped row hget

/-- One delete of a loop of deletes. -/
theorem Deleting.step {start : DriveCompactIndex} {before after : Patch} {change : FileChange}
    (h : Deleting start before) (heffect : Effect change before after) (hdeleted : change.deleted = true) :
    Deleting start after ∧ DeadAt start change.frs after ∧ ∀ f, DeadAt start f before → DeadAt start f after := by
  cases heffect with
  | idle hrecords hmap _ _ hskipped =>
    have hdead : ∀ f, DeadAt start f before → DeadAt start f after := fun f hf hmapped row hget =>
      hf hmapped row (hrecords ▸ hget)
    refine ⟨⟨?_, ?_, fun f => ?_⟩, ?_, hdead⟩
    · rw [hrecords]
      exact h.live
    · rw [hrecords]
      exact h.unmapped
    · rw [slot_of_of_map hmap]
      cases h.map f with
      | inl hsame => exact Or.inl hsame
      | inr hcut => exact Or.inr ⟨hcut.1, hdead f hcut.2⟩
    · cases h.map change.frs with
      | inl hsame =>
        intro hmapped row hget
        rw [hrecords, ← hsame] at hget
        exact absurd (hsame.symm.trans (hskipped hdeleted row hget)) hmapped
      | inr hcut => exact hdead _ hcut.2
  | deleted rec _ hslot hget hrecords hmap =>
    have hnameless : ¬ ({ rec with name_len := 0, parent_idx := NO_ENTRY } : CompactRecord).Live := fun hlive =>
      hlive rfl
    have hdead : ∀ f, DeadAt start f before → DeadAt start f after := fun f hf => hf.set hnameless hrecords
    have hsame : slot_of before.drive change.frs = slot_of start change.frs := by
      cases h.map change.frs with
      | inl hsame => exact hsame
      | inr hcut => exact absurd hcut.1 hslot
    have hcleared : DeadAt start change.frs after := by
      intro _ row hrow
      rw [hrecords, hsame, List.getElem?_set_self (hsame ▸ (List.getElem?_eq_some_iff.mp hget).1)] at hrow
      exact Option.some.inj hrow ▸ hnameless
    refine ⟨⟨fun c row hrow hlive => ?_, fun c row hrow hfree => ?_, fun f => ?_⟩, hcleared, hdead⟩
    · rw [hrecords, List.getElem?_set] at hrow
      split at hrow
      · split at hrow
        · exact absurd hlive (Option.some.inj hrow ▸ hnameless)
        · cases hrow
      · exact h.live c row hrow hlive
    · rw [hrecords, hsame, List.getElem?_set_ne (hfree change.frs (hsame ▸ hslot))]
      exact h.unmapped c row hrow hfree
    · rw [slot_of_unmap hmap]
      split
      next heq => exact Or.inr ⟨rfl, heq ▸ hcleared⟩
      next =>
        cases h.map f with
        | inl hkept => exact Or.inl hkept
        | inr hcut => exact Or.inr ⟨hcut.1, hdead f hcut.2⟩
  | appended _ hkind => rw [hdeleted] at hkind; cases hkind
  | rewritten _ _ _ hkind => rw [hdeleted] at hkind; cases hkind

/-- A whole batch of deletes clears the slot of every record number it names. -/
theorem deleting_foldl {env : Env} {start : DriveCompactIndex} {changes : List FileChange} {patch : Patch}
    (h : Deleting start patch) (hdeleted : ∀ change ∈ changes, change.deleted = true) :
    Deleting start (changes.foldl (apply_change env) patch) ∧
      (∀ f, DeadAt start f patch → DeadAt start f (changes.foldl (apply_change env) patch)) ∧
      ∀ change ∈ changes, DeadAt start change.frs (changes.foldl (apply_change env) patch) := by
  induction changes generalizing patch with
  | nil => exact ⟨h, fun _ hf => hf, fun change hmem => absurd hmem List.not_mem_nil⟩
  | cons change changes ih =>
    obtain ⟨hstep, hcleared, hdead⟩ :=
      h.step (apply_change_effect env patch change) (hdeleted change List.mem_cons_self)
    obtain ⟨hrun, hkeep, hrest⟩ := ih hstep fun ch hch => hdeleted ch (List.mem_cons_of_mem _ hch)
    refine ⟨hrun, fun f hf => hkeep f (hdead f hf), fun ch hch => ?_⟩
    cases List.mem_cons.mp hch with
    | inl heq => exact heq ▸ hkeep _ hcleared
    | inr hmem => exact hrest ch hmem

/-- Every row of the record is its primary one, and the record map knows it: no counted further
name, no stream shown under one of its names. -/
def SingleRow (index : MftIndex) (frs : UInt64) : Prop :=
  ∀ idx record, index.records[idx]? = some record →
    PathResolver.is_valid_idx (PathResolver.build index) idx = true → record.frs = frs →
    (record.first_name.name.length ≠ 0 → index.frs_to_idx_opt frs = some idx) ∧
    (∀ link ∈ extra_links index record, link.name.length = 0) ∧
    (row_streams index record = [] ∨ stream_owners index record = [])

variable {index : MftIndex} {fold : CaseFold}

theorem frs_name_row (hwf : WellFormed index) {idx : Nat} {record : FileRecord} (hget : index.records[idx]? = some record)
    (names : List UInt8) (link : LinkInfo) : (name_row index names record link).frs = record.frs :=
  frs_pack_file_reference _ (hwf.frs_lt record (List.mem_of_getElem? hget))

theorem frs_stream_row (hwf : WellFormed index) {idx : Nat} {record : FileRecord} (hget : index.records[idx]? = some record)
    (stream : IndexStreamInfo) (names : List UInt8) (combined : Str) (parent_idx : UInt32) :
    (stream_row record stream names combined parent_idx).frs = record.frs :=
  frs_pack_file_reference _ (hwf.frs_lt record (List.mem_of_getElem? hget))

/-- Only the record number of a record maps to its slot, and nothing maps behind the primary rows. -/
theorem slot_of_build_eq {env : Env} {letter : Char} (hwf : WellFormed index) {f : UInt64}
    (hf : slot_of (build_compact_index env letter fold index) f ≠ NO_ENTRY) :
    ∃ record, index.records[(slot_of (build_compact_index env letter fold index) f).toNat]? = some record ∧
      record.frs = f ∧
      index.frs_to_idx_opt f = some (slot_of (build_compact_index env letter fold index) f).toNat := by
  rw [slot_of_build] at hf ⊢
  unfold MftIndex.frs_to_idx_opt
  cases hget : index.frs_to_idx[frs_to_usize f]? with
  | none =>
    rw [hget] at hf
    exact absurd rfl hf
  | some idx =>
    rw [hget, Option.getD_some] at hf
    obtain ⟨record, hrecord, hfrs⟩ := hwf.mapped _ idx hget hf
    exact ⟨record, hrecord, UInt64.toNat.inj hfrs, if_neg hf⟩

/-- Rows of the fresh index behind the primary ones survive every batch of deletes. -/
theorem Deleting.extra_row_mem {env : Env} {letter : Char} {patch : Patch} (hwf : WellFormed index)
    (h : Deleting (build_compact_index env letter fold index) patch) {row : CompactRecord}
    (hrow : row ∈ (expand_links_and_ads index (PathResolver.build index)).2) :
    ∃ row' ∈ patch.drive.records, row.core = row'.core := by
  obtain ⟨j, hj⟩ := List.getElem?_of_mem hrow
  obtain ⟨hcore, -, -⟩ := build_compact_index_columns env letter fold index
  have hslot : (expanded_rows index).2[index.records.length + j]? = some row := by
    unfold expanded_rows primary_rows
    rw [List.getElem?_append_right (by simp), List.length_map, List.length_zipIdx, Nat.add_sub_cancel_left]
    exact hj
  obtain ⟨row', hrow', hcore'⟩ := SameCore.exists_core hcore.symm hslot
  refine ⟨row', List.mem_of_getElem? (h.unmapped _ row' hrow' fun f hf heq => ?_), hcore'.symm⟩
  obtain ⟨record, hrecord, -⟩ := slot_of_build_eq hwf hf
  have hlt := (List.getElem?_eq_some_iff.mp hrecord).1
  omega

theorem gone_of_core {records records' : List CompactRecord} (hcore : SameCore records records') {frs : UInt64}
    (h : Gone records frs) : Gone records' frs := by
  intro row hmem hlive
  obtain ⟨c, hget⟩ := List.getElem?_of_mem hmem
  obtain ⟨row0, hget0, hrow0⟩ := SameCore.exists_core hcore hget
  rw [CompactRecord.frs, ← file_ref_of_core hrow0]
  exact h row0 (List.mem_of_getElem? hget0) ((live_of_core hrow0).mpr hlive)

/-- What survives the delete: the rows of further names and streams, and an unmapped primary row. -/
theorem Deleting.singleRow {env : Env} {letter : Char} {patch : Patch} {f : UInt64} (hwf : WellFormed index)
    (h : Deleting (build_compact_index env letter fold index) patch) (hgone : Gone patch.drive.records f) :
    SingleRow index f := by
  intro idx record hget hvalid hfrs
  obtain ⟨hcore, -, -⟩ := build_compact_index_columns env letter fold index
  have hextra : ∀ row ∈ (expand_links_and_ads index (PathResolver.build index)).2, row.frs = f → ¬ row.Live := by
    intro row hrow hrowFrs hlive
    obtain ⟨row', hmem, hrow'⟩ := h.extra_row_mem hwf hrow
    refine hgone row' hmem ((live_of_core hrow').mp hlive) ?_
    rw [CompactRecord.frs, ← file_ref_of_core hrow']
    exact hrowFrs
  refine ⟨fun hnamed => ?_, fun link hlink => ?_, ?_⟩
  · by_contra hunmapped
    have hprimary := expanded_rows_primary hget
    rw [if_pos hvalid] at hprimary
    obtain ⟨row, hrow, hrowCore⟩ := SameCore.exists_core hcore.symm hprimary
    have hkept : patch.drive.records[idx]? = some row := by
      refine h.unmapped idx row hrow fun g hg heq => ?_
      obtain ⟨record', hrecord', hfrs', hmapped⟩ := slot_of_build_eq hwf hg
      rw [heq] at hrecord' hmapped
      rw [hget] at hrecord'
      obtain rfl := Option.some.inj hrecord'
      exact hunmapped (hfrs ▸ hfrs' ▸ hmapped)
    refine hgone row (List.mem_of_getElem? hkept) ((live_of_core hrowCore).mpr hnamed) ?_
    rw [CompactRecord.frs, file_ref_of_core hrowCore]
    exact (frs_name_row hwf hget index.names record.first_name).trans hfrs
  · obtain ⟨row, hrow, names, rfl⟩ := link_row_mem hget hvalid hlink
    have hdead := hextra _ hrow ((frs_name_row hwf hget names link).trans hfrs)
    simpa [CompactRecord.Live, name_row] using hdead
  · by_contra hboth
    obtain ⟨hstreams, howners⟩ := not_or.mp hboth
    obtain ⟨stream, hstream⟩ := List.exists_mem_of_ne_nil _ hstreams
    obtain ⟨owner, howner⟩ := List.exists_mem_of_ne_nil _ howners
    obtain ⟨row, hrow, names, rfl⟩ := stream_row_mem hget hvalid hstream howner
    exact hextra _ hrow ((frs_stream_row hwf hget stream names _ owner.2).trans hfrs)
      (stream_row_live record stream names index owner.1 owner.2)

/-- With a single row, clearing its slot removes the file. -/
theorem Deleting.gone {env : Env} {letter : Char} {patch : Patch} {f : UInt64} (hwf : WellFormed index)
    (h : Deleting (build_compact_index env letter fold index) patch)
    (hdead : DeadAt (build_compact_index env letter fold index) f patch) (hsingle : SingleRow index f) :
    Gone patch.drive.records f := by
  intro row hmem hlive hfrs
  obtain ⟨c, hget⟩ := List.getElem?_of_mem hmem
  obtain ⟨hcore, -, -⟩ := build_compact_index_columns env letter fold index
  obtain ⟨row0, hget0, hrow0⟩ := SameCore.exists_core hcore (h.live c row hget hlive)
  have hlive0 : row0.Live := (live_of_core hrow0).mpr hlive
  have hfrs0 : row0.frs = f := by
    rw [CompactRecord.frs, file_ref_of_core hrow0]
    exact hfrs
  by_cases hc : c < index.records.length
  · -- A primary row: its record number maps to it, and that slot is dead.
    obtain ⟨record, hrecord⟩ : ∃ record, index.records[c]? = some record := ⟨_, List.getElem?_eq_getElem hc⟩
    rw [expanded_rows_primary hrecord] at hget0
    by_cases hvalid : PathResolver.is_valid_idx (PathResolver.build index) c = true
    · rw [if_pos hvalid] at hget0
      obtain rfl := Option.some.inj hget0
      have hrecordFrs : record.frs = f := (frs_name_row hwf hrecord _ _).symm.trans hfrs0
      have hmapped := (hsingle c record hrecord hvalid hrecordFrs).1 hlive0
      obtain ⟨hslot, hslotNat⟩ : slot_of (build_compact_index env letter fold index) f ≠ NO_ENTRY ∧
          (slot_of (build_compact_index env letter fold index) f).toNat = c := by
        rw [slot_of_build]
        unfold MftIndex.frs_to_idx_opt at hmapped
        split at hmapped
        · cases hmapped
        next idx hidx =>
          rw [hidx, Option.getD_some]
          split at hmapped
          · cases hmapped
          next hne => exact ⟨hne, Option.some.inj hmapped⟩
      exact hdead hslot row (by rw [hslotNat]; exact hget) hlive
    · rw [if_neg hvalid] at hget0
      exact absurd rfl (Option.some.inj hget0 ▸ hlive0)
  · -- A row behind them: a further name or a stream, which the record does not have.
    have hextra : row0 ∈ (expand_links_and_ads index (PathResolver.build index)).2 := by
      unfold expanded_rows primary_rows at hget0
      rw [List.getElem?_append_right (by simpa using hc)] at hget0
      exact List.mem_of_getElem? hget0
    obtain ⟨idx, record, hrecord, hvalid, hrow⟩ := (expand_described index _).extra row0 hextra
    cases hrow with
    | link names link hlink heq =>
      subst heq
      have hrecordFrs : record.frs = f := (frs_name_row hwf hrecord _ _).symm.trans hfrs0
      exact hlive0 ((hsingle idx record hrecord hvalid hrecordFrs).2.1 link hlink)
    | stream names stream owner hstream howner heq =>
      subst heq
      have hrecordFrs : record.frs = f := (frs_stream_row hwf hrecord _ _ _ _).symm.trans hfrs0
      cases (hsingle idx record hrecord hvalid hrecordFrs).2.2 with
      | inl hnone => exact List.not_mem_nil (hnone ▸ hstream)
      | inr hnone => exact List.not_mem_nil (hnone ▸ howner)

/-- After a batch of deletes that names `f`, no live row of a fresh index carries `f` if and only
if its record has a single row: the map leads to the primary one, the others stay. -/
theorem delete_complete_iff_single_row (env : Env) (letter : Char) (fold : CaseFold) {index : MftIndex}
    (hwf : WellFormed index) {changes : List FileChange} (hdeleted : ∀ change ∈ changes, change.deleted = true)
    {f : UInt64} (hf : ∃ change ∈ changes, change.frs = f) :
    Gone (apply_usn_patch env (build_compact_index env letter fold index) changes).1.records f ↔
      SingleRow index f := by
  obtain ⟨change, hmem, rfl⟩ := hf
  have hperm := order_parent_first_perm changes
  obtain ⟨hdeleting, -, hdead⟩ :=
    @deleting_foldl env (build_compact_index env letter fold index) (order_parent_first changes) _
      (Deleting.start _) fun ch hch => hdeleted ch (hperm.mem_iff.mp hch)
  have hcore := (apply_usn_patch_rebuilt env (build_compact_index env letter fold index) changes).core
  constructor
  · intro hgone
    exact hdeleting.singleRow hwf (gone_of_core hcore.symm hgone)
  · intro hsingle
    exact gone_of_core hcore (hdeleting.gone hwf (hdead change (hperm.mem_iff.mpr hmem)) hsingle)

/-- Deleting a directory and the one it lies in. -/
theorem delete_complete_iff_single_row_dirs :
    WellFormed dirs_mft ∧
      (Gone (apply_usn_patch sample_env (build_compact_index sample_env 'C' ⟨[]⟩ dirs_mft)
        [{ frs := 17, parent_frs := 16, filename := ['b'], deleted := true },
          { frs := 16, parent_frs := 5, filename := ['a'], deleted := true }]).1.records 17 ↔ SingleRow dirs_mft 17) :=
  ⟨dirs_mft_wellFormed, delete_complete_iff_single_row sample_env 'C' ⟨[]⟩ dirs_mft_wellFormed
    (by simp) ⟨_, List.mem_cons_self, rfl⟩⟩

/-- A file with two names, `a` and `b`, both in the root directory. -/
def hard_link_mft : MftIndex where
  records := [
    { frs := 5, first_name := { name := { offset := 0, bits := 1 }, parent_frs := 5 } },
    { frs := 30, name_count := 2
      first_name := { next_entry := 0, name := { offset := 1, bits := 1 }, parent_frs := 5 } }]
  frs_to_idx := List.replicate 5 NO_ENTRY ++ 0 :: List.replicate 24 NO_ENTRY ++ [1]
  names := as_bytes ['.', 'a', 'b']
  links := [{ name := { offset := 2, bits := 1 }, parent_frs := 5 }]

theorem hard_link_mft_wellFormed : WellFormed hard_link_mft :=
  ⟨mapped_of_zipIdx (by decide), by decide, by decide, by decide⟩

/-- Deleting the file with two names leaves the row of the second one. -/
theorem delete_not_complete_hard_link :
    WellFormed hard_link_mft ∧
      ¬ Gone (apply_usn_patch sample_env (build_compact_index sample_env 'C' ⟨[]⟩ hard_link_mft)
        [{ frs := 30, parent_frs := 5, filename := ['a'], deleted := true }]).1.records 30 := by
  refine ⟨hard_link_mft_wellFormed, fun hgone => ?_⟩
  have hcore := (apply_usn_patch_rebuilt sample_env (build_compact_index sample_env 'C' ⟨[]⟩ hard_link_mft)
    [{ frs := 30, parent_frs := 5, filename := ['a'], deleted := true }]).core
  obtain ⟨hdeleting, -, -⟩ :=
    @deleting_foldl sample_env (build_compact_index sample_env 'C' ⟨[]⟩ hard_link_mft)
      (order_parent_first [{ frs := 30, parent_frs := 5, filename := ['a'], deleted := true }]) _
      (Deleting.start _) (by decide)
  have hsingle := hdeleting.singleRow hard_link_mft_wellFormed (gone_of_core hcore.symm hgone)
  have hlinks := (hsingle 1 _ rfl (by decide) rfl).2.1
  exact absurd hlinks (by decide)

end uffs.usn
