import Uffs.Usn.Run
import Uffs.Compact.Rows

open uffs.mft uffs.text uffs.bloom uffs.compact

namespace uffs.usn

/-- Slot numbers that are stored anywhere exist: in the record map and as parents. -/
structure Linked (records : List CompactRecord) (frs_to_compact : List UInt32) : Prop where
  map : ∀ (i : Nat) (v : UInt32), frs_to_compact[i]? = some v → v = NO_ENTRY ∨ v.toNat < records.length
  parents : ∀ rec ∈ records, rec.parent_idx = NO_ENTRY ∨ rec.parent_idx.toNat < records.length

variable {drive : DriveCompactIndex}

theorem Linked.slot_of (h : Linked drive.records drive.frs_to_compact) (frs : UInt64) :
    slot_of drive frs = NO_ENTRY ∨ (slot_of drive frs).toNat < drive.records.length := by
  unfold usn.slot_of
  cases hget : drive.frs_to_compact[frs_to_usize frs]? with
  | none => exact Or.inl rfl
  | some v => exact h.map _ v hget

theorem Linked.of_core {records records' : List CompactRecord} {frs_to_compact : List UInt32}
    (h : Linked records frs_to_compact) (hcore : SameCore records records') : Linked records' frs_to_compact := by
  refine ⟨fun i v hget => hcore.length_eq ▸ h.map i v hget, fun rec hmem => ?_⟩
  obtain ⟨c, hget⟩ := List.getElem?_of_mem hmem
  obtain ⟨rec0, hget0, hrec0⟩ := SameCore.exists_core hcore hget
  have hparent := h.parents rec0 (List.mem_of_getElem? hget0)
  rw [parent_idx_of_core hrec0, ← hcore.length_eq] at hparent
  exact hparent

theorem getElem?_map_frs (map : List UInt32) (frs : UInt64) (slot : UInt32) (i : Nat) :
    (map_frs map frs slot)[i]? =
      if i = frs_to_usize frs then some slot
      else if i < map.length then map[i]? else if i < frs_to_usize frs then some NO_ENTRY else none := by
  unfold map_frs
  rw [List.getElem?_set, List.length_append, List.length_replicate]
  by_cases hi : frs_to_usize frs = i
  · subst hi
    simp only [if_pos]
    rw [if_pos (by omega)]
  · have hi' : i ≠ frs_to_usize frs := fun h => hi h.symm
    rw [if_neg hi, if_neg hi']
    by_cases hlt : i < map.length
    · rw [if_pos hlt, List.getElem?_append_left hlt]
    · rw [if_neg hlt, List.getElem?_append_right (Nat.le_of_not_lt hlt)]
      by_cases hfill : i < frs_to_usize frs
      · rw [if_pos hfill, List.getElem?_replicate, if_pos (by omega)]
      · rw [if_neg hfill, List.getElem?_replicate, if_neg (by omega)]

theorem linked_set {records : List CompactRecord} {map : List UInt32} (h : Linked records map) (i : Nat)
    {rec : CompactRecord} (hparent : rec.parent_idx = NO_ENTRY ∨ rec.parent_idx.toNat < records.length) :
    Linked (records.set i rec) map := by
  refine ⟨fun j v hget => by simpa using h.map j v hget, fun row hmem => ?_⟩
  rw [List.length_set]
  cases List.mem_or_eq_of_mem_set hmem with
  | inl hold => exact h.parents row hold
  | inr hnew => exact hnew ▸ hparent

/-- One change keeps stored slots in range. -/
theorem Effect.linked {change : FileChange} {before after : Patch} (heffect : Effect change before after)
    (h : Linked before.drive.records before.drive.frs_to_compact)
    (hroom : after.drive.records.length < UInt32.size) :
    Linked after.drive.records after.drive.frs_to_compact := by
  cases heffect with
  | idle hrecords hmap => exact hrecords ▸ hmap ▸ h
  | deleted rec _ _ _ hrecords hmap =>
    rw [hrecords, hmap]
    have hset := linked_set h (slot_of before.drive change.frs).toNat
      (show ({ rec with name_len := 0, parent_idx := NO_ENTRY } : CompactRecord).parent_idx = NO_ENTRY ∨ _
        from Or.inl rfl)
    refine ⟨fun i v hget => ?_, hset.parents⟩
    rw [List.getElem?_set] at hget
    split at hget
    · split at hget
      · exact Or.inl (Option.some.inj hget).symm
      · cases hget
    · exact hset.map i v hget
  | appended rec _ _ hfresh _ hrecords hmap =>
    rw [hrecords, List.length_append, List.length_singleton] at hroom
    have hslot := len_to_u32_toNat (Nat.lt_of_succ_lt hroom)
    rw [hrecords, hmap]
    refine ⟨fun i v hget => ?_, fun row hmem => ?_⟩
    · rw [List.length_append, List.length_singleton]
      rw [getElem?_map_frs] at hget
      split at hget
      · refine Or.inr ?_
        rw [← Option.some.inj hget, hslot]
        omega
      · split at hget
        · cases h.map i v hget with
          | inl hnone => exact Or.inl hnone
          | inr hlt => exact Or.inr (by omega)
        · split at hget
          · exact Or.inl (Option.some.inj hget).symm
          · cases hget
    · rw [List.length_append, List.length_singleton]
      have hold : row.parent_idx = NO_ENTRY ∨ row.parent_idx.toNat < before.drive.records.length := by
        cases List.mem_append.mp hmem with
        | inl hmem => exact h.parents row hmem
        | inr hmem =>
          rw [List.mem_singleton.mp hmem, hfresh.parent]
          exact h.slot_of change.parent_frs
      cases hold with
      | inl hnone => exact Or.inl hnone
      | inr hlt => exact Or.inr (by omega)
  | rewritten rec rec' _ _ _ _ hfresh _ _ _ hrecords hmap =>
    rw [hrecords, hmap]
    refine linked_set h _ ?_
    rw [hfresh.parent]
    exact h.slot_of change.parent_frs

/-- A batch keeps stored slots in range. -/
theorem linked_apply_usn_patch {env : Env} {changes : List FileChange} (h : Linked drive.records drive.frs_to_compact)
    (hroom : (apply_usn_patch env drive changes).1.records.length < UInt32.size) :
    Linked (apply_usn_patch env drive changes).1.records (apply_usn_patch env drive changes).1.frs_to_compact := by
  have hrebuilt := apply_usn_patch_rebuilt env drive changes
  rw [hrebuilt.length_eq] at hroom
  have hloop : Linked (mutated env drive changes).drive.records (mutated env drive changes).drive.frs_to_compact :=
    run_changes_induction (motive := fun patch => Linked patch.drive.records patch.drive.frs_to_compact) hroom h
      fun patch change hpatch _ hspace => (apply_change_effect env patch change).linked hpatch hspace
  rw [hrebuilt.map]
  exact hloop.of_core hrebuilt.core

theorem linked_expanded_rows {index : MftIndex} (hwf : WellFormed index) :
    Linked (expanded_rows index).2 index.frs_to_idx := by
  have hlen := expanded_rows_length index
  refine ⟨fun i v hget => ?_, fun row hmem => ?_⟩
  · by_cases hv : v = NO_ENTRY
    · exact Or.inl hv
    · obtain ⟨record, hrecord, -⟩ := hwf.mapped i v hget hv
      have hlt := (List.getElem?_eq_some_iff.mp hrecord).1
      exact Or.inr (by omega)
  · cases mem_expanded_rows hmem with
    | inl h =>
      obtain ⟨idx, record, -, -, hrow⟩ := h
      cases hrow.parent_in_range hwf with
      | inl hnone => exact Or.inl hnone
      | inr hlt => exact Or.inr (by omega)
    | inr h => exact Or.inr (h.1 ▸ List.length_pos_of_mem hmem)

/-- Columns of a fresh index: the expanded rows up to path lengths. -/
theorem build_compact_index_columns (env : Env) (letter : Char) (fold : CaseFold) (index : MftIndex) :
    SameCore (expanded_rows index).2 (build_compact_index env letter fold index).records ∧
      (build_compact_index env letter fold index).names = (expanded_rows index).1 ∧
      (build_compact_index env letter fold index).frs_to_compact = index.frs_to_idx := by
  unfold build_compact_index
  exact ⟨sameCore_compute_path_lengths _ _, rfl, rfl⟩

/-- Slots of a fresh index are those of the record map of the table. -/
theorem slot_of_build (env : Env) (letter : Char) (fold : CaseFold) (index : MftIndex) (f : UInt64) :
    slot_of (build_compact_index env letter fold index) f = index.frs_to_idx[frs_to_usize f]?.getD NO_ENTRY := by
  unfold slot_of
  rw [(build_compact_index_columns env letter fold index).2.2]

theorem roomy_build {index : MftIndex} (hroom : (expanded_rows index).2.length < NO_ENTRY.toNat) (env : Env)
    (letter : Char) (fold : CaseFold) : Roomy (build_compact_index env letter fold index) := by
  unfold Roomy
  rwa [(build_compact_index_columns env letter fold index).1.length_eq]

/-- Stored slots are in range in every state of a run. -/
theorem Reachable.linked {env : Env} {letter : Char} {fold : CaseFold} {index : MftIndex} (hwf : WellFormed index)
    {P : DriveCompactIndex → Prop} (hP : ∀ drive, P drive → Roomy drive)
    (hreach : Reachable env (build_compact_index env letter fold index) P drive) :
    Linked drive.records drive.frs_to_compact := by
  refine hreach.induction (motive := fun drive => Linked drive.records drive.frs_to_compact) ?_ ?_ ?_
  · intro _
    obtain ⟨hcore, -, hmap⟩ := build_compact_index_columns env letter fold index
    rw [hmap]
    exact (linked_expanded_rows hwf).of_core hcore
  · intro drive changes h hok
    exact linked_apply_usn_patch h (hP _ hok).lt_size
  · intro drive h
    exact h

/-- No operation of a run touches the filters. -/
theorem Reachable.filters {env : Env} {start drive : DriveCompactIndex} {P : DriveCompactIndex → Prop}
    (hreach : Reachable env start P drive) :
    drive.bloom = start.bloom ∧ drive.path_trie = start.path_trie := by
  refine hreach.induction (motive := fun drive => drive.bloom = start.bloom ∧ drive.path_trie = start.path_trie)
    (fun _ => ⟨rfl, rfl⟩) ?_ fun _ h => h
  intro drive changes h _
  have hrebuilt := apply_usn_patch_rebuilt env drive changes
  have htables : SameTables drive (mutated env drive changes).drive := run_changes_tables env drive _
  exact ⟨(hrebuilt.bloom.trans htables.bloom).trans h.1, (hrebuilt.path_trie.trans htables.path_trie).trans h.2⟩

end uffs.usn
