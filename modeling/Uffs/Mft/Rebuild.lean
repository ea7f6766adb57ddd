import Uffs.Mft.Stored
import Uffs.Mft.TreeShape

namespace uffs.mft

/-! Making the directory entries anew from the names: it reads no metrics, and made twice they are those of the directories made before. -/

section ensure

variable {index : MftIndex} {parent_frs : UInt64}

theorem add_child_entry_steps (index : MftIndex) (parent_frs child_frs : UInt64) (name_index : UInt16) :
    index.add_child_entry parent_frs child_frs name_index =
      (index.ensure_parent parent_frs).1.put_entry (index.ensure_parent parent_frs).2 child_frs name_index := rfl

theorem ensure_parent_old {i : Nat} (h : index.frs_to_idx_opt parent_frs = some i) : index.ensure_parent parent_frs = (index, i) := by
  have hlt : parent_frs.toNat < index.frs_to_idx.length := by
    rw [MftIndex.frs_to_idx_opt, frs_to_usize] at h
    cases hslot : index.frs_to_idx[parent_frs.toNat]? with
    | none => rw [hslot] at h; cases h
    | some slot => exact (List.getElem?_eq_some_iff.mp hslot).1
  have hgrow : parent_frs.toNat + 1 - index.frs_to_idx.length = 0 := by omega
  rw [frs_to_idx_opt_of rfl] at h
  split at h
  · cases h
  next hfull =>
    obtain rfl := Option.some.inj h
    rw [MftIndex.ensure_parent, frs_to_usize, hgrow, List.replicate_zero, List.append_nil]
    exact if_neg hfull

theorem ensure_parent_new (h : index.frs_to_idx_opt parent_frs = none) :
    index.ensure_parent parent_frs = ({ index with
      frs_to_idx := (index.frs_to_idx ++ List.replicate (parent_frs.toNat + 1 - index.frs_to_idx.length) NO_ENTRY).set
        parent_frs.toNat (len_to_u32 index.records.length)
      records := index.records ++ [FileRecord.new parent_frs] }, (len_to_u32 index.records.length).toNat) := by
  have hgrown := getD_append_replicate index.frs_to_idx (parent_frs.toNat + 1 - index.frs_to_idx.length) parent_frs.toNat
  rw [frs_to_idx_opt_of hgrown.symm] at h
  have hempty := of_not_not (fun hfull => by rw [if_neg hfull] at h; cases h)
  rw [MftIndex.ensure_parent]
  exact if_pos hempty

end ensure

section idempotent

/-- All directories of a list of entries. -/
def MftIndex.ensure_parents (self : MftIndex) (entries : List (UInt64 × UInt64 × UInt16)) : MftIndex :=
  entries.foldl (fun index entry => (index.ensure_parent entry.1).1) self

def MftIndex.add_entries (self : MftIndex) (entries : List (UInt64 × UInt64 × UInt16)) : MftIndex :=
  entries.foldl (fun index (parent_frs, child_frs, name_index) => index.add_child_entry parent_frs child_frs name_index) self

variable {index : MftIndex}

def FileRecord.clear_children (self : FileRecord) : FileRecord := { self with first_child := NO_ENTRY }

/-- The index without directory entries. -/
def MftIndex.clear_children (self : MftIndex) : MftIndex :=
  { self with children := [], records := self.records.map FileRecord.clear_children }

theorem clear_put_entry (parent_idx : Nat) (child_frs : UInt64) (name_index : UInt16) :
    (index.put_entry parent_idx child_frs name_index).clear_children = index.clear_children := by
  rw [MftIndex.put_entry]
  split
  · rfl
  · have hsame := fun f hf => map_modify_eq index.records parent_idx (f := f) (g := FileRecord.clear_children) hf
    rw [MftIndex.clear_children, MftIndex.clear_children, MftIndex.modify_record]
    exact congrArg (fun records => MftIndex.mk records _ _ _ _ _ _ _ _ _) (hsame _ fun rec => rfl)

theorem clear_ensure_parent (parent_frs : UInt64) :
    (index.ensure_parent parent_frs).1.clear_children = (index.clear_children.ensure_parent parent_frs).1 := by
  cases hmap : index.frs_to_idx_opt parent_frs with
  | some i =>
    have hclear : index.clear_children.frs_to_idx_opt parent_frs = some i := hmap
    rw [ensure_parent_old hmap, ensure_parent_old hclear]
  | none =>
    have hclear : index.clear_children.frs_to_idx_opt parent_frs = none := hmap
    rw [ensure_parent_new hmap, ensure_parent_new hclear, MftIndex.clear_children, MftIndex.clear_children]
    rw [List.map_append, List.length_map]
    rfl

theorem clear_add_entries (entries : List (UInt64 × UInt64 × UInt16)) :
    (index.add_entries entries).clear_children = index.clear_children.ensure_parents entries := by
  induction entries generalizing index with
  | nil => rfl
  | cons entry entries ih =>
    obtain ⟨parent_frs, child_frs, name_index⟩ := entry
    refine (@ih (index.add_child_entry parent_frs child_frs name_index)).trans ?_
    rw [add_child_entry_steps, clear_put_entry, clear_ensure_parent]
    rfl

/-- Entries are read from the link table only. -/
theorem name_edges_links {other : MftIndex} (hlinks : other.links = index.links) (child_frs : UInt64) (left : Nat)
    (link : LinkInfo) : other.name_edges child_frs left link = index.name_edges child_frs left link := by
  induction left generalizing link with
  | zero => rfl
  | succ left ih =>
    rw [MftIndex.name_edges, MftIndex.name_edges, hlinks]
    refine congrArg₂ _ rfl ?_
    split
    · rfl
    · cases index.links[link.next_entry.toNat]? with
      | none => rfl
      | some next_link => exact ih next_link

theorem collect_clear : index.clear_children.collect_parent_child_edges = index.collect_parent_child_edges := by
  rw [MftIndex.collect_parent_child_edges, MftIndex.collect_parent_child_edges]
  rw [show index.clear_children.records = index.records.map FileRecord.clear_children from rfl, List.flatMap_map]
  exact congrArg (List.flatMap · _) (funext fun rec => name_edges_links (by rfl) _ _ _)

/-- A directory made on the way has no names, so it brings no entries. -/
theorem collect_ensure_parent (parent_frs : UInt64) :
    (index.ensure_parent parent_frs).1.collect_parent_child_edges = index.collect_parent_child_edges := by
  cases hmap : index.frs_to_idx_opt parent_frs with
  | some i => rw [ensure_parent_old hmap]
  | none =>
    rw [ensure_parent_new hmap]
    rw [MftIndex.collect_parent_child_edges, MftIndex.collect_parent_child_edges]
    rw [List.flatMap_append]
    refine (congrArg₂ _ ?_ ?_).trans (List.append_nil _)
    · exact congrArg (List.flatMap · _) (funext fun rec => name_edges_links (by rfl) _ _ _)
    · rfl

theorem collect_ensure_parents (entries : List (UInt64 × UInt64 × UInt16)) :
    (index.ensure_parents entries).collect_parent_child_edges = index.collect_parent_child_edges := by
  induction entries generalizing index with
  | nil => rfl
  | cons entry entries ih => exact ih.trans (collect_ensure_parent entry.1)

theorem clear_rebuild : index.rebuild_children_from_names.clear_children =
    index.clear_children.ensure_parents index.collect_parent_child_edges := by
  refine (@clear_add_entries index.clear_children index.collect_parent_child_edges).trans ?_
  rw [show index.clear_children.clear_children = index.clear_children from ?_]
  rw [MftIndex.clear_children, MftIndex.clear_children, List.map_map]
  rfl

theorem rebuild_rebuild_steps : index.rebuild_children_from_names.rebuild_children_from_names =
    (index.clear_children.ensure_parents index.collect_parent_child_edges).add_entries index.collect_parent_child_edges := by
  have hcollect : index.rebuild_children_from_names.collect_parent_child_edges = index.collect_parent_child_edges := by
    rw [← collect_clear, clear_rebuild, collect_ensure_parents, collect_clear]
  calc index.rebuild_children_from_names.rebuild_children_from_names
      = index.rebuild_children_from_names.clear_children.add_entries
          index.rebuild_children_from_names.collect_parent_child_edges := rfl
    _ = (index.clear_children.ensure_parents index.collect_parent_child_edges).add_entries index.collect_parent_child_edges := by
        rw [clear_rebuild, hcollect]

theorem ensure_parents_mapped {entries : List (UInt64 × UInt64 × UInt16)}
    (h : ∀ entry ∈ entries, ∃ i, index.frs_to_idx_opt entry.1 = some i) : index.ensure_parents entries = index := by
  induction entries with
  | nil => rfl
  | cons entry entries ih =>
    obtain ⟨i, hmap⟩ := h entry List.mem_cons_self
    rw [MftIndex.ensure_parents, List.foldl_cons, ensure_parent_old hmap]
    exact ih fun entry hentry => h entry (List.mem_cons_of_mem _ hentry)

/-- Where every directory is known, no room is needed for that. -/
theorem rebuild_rebuild_mapped (h : ∀ entry ∈ index.collect_parent_child_edges, ∃ i, index.frs_to_idx_opt entry.1 = some i) :
    index.rebuild_children_from_names.rebuild_children_from_names = index.rebuild_children_from_names := by
  rw [rebuild_rebuild_steps, @ensure_parents_mapped index.clear_children _ h]
  rfl

end idempotent

section shape

variable {index : MftIndex}

theorem map_modify_comm {α β : Type} (table : List α) (i : Nat) {f : α → α} {g : α → β} {f' : β → β}
    (h : ∀ a, g (f a) = f' (g a)) : (table.modify i f).map g = (table.map g).modify i f' := by
  refine List.ext_getElem? fun j => ?_
  rw [List.getElem?_map, List.getElem?_modify, List.getElem?_modify, List.getElem?_map]
  cases table[j]? with
  | none => rfl
  | some a =>
    simp only [Option.map_eq_map, Option.map_some]
    split
    · rw [h]
    · rfl

theorem put_entry_shape (parent_idx : Nat) (child_frs : UInt64) (name_index : UInt16) :
    (index.put_entry parent_idx child_frs name_index).shape = index.shape.put_entry parent_idx child_frs name_index := by
  have hget : index.shape.records[parent_idx]? = index.records[parent_idx]?.map FileRecord.shape := List.getElem?_map
  rw [MftIndex.put_entry, MftIndex.put_entry, hget]
  cases hrec : index.records[parent_idx]? with
  | none => rfl
  | some rec =>
    exact congrArg (fun records => MftIndex.mk records _ _ _ _ _ _ _ _ _)
      (map_modify_comm index.records parent_idx fun rec => rfl)

theorem ensure_parent_shape (parent_frs : UInt64) :
    (index.ensure_parent parent_frs).1.shape = (index.shape.ensure_parent parent_frs).1 ∧
      (index.ensure_parent parent_frs).2 = (index.shape.ensure_parent parent_frs).2 := by
  cases hmap : index.frs_to_idx_opt parent_frs with
  | some i =>
    have hshape : index.shape.frs_to_idx_opt parent_frs = some i := hmap
    rw [ensure_parent_old hmap, ensure_parent_old hshape]
    exact ⟨rfl, rfl⟩
  | none =>
    have hshape : index.shape.frs_to_idx_opt parent_frs = none := hmap
    have hlen : index.shape.records.length = index.records.length := List.length_map _
    rw [ensure_parent_new hmap, ensure_parent_new hshape, hlen]
    refine ⟨?_, rfl⟩
    rw [MftIndex.shape]
    rw [List.map_append]
    rfl

theorem add_entries_shape (entries : List (UInt64 × UInt64 × UInt16)) :
    (index.add_entries entries).shape = index.shape.add_entries entries := by
  induction entries generalizing index with
  | nil => rfl
  | cons entry entries ih =>
    obtain ⟨parent_frs, child_frs, name_index⟩ := entry
    have hadd : (index.add_child_entry parent_frs child_frs name_index).shape =
        index.shape.add_child_entry parent_frs child_frs name_index := by
      obtain ⟨hindex, hidx⟩ := @ensure_parent_shape index parent_frs
      rw [add_child_entry_steps, add_child_entry_steps, put_entry_shape, hindex, hidx]
    refine (@ih (index.add_child_entry parent_frs child_frs name_index)).trans ?_
    rw [hadd]
    rfl

theorem collect_shape : index.shape.collect_parent_child_edges = index.collect_parent_child_edges := by
  rw [MftIndex.collect_parent_child_edges, MftIndex.collect_parent_child_edges]
  rw [show index.shape.records = index.records.map FileRecord.shape from rfl, List.flatMap_map]
  exact congrArg (List.flatMap · _) (funext fun rec => name_edges_links (by rfl) _ _ _)

/-- Metrics play no part in it. -/
theorem rebuild_shape : index.rebuild_children_from_names.shape = index.shape.rebuild_children_from_names := by
  have hclear : index.clear_children.shape = index.shape.clear_children := by
    rw [MftIndex.clear_children, MftIndex.clear_children, MftIndex.shape, MftIndex.shape]
    rw [List.map_map, List.map_map]
    rfl
  calc index.rebuild_children_from_names.shape
      = (index.clear_children.add_entries index.collect_parent_child_edges).shape := rfl
    _ = index.shape.clear_children.add_entries index.shape.collect_parent_child_edges := by
        rw [add_entries_shape, hclear, collect_shape]

end shape

end uffs.mft
