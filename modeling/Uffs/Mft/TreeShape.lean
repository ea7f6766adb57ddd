import Uffs.Mft.FileView
import Uffs.Mft.TreeMetrics

open uffs.lib uffs.lib.arena

namespace uffs.mft

/-! What the traversal leaves alone: of a record it writes the metrics and the allocated size of the
default stream, and nothing else. -/

def FileRecord.shape (self : FileRecord) : FileRecord :=
  { self.set_allocated 0 with descendants := 0, treesize := 0, tree_allocated := 0 }

def MftIndex.shape (self : MftIndex) : MftIndex := { self with records := self.records.map FileRecord.shape }

variable {rec : FileRecord}

section shape

variable {index other : MftIndex}

theorem shape_modify (ri : Nat) {f : FileRecord → FileRecord} (hf : ∀ rec, (f rec).shape = rec.shape) :
    (index.modify_record ri f).shape = index.shape := by
  rw [MftIndex.shape, MftIndex.shape, MftIndex.modify_record]
  congr 1
  exact map_modify_eq index.records ri hf

section

variable (h : index.shape = other.shape)

include h

theorem shape_records :
    index.records.map FileRecord.shape = other.records.map FileRecord.shape := congrArg MftIndex.records h

theorem shape_length : index.records.length = other.records.length := by
  have hlen := congrArg List.length (shape_records h)
  rwa [List.length_map, List.length_map] at hlen

theorem shape_record {i : Nat} (hrec : index.records[i]? = some rec) :
    ∃ rec', other.records[i]? = some rec' ∧ rec'.shape = rec.shape := by
  have hget : (index.records.map FileRecord.shape)[i]? = (other.records.map FileRecord.shape)[i]? := by rw [shape_records h]
  rw [List.getElem?_map, List.getElem?_map, hrec] at hget
  exact Option.map_eq_some_iff.mp hget.symm

theorem shape_no_record {i : Nat} (hrec : index.records[i]? = none) : other.records[i]? = none := by
  rw [List.getElem?_eq_none_iff, ← shape_length h]
  exact List.getElem?_eq_none_iff.mp hrec

theorem shape_children : index.children = other.children := by
  have hshape : index.shape.children = other.shape.children := by rw [h]
  exact hshape

theorem shape_streams : index.streams = other.streams := by
  have hshape : index.shape.streams = other.shape.streams := by rw [h]
  exact hshape

theorem shape_frs_to_idx (frs : UInt64) : index.frs_to_idx_opt frs = other.frs_to_idx_opt frs := by
  have hshape : index.shape.frs_to_idx_opt frs = other.shape.frs_to_idx_opt frs := by rw [h]
  exact hshape

end

end shape

section step

theorem store_metrics_shape (rec : FileRecord) (is_directory : Bool) (children : Agg) (first_len first_alloc : UInt64) :
    (rec.store_metrics is_directory children first_len first_alloc).shape = rec.shape := by
  cases is_directory <;> rfl

theorem store_printed_metrics_shape (self : TreeTraversal) (record_idx : Nat) (is_directory : Bool) (children : Agg)
    (first_len first_alloc : UInt64) :
    (self.store_printed_metrics record_idx is_directory children first_len first_alloc).index.shape = self.index.shape :=
  shape_modify _ fun rec => store_metrics_shape rec is_directory children first_len first_alloc

/-- Merging touches the index only. -/
theorem merge_wof_alloc_some {self merged : TreeTraversal} {fuel record_idx : Nat} {wof_idx : UInt32}
    {first_alloc : UInt64} (h : self.merge_wof_alloc fuel record_idx rec = some (wof_idx, first_alloc, merged)) :
    (wof_idx = NO_ENTRY ∧ first_alloc = rec.first_stream.size.allocated ∧ merged = self) ∨
      ∃ stream, rec.reparse_tag = IO_REPARSE_TAG_WOF ∧
        self.index.find_wof_stream fuel rec.first_stream.next_entry = some wof_idx ∧ wof_idx ≠ NO_ENTRY ∧
        self.index.streams[wof_idx.toNat]? = some stream ∧
        first_alloc = saturating_add64 rec.first_stream.size.allocated stream.size.allocated ∧
        merged = { self with index := self.index.modify_record record_idx fun rec => rec.set_allocated first_alloc } := by
  rw [TreeTraversal.merge_wof_alloc] at h
  obtain ⟨found, hfound, h⟩ := Option.bind_eq_some_iff.mp h
  by_cases hnone : found = NO_ENTRY
  · rw [if_pos hnone] at h
    cases h
    exact .inl ⟨hnone, rfl, rfl⟩
  · rw [if_neg hnone] at h
    obtain ⟨stream, hstream, h⟩ := Option.bind_eq_some_iff.mp h
    cases h
    split at hfound
    next htag => exact .inr ⟨stream, htag, hfound, hnone, hstream, rfl, rfl⟩
    next => exact absurd (Option.some.inj hfound).symm hnone

theorem merge_wof_alloc_index {self merged : TreeTraversal} {fuel record_idx : Nat} {wof_idx : UInt32}
    {first_alloc : UInt64} (h : self.merge_wof_alloc fuel record_idx rec = some (wof_idx, first_alloc, merged)) :
    merged.index.shape = self.index.shape ∧ merged.seen = self.seen ∧ merged.depth = self.depth ∧
      merged.reserved_allocated_bytes = self.reserved_allocated_bytes := by
  rcases merge_wof_alloc_some h with ⟨-, -, rfl⟩ | ⟨stream, -, -, -, -, -, rfl⟩
  · exact ⟨rfl, rfl, rfl, rfl⟩
  · exact ⟨shape_modify _ fun rec => rfl, rfl, rfl, rfl⟩

/-- What is read of a record when it is visited. -/
def FileRecord.snapshot (self : FileRecord) (first_alloc : UInt64) (name_info total_names_raw wof_stream_idx : UInt32) :
    RecordSnapshot where
  first_len := self.first_stream.size.length
  first_alloc := first_alloc
  name_info := name_info
  total_names := max total_names_raw 1
  first_internal_stream := self.first_internal_stream
  internal_streams_size := self.internal_streams_size
  internal_streams_allocated := self.internal_streams_allocated
  first_stream_next := self.first_stream.next_entry
  wof_stream_idx := wof_stream_idx

def TreeTraversal.mark_seen (self : TreeTraversal) (record_idx : Nat) : TreeTraversal :=
  { self with seen := self.seen.set record_idx true }

/-- One visit that ends: the record is marked, merged, its directory entries are visited, and the
metrics are stored. -/
structure Visit (fuel : Nat) (start : TreeTraversal) (record_idx : Nat) (name_info total_names_raw : UInt32) (rec : FileRecord)
    (agg : Agg) (left : TreeTraversal) where
  wof_stream_idx : UInt32
  first_alloc : UInt64
  merged : TreeTraversal
  children : Agg
  visited : TreeTraversal
  own : SizeInfo
  hrec : start.index.records[record_idx]? = some rec
  hmerge : (start.mark_seen record_idx).merge_wof_alloc fuel record_idx rec = some (wof_stream_idx, first_alloc, merged)
  hchildren : if rec.stdinfo.is_directory = true then
      TreeTraversal.aggregate_children (TreeTraversal.preprocess fuel) fuel merged rec.first_child = some (children, visited)
    else children = {} ∧ visited = merged
  hown : visited.index.accumulate_own_streams fuel (rec.snapshot first_alloc name_info total_names_raw wof_stream_idx) = some own
  hagg : agg = children.saturating_add
    { length := own.length, allocated := own.allocated, treesize := max rec.total_stream_count.toUInt32 1 }
  hleft : left = visited.store_printed_metrics record_idx rec.stdinfo.is_directory children rec.first_stream.size.length first_alloc

theorem preprocess_some {fuel : Nat} {self left : TreeTraversal} {record_idx : Nat} {name_info total_names_raw : UInt32}
    {agg : Agg} (h : self.preprocess (fuel + 1) record_idx name_info total_names_raw = some (agg, left)) :
    (self.index.records[record_idx]? = none ∧ agg = {} ∧ left = self) ∨
      ∃ rec, Nonempty (Visit fuel self record_idx name_info total_names_raw rec agg left) := by
  rw [TreeTraversal.preprocess] at h
  split at h
  next hrec =>
    cases h
    exact .inl ⟨hrec, rfl, rfl⟩
  next rec hrec =>
    right
    obtain ⟨⟨wof_stream_idx, first_alloc, merged⟩, hmerge, h⟩ := Option.bind_eq_some_iff.mp h
    obtain ⟨⟨children, visited⟩, hchildren, h⟩ := Option.bind_eq_some_iff.mp h
    obtain ⟨own, hown, h⟩ := Option.bind_eq_some_iff.mp h
    cases h
    refine ⟨rec, ⟨wof_stream_idx, first_alloc, merged, children, visited, own, hrec, hmerge, ?_, hown, rfl, rfl⟩⟩
    split at hchildren
    next hdir =>
      rw [if_pos hdir]
      exact hchildren
    next hdir =>
      rw [if_neg hdir]
      cases hchildren
      exact ⟨rfl, rfl⟩

theorem preprocess_of_visit {fuel : Nat} {self left : TreeTraversal} {record_idx : Nat} {name_info total_names_raw : UInt32} {agg : Agg} (h : Visit fuel self record_idx name_info total_names_raw rec agg left) :
    self.preprocess (fuel + 1) record_idx name_info total_names_raw = some (agg, left) := by
  rw [TreeTraversal.preprocess, h.hrec]
  refine Option.bind_eq_some_iff.mpr ⟨_, h.hmerge, ?_⟩
  refine Option.bind_eq_some_iff.mpr ⟨(h.children, h.visited), ?_, ?_⟩
  · have hchildren := h.hchildren
    by_cases hdir : rec.stdinfo.is_directory = true
    · rw [if_pos hdir] at hchildren ⊢
      exact hchildren
    · rw [if_neg hdir] at hchildren ⊢
      rw [hchildren.1, hchildren.2]
  · exact Option.bind_eq_some_iff.mpr ⟨h.own, h.hown, congrArg some (Prod.ext h.hagg.symm h.hleft.symm)⟩

end step

section entries

/-- A traversal of a child, as `preprocess` is one. -/
abbrev Visitor := TreeTraversal → Nat → UInt32 → UInt32 → Option (Agg × TreeTraversal)

def Visitor.KeepsShape (visit : Visitor) : Prop :=
  ∀ {self left : TreeTraversal} {idx : Nat} {name_info total_names : UInt32} {agg : Agg},
    visit self idx name_info total_names = some (agg, left) → left.index.shape = self.index.shape

/-- All directory entries of a list, one after the other. -/
def TreeTraversal.visit_entries (visit : Visitor) (entries : List ChildInfo) (acc : Agg × TreeTraversal) :
    Option (Agg × TreeTraversal) :=
  entries.foldlM (fun acc ce => acc.2.visit_child visit acc.1 ce) acc

variable {visit : Visitor} {self left : TreeTraversal}

/-- An entry without a record adds nothing, any other what the visit of the record gives. -/
theorem visit_child_some {agg sum : Agg} {ce : ChildInfo} (h : self.visit_child visit agg ce = some (sum, left)) :
    (self.index.frs_to_idx_opt ce.child_frs = none ∧ sum = agg ∧ left = self) ∨
      ∃ child_idx child child_agg, self.index.frs_to_idx_opt ce.child_frs = some child_idx ∧
        self.index.records[child_idx]? = some child ∧ sum = agg.saturating_add child_agg ∧
        visit self child_idx (compute_name_info_checked ce.name_index.toUInt32 child.name_count.toUInt32)
          (max child.name_count.toUInt32 1) = some (child_agg, left) := by
  rw [TreeTraversal.visit_child] at h
  split at h
  next hidx =>
    cases h
    exact .inl ⟨hidx, rfl, rfl⟩
  next child_idx hidx =>
    right
    obtain ⟨child, hchild, h⟩ := Option.bind_eq_some_iff.mp h
    obtain ⟨⟨child_agg, left'⟩, hvisit, h⟩ := Option.bind_eq_some_iff.mp h
    cases h
    exact ⟨child_idx, child, child_agg, hidx, hchild, rfl, hvisit⟩

theorem visit_child_shape (hvisit : visit.KeepsShape) {agg sum : Agg} {ce : ChildInfo}
    (h : self.visit_child visit agg ce = some (sum, left)) : left.index.shape = self.index.shape := by
  rcases visit_child_some h with ⟨-, -, rfl⟩ | ⟨child_idx, child, child_agg, -, -, -, hleft⟩
  · rfl
  · exact hvisit hleft

theorem visit_entries_cons (ce : ChildInfo) (entries : List ChildInfo) (acc : Agg × TreeTraversal) :
    TreeTraversal.visit_entries visit (ce :: entries) acc =
      (acc.2.visit_child visit acc.1 ce).bind (TreeTraversal.visit_entries visit entries) := by
  rw [TreeTraversal.visit_entries, List.foldlM_cons]
  rfl

/-- What every visit keeps, the loop over the entries keeps. -/
theorem visit_entries_keeps {Q : TreeTraversal → TreeTraversal → Prop} (hrefl : ∀ self, Q self self)
    (htrans : ∀ {self middle left}, Q self middle → Q middle left → Q self left)
    (hvisit : ∀ {self left idx name_info total_names agg}, visit self idx name_info total_names = some (agg, left) → Q self left)
    {entries : List ChildInfo} {acc result : Agg × TreeTraversal}
    (h : TreeTraversal.visit_entries visit entries acc = some result) : Q acc.2 result.2 := by
  induction entries generalizing acc with
  | nil =>
    cases h
    exact hrefl _
  | cons ce entries ih =>
    rw [visit_entries_cons] at h
    obtain ⟨⟨sum, middle⟩, hmiddle, hrest⟩ := Option.bind_eq_some_iff.mp h
    refine htrans ?_ (ih hrest)
    rcases visit_child_some hmiddle with ⟨-, -, rfl⟩ | ⟨child_idx, child, child_agg, -, -, -, hleft⟩
    · exact hrefl _
    · exact hvisit hleft

theorem visit_entries_shape (hvisit : visit.KeepsShape) {entries : List ChildInfo} {acc result : Agg × TreeTraversal}
    (h : TreeTraversal.visit_entries visit entries acc = some result) : result.2.index.shape = acc.2.index.shape :=
  @visit_entries_keeps visit (fun self left => left.index.shape = self.index.shape) (fun _ => rfl)
    (fun h h' => h'.trans h) hvisit _ _ _ h

/-- The loop over a chain of entries is the loop over their list: the chain is the same all along. -/
theorem visit_children_eq (hvisit : visit.KeepsShape) (fuel : Nat) (self : TreeTraversal) (entry : UInt32) (agg : Agg) :
    TreeTraversal.visit_children visit fuel self entry agg =
      (follow child_cell NO_ENTRY self.index.children fuel entry).bind fun entries =>
        TreeTraversal.visit_entries visit entries (agg, self) := by
  induction fuel generalizing self entry agg with
  | zero => rfl
  | succ fuel ih =>
    rw [TreeTraversal.visit_children, follow]
    split
    · rfl
    · cases self.index.children[entry.toNat]? with
      | none => rfl
      | some ce =>
        dsimp only [Option.bind_eq_bind, Option.bind_some]
        rw [Option.bind_map]
        cases hchild : self.visit_child visit agg ce with
        | none =>
          cases follow child_cell NO_ENTRY self.index.children fuel (child_cell.next ce) with
          | none => rfl
          | some entries =>
            rw [Option.bind_none, Option.bind_some, Function.comp_apply, visit_entries_cons, hchild]
            rfl
        | some acc =>
          rw [Option.bind_some]
          obtain ⟨sum, middle⟩ := acc
          rw [ih, shape_children (visit_child_shape hvisit hchild)]
          refine congrArg (Option.bind _) (funext fun entries => ?_)
          rw [Function.comp_apply, visit_entries_cons, hchild]
          rfl

/-- At the top, what the file system reserves comes on top of what is below. -/
def TreeTraversal.add_reserved (self : TreeTraversal) (agg : Agg) : Agg :=
  if self.depth = 0 ∧ self.reserved_allocated_bytes > 0 then
    { agg with allocated := saturating_add64 agg.allocated self.reserved_allocated_bytes }
  else agg

def TreeTraversal.deeper (self : TreeTraversal) : TreeTraversal := { self with depth := saturating_add self.depth 1 }

def TreeTraversal.back (self : TreeTraversal) : TreeTraversal :=
  { self with depth := if 1 ≤ self.depth then self.depth - 1 else 0 }

theorem aggregate_children_eq (hvisit : visit.KeepsShape) (fuel : Nat) (self : TreeTraversal) (first_child : UInt32) :
    TreeTraversal.aggregate_children visit fuel self first_child =
      ((follow child_cell NO_ENTRY self.index.children fuel first_child).bind fun entries =>
        TreeTraversal.visit_entries visit entries ({}, self.deeper)).map fun acc =>
          (acc.2.back.add_reserved acc.1, acc.2.back) := by
  rw [TreeTraversal.aggregate_children, visit_children_eq hvisit]
  change Option.bind ((follow child_cell NO_ENTRY self.index.children fuel first_child).bind _) _ = _
  rw [Option.map_eq_bind]
  refine congrArg (Option.bind _) (funext fun acc => ?_)
  obtain ⟨agg, inner⟩ := acc
  rw [Function.comp_apply, TreeTraversal.add_reserved]
  by_cases hreserved : inner.back.depth = 0 ∧ inner.back.reserved_allocated_bytes > 0
  · rw [if_pos hreserved]
    exact if_pos hreserved
  · rw [if_neg hreserved]
    exact if_neg hreserved

theorem aggregate_children_some (hvisit : visit.KeepsShape) {fuel : Nat} {first_child : UInt32} {agg : Agg}
    (h : TreeTraversal.aggregate_children visit fuel self first_child = some (agg, left)) :
    ∃ entries sum inner, follow child_cell NO_ENTRY self.index.children fuel first_child = some entries ∧
      TreeTraversal.visit_entries visit entries ({}, self.deeper) = some (sum, inner) ∧
      agg = inner.back.add_reserved sum ∧ left = inner.back := by
  rw [aggregate_children_eq hvisit] at h
  obtain ⟨⟨sum, inner⟩, hrun, heq⟩ := Option.map_eq_some_iff.mp h
  obtain ⟨entries, hentries, hvisited⟩ := Option.bind_eq_some_iff.mp hrun
  cases heq
  exact ⟨entries, sum, inner, hentries, hvisited, rfl, rfl⟩

theorem preprocess_shape (fuel : Nat) : Visitor.KeepsShape (TreeTraversal.preprocess fuel) := by
  induction fuel with
  | zero => exact fun h => by cases h
  | succ fuel ih =>
    intro self left idx name_info total_names agg h
    rcases preprocess_some h with ⟨-, -, rfl⟩ | ⟨rec, ⟨visit⟩⟩
    · rfl
    · rw [visit.hleft, store_printed_metrics_shape]
      have hmerged := (merge_wof_alloc_index visit.hmerge).1
      have hchildren := visit.hchildren
      split at hchildren
      · obtain ⟨entries, sum, inner, -, hvisited, -, hleft⟩ := aggregate_children_some ih hchildren
        rw [hleft]
        exact (visit_entries_shape ih hvisited).trans hmerged
      · rw [hchildren.2]
        exact hmerged

end entries

end uffs.mft
