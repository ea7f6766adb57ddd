import Uffs.Mft.Unified

open uffs.lib.arena

namespace uffs.mft

/-! The table of files the parser is for: per file number the names, streams and directory entries,
without the arenas they are stored in. -/

def link_cell : Cell LinkInfo (IndexNameRef × UInt64) where
  next := LinkInfo.next_entry
  set_next link entry := { link with next_entry := entry }
  payload link := (link.name, link.parent_frs)
  next_set_next _ _ := rfl
  payload_set_next _ _ := rfl

def child_cell : Cell ChildInfo (UInt64 × UInt16) where
  next := ChildInfo.next_entry
  set_next child entry := { child with next_entry := entry }
  payload child := (child.child_frs, child.name_index)
  next_set_next _ _ := rfl
  payload_set_next _ _ := rfl

/-- A record without its first name and without the heads of its chains. -/
def FileRecord.blank (self : FileRecord) : FileRecord :=
  { self with
    first_name := {}
    first_stream := { self.first_stream with next_entry := NO_ENTRY }
    first_internal_stream := NO_ENTRY
    first_child := NO_ENTRY }

/-- All that is known of one file: its names with their parents, newest first; its named and its
internal streams, oldest first; its directory entries, newest first. -/
@[ext] structure FileView where
  present : Bool
  record : FileRecord
  links : List (List UInt8 × UInt64) := []
  streams : List (List UInt8 × SizeInfo × UInt8) := []
  internals : List (SizeInfo × UInt8) := []
  children : List (UInt64 × UInt16) := []
deriving DecidableEq, Inhabited

/-- A file number no record was seen for. -/
def FileView.absent (frs : UInt64) : FileView where
  present := false
  record := (FileRecord.new_unified frs).blank

abbrev FileTable := UInt64 → FileView

namespace FileTable

def ensure (table : FileTable) (frs : UInt64) : FileTable :=
  Function.update table frs { table frs with present := true }

def modify (table : FileTable) (frs : UInt64) (f : FileRecord → FileRecord) : FileTable :=
  Function.update table frs { table frs with record := f (table frs).record }

def push_child (table : FileTable) (parent_frs child_frs : UInt64) (name_index : UInt16) : FileTable :=
  let table : FileTable := table.ensure parent_frs
  Function.update table parent_frs
    { table parent_frs with children := (child_frs, name_index) :: (table parent_frs).children }

def store_child (table : FileTable) (frs_base parent_frs : UInt64) : FileTable :=
  if parent_frs ≠ frs_base ∧ parent_frs ≠ NO_ENTRY.toUInt64 then
    table.push_child parent_frs frs_base (table frs_base).record.name_count
  else table

def push_link (table : FileTable) (frs_base : UInt64) (name : List UInt8) (parent_frs : UInt64) : FileTable :=
  Function.update table frs_base { table frs_base with links := (name, parent_frs) :: (table frs_base).links }

def store_file_name (table : FileTable) (frs_base : UInt64) (attr : FileNameAttribute) : FileTable :=
  let table := (table.push_link frs_base attr.name.stored attr.parent_frs).modify frs_base (·.name_times attr)
  (table.store_child frs_base attr.parent_frs).modify frs_base FileRecord.count_name

def store_named_data (table : FileTable) (frs_base : UInt64) (name : DecodedName) (size : SizeInfo) (flags : UInt8) :
    FileTable :=
  Function.update table frs_base
    { table frs_base with
      streams := (table frs_base).streams ++ [(name.stored, size, flags)]
      record := (table frs_base).record.count_stream }

def store_internal (table : FileTable) (frs_base : UInt64) (size : SizeInfo) (flags : UInt8)
    (reparse_tag : Option UInt32) : FileTable :=
  Function.update table frs_base
    { table frs_base with
      internals := (table frs_base).internals ++ [(size, flags)]
      record := (table frs_base).record.add_internal size reparse_tag }

def store_attribute (frs_base : UInt64) (is_directory : Bool) (table : FileTable) (attr : Attribute) : FileTable :=
  match attr with
  | .standard_information info =>
    table.modify frs_base fun rec => { rec with stdinfo := if is_directory then info.set_directory else info }
  | .file_name attr => table.store_file_name frs_base attr
  | .index_i30 size flags => table.modify frs_base fun rec => rec.add_i30 size flags
  | .default_data size flags => table.modify frs_base fun rec => rec.add_default_data size flags
  | .named_data name size flags => table.store_named_data frs_base name size flags
  | .internal size flags reparse_tag => table.store_internal frs_base size flags reparse_tag

def store_segment (table : FileTable) (segment : Segment) : FileTable :=
  let table := (table.ensure segment.base).modify segment.base fun rec => rec.stamp segment.stamp
  let table := segment.attributes.foldl (store_attribute segment.base segment.is_directory) table
  table.modify segment.base fun rec => rec.mark_directory segment.is_directory

end FileTable

/-- Walks of the index are walks of the library. -/
theorem walk_chain_eq {α β : Type} (cell : Cell α β) (table : List α) (fuel : Nat) (entry : UInt32) :
    walk_chain table cell.next fuel entry = walk cell NO_ENTRY table fuel entry := by
  induction fuel generalizing entry with
  | zero => rfl
  | succ fuel ih =>
    rw [walk_chain, walk]
    split
    · rfl
    · cases table[entry.toNat]? with
      | none => rfl
      | some item => exact congrArg (List.cons item) (ih _)

/-- The first name, when there is one, and the names behind it. -/
def MftIndex.link_refs (self : MftIndex) (record : FileRecord) : List (IndexNameRef × UInt64) :=
  (if record.first_name.name.is_valid then [(record.first_name.name, record.first_name.parent_frs)] else []) ++
    contents link_cell NO_ENTRY self.links record.first_name.next_entry

/-- Read out a record with its chains. -/
def MftIndex.view_record (self : MftIndex) (record : FileRecord) : FileView where
  present := true
  record := record.blank
  links := (self.link_refs record).map fun (name, parent_frs) => (self.get_name_bytes name, parent_frs)
  streams := (contents stream_cell NO_ENTRY self.streams record.first_stream.next_entry).map
    fun (name, size, flags) => (self.get_name_bytes name, size, flags)
  internals := contents internal_cell NO_ENTRY self.internal_streams record.first_internal_stream
  children := contents child_cell NO_ENTRY self.children record.first_child

/-- The index as a table of files. -/
def MftIndex.view (self : MftIndex) : FileTable := fun frs =>
  match self.frs_to_idx_opt frs >>= (self.records[·]?) with
  | none => .absent frs
  | some record => self.view_record record

/-- The bytes of a name are inside the blob. -/
def MftIndex.holds_name (self : MftIndex) (name : IndexNameRef) : Prop :=
  name.is_valid = true ∧ name.offset.toNat + name.length.toNat ≤ self.names.length

/-- One arena: the chains that start at these heads share no entry and leave none out. -/
def Threaded {α β : Type} (cell : Cell α β) (table : List α) (heads : List UInt32) : Prop :=
  ∃ paths, Threads cell NO_ENTRY table heads paths

/-- What the parser keeps true of its index. -/
structure Wf (index : MftIndex) : Prop where
  mapped : ∀ {frs i}, index.frs_to_idx_opt frs = some i → ∃ record, index.records[i]? = some record ∧ record.frs = frs
  found : ∀ {i record}, index.records[i]? = some record → index.frs_to_idx_opt record.frs = some i
  links : Threaded link_cell index.links (index.records.map fun record => record.first_name.next_entry)
  streams : Threaded stream_cell index.streams (index.records.map fun record => record.first_stream.next_entry)
  internals : Threaded internal_cell index.internal_streams (index.records.map FileRecord.first_internal_stream)
  children : Threaded child_cell index.children (index.records.map FileRecord.first_child)
  unnamed : ∀ record ∈ index.records, record.first_name.name.is_valid = false → record.first_name.next_entry = NO_ENTRY
  first_names : ∀ record ∈ index.records, record.first_name.name.is_valid = true → index.holds_name record.first_name.name
  link_names : ∀ link ∈ index.links, index.holds_name link.name
  stream_names : ∀ stream ∈ index.streams, index.holds_name stream.name

theorem Wf.empty : Wf MftIndex.new where
  mapped h := by cases h
  found h := by cases h
  links := ⟨[], .nil⟩
  streams := ⟨[], .nil⟩
  internals := ⟨[], .nil⟩
  children := ⟨[], .nil⟩
  unnamed := by simp [MftIndex.new]
  first_names := by simp [MftIndex.new]
  link_names := by simp [MftIndex.new]
  stream_names := by simp [MftIndex.new]

theorem view_empty (frs : UInt64) : MftIndex.new.view frs = .absent frs := rfl

theorem map_modify_eq {α β : Type} (table : List α) (i : Nat) {f : α → α} {g : α → β} (h : ∀ a, g (f a) = g a) :
    (table.modify i f).map g = table.map g := by
  refine List.ext_getElem? fun j => ?_
  rw [List.getElem?_map, List.getElem?_map, List.getElem?_modify]
  cases table[j]? with
  | none => rfl
  | some a =>
    by_cases hij : i = j
    · simp [hij, h]
    · simp [hij]

theorem map_modify_set {α β : Type} {table : List α} {i : Nat} {a : α} (ha : table[i]? = some a) (f : α → α)
    (g : α → β) : (table.modify i f).map g = (table.map g).set i (g (f a)) := by
  obtain ⟨hlt, rfl⟩ := List.getElem?_eq_some_iff.mp ha
  refine List.ext_getElem? fun j => ?_
  rw [List.getElem?_map, List.getElem?_modify, List.getElem?_set, List.getElem?_map, List.length_map]
  by_cases hij : i = j
  · subst hij
    simp [hlt]
  · simp [hij]

theorem mem_modify {α : Type} {table : List α} {i : Nat} {f : α → α} {a : α} (h : a ∈ table.modify i f) :
    a ∈ table ∨ ∃ old, table[i]? = some old ∧ a = f old := by
  obtain ⟨j, hj⟩ := List.mem_iff_getElem?.mp h
  rw [List.getElem?_modify] at hj
  obtain ⟨old, hold, rfl⟩ := Option.map_eq_some_iff.mp hj
  by_cases hij : i = j
  · rw [if_pos hij]
    exact Or.inr ⟨old, hij ▸ hold, rfl⟩
  · rw [if_neg hij]
    exact Or.inl (List.mem_of_getElem? hold)

section view

variable {index : MftIndex} {frs : UInt64} {ri : Nat} {record : FileRecord}

theorem view_of_mapped (hmap : index.frs_to_idx_opt frs = some ri) (hrec : index.records[ri]? = some record) :
    index.view frs = index.view_record record := by
  simp [MftIndex.view, hmap, hrec]

theorem view_of_unmapped (hmap : index.frs_to_idx_opt frs = none) : index.view frs = .absent frs := by
  simp [MftIndex.view, hmap]

theorem Wf.frs_eq (hwf : Wf index) (hmap : index.frs_to_idx_opt frs = some ri) (hrec : index.records[ri]? = some record) :
    record.frs = frs := by
  obtain ⟨record', hrec', hfrs⟩ := hwf.mapped hmap
  rw [hrec] at hrec'
  obtain rfl := Option.some.inj hrec'
  exact hfrs

/-- A step that changes one record and leaves what is read of every other record as it is. -/
theorem Wf.view_update (hwf : Wf index) (next : MftIndex) {changed : FileRecord}
    (hmap : ∀ frs, next.frs_to_idx_opt frs = index.frs_to_idx_opt frs) (hbase : index.frs_to_idx_opt frs = some ri)
    (hchanged : next.records[ri]? = some changed)
    (hother : ∀ j record, j ≠ ri → index.records[j]? = some record →
      next.records[j]? = some record ∧ next.view_record record = index.view_record record) :
    next.view = Function.update index.view frs (next.view_record changed) := by
  funext other
  by_cases hframe : other = frs
  · subst hframe
    rw [Function.update_self]
    exact view_of_mapped ((hmap other).trans hbase) hchanged
  · rw [Function.update_of_ne hframe]
    cases hidx : index.frs_to_idx_opt other with
    | none => rw [view_of_unmapped hidx, view_of_unmapped ((hmap other).trans hidx)]
    | some j =>
      obtain ⟨record, hrec, hfrs⟩ := hwf.mapped hidx
      have hne : j ≠ ri := by
        intro heq
        subst heq
        exact hframe (hfrs.symm.trans (hwf.frs_eq hbase hrec))
      obtain ⟨hrec', hview⟩ := hother j record hne hrec
      rw [view_of_mapped hidx hrec, view_of_mapped ((hmap other).trans hidx) hrec', hview]

end view

end uffs.mft
