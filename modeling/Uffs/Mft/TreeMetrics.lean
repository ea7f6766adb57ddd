import Uffs.Mft.Unified

open uffs.lib uffs.text

namespace uffs.mft

/-- Share of one hard link in a size, by floor division. -/
def delta (value : UInt64) (name_info total_names : UInt32) : UInt64 :=
  if total_names ≤ 1 then value
  else
    value * (name_info.toUInt64 + 1) / total_names.toUInt64 - value * name_info.toUInt64 / total_names.toUInt64

/-- Names count from the last one; a number out of range counts as the last. -/
def compute_name_info_checked (name_index total_names : UInt32) : UInt32 :=
  if total_names ≤ 1 then 0
  else if name_index ≥ total_names then 0
  else total_names - 1 - name_index

/-- Sizes and stream count of a subtree. -/
structure Agg where
  length : UInt64 := 0
  allocated : UInt64 := 0
  treesize : UInt32 := 0
deriving DecidableEq, Inhabited

def Agg.saturating_add (self other : Agg) : Agg where
  length := saturating_add64 self.length other.length
  allocated := saturating_add64 self.allocated other.allocated
  treesize := uffs.lib.saturating_add self.treesize other.treesize

/-- What is read of a record for its own streams. -/
structure RecordSnapshot where
  first_len : UInt64
  first_alloc : UInt64
  name_info : UInt32
  total_names : UInt32
  first_internal_stream : UInt32
  internal_streams_size : UInt64
  internal_streams_allocated : UInt64
  first_stream_next : UInt32
  wof_stream_idx : UInt32

structure TreeTraversal where
  index : MftIndex
  seen : List Bool
  depth : UInt32 := 0
  reserved_allocated_bytes : UInt64

/-! Every loop and the recursion take fuel. No result is either fuel that ran out or a place where
the code indexes a vector out of its bounds. -/

def WOF_NAME : Str := "WofCompressedData".toList

def IO_REPARSE_TAG_WOF : UInt32 := 0x80000017

/-- First stream of the chain with the name of the overlay's compressed data. -/
def MftIndex.find_wof_stream (self : MftIndex) : Nat → UInt32 → Option UInt32
  | 0, _ => none
  | fuel + 1, idx =>
    if idx = NO_ENTRY then some NO_ENTRY
    else
      match self.streams[idx.toNat]? with
      | none => none
      | some stream =>
        if self.get_name stream.name = WOF_NAME then some idx else self.find_wof_stream fuel stream.next_entry

def FileRecord.set_allocated (self : FileRecord) (allocated : UInt64) : FileRecord :=
  { self with first_stream := { self.first_stream with size := { self.first_stream.size with allocated := allocated } } }

/-- The allocated size of the compressed data is added to the default stream and kept there. -/
def TreeTraversal.merge_wof_alloc (self : TreeTraversal) (fuel record_idx : Nat) (rec : FileRecord) :
    Option (UInt32 × UInt64 × TreeTraversal) := do
  let first_alloc := rec.first_stream.size.allocated
  let wof_idx ←
    (if rec.reparse_tag = IO_REPARSE_TAG_WOF then self.index.find_wof_stream fuel rec.first_stream.next_entry
    else some NO_ENTRY)
  if wof_idx = NO_ENTRY then some (wof_idx, first_alloc, self)
  else
    let stream ← self.index.streams[wof_idx.toNat]?
    let first_alloc := saturating_add64 first_alloc stream.size.allocated
    some (wof_idx, first_alloc,
      { self with index := self.index.modify_record record_idx fun rec => rec.set_allocated first_alloc })

/-- Shares of a size pair, added to what was there. -/
def RecordSnapshot.add (snap : RecordSnapshot) (own : SizeInfo) (length allocated : UInt64) : SizeInfo where
  length := saturating_add64 own.length (delta length snap.name_info snap.total_names)
  allocated := saturating_add64 own.allocated (delta allocated snap.name_info snap.total_names)

def MftIndex.add_internal_streams (self : MftIndex) (snap : RecordSnapshot) : Nat → UInt32 → SizeInfo → Option SizeInfo
  | 0, _, _ => none
  | fuel + 1, idx, own =>
    if idx = NO_ENTRY then some own
    else
      match self.internal_streams[idx.toNat]? with
      | none => some own
      | some ist => self.add_internal_streams snap fuel ist.next_entry (snap.add own ist.size.length ist.size.allocated)

/-- Named streams; the compressed data counts nothing here. -/
def MftIndex.add_overflow_streams (self : MftIndex) (snap : RecordSnapshot) : Nat → UInt32 → SizeInfo → Option SizeInfo
  | 0, _, _ => none
  | fuel + 1, stream_idx, own =>
    if stream_idx = NO_ENTRY then some own
    else
      match self.streams[stream_idx.toNat]? with
      | none => some own
      | some stream =>
        let is_wof := stream_idx = snap.wof_stream_idx
        let slen := if is_wof then 0 else stream.size.length
        let salloc := if is_wof then 0 else stream.size.allocated
        self.add_overflow_streams snap fuel stream.next_entry (snap.add own slen salloc)

/-- A record's own streams. An index from the cache has no internal streams, only their sums. -/
def MftIndex.accumulate_own_streams (self : MftIndex) (fuel : Nat) (snap : RecordSnapshot) : Option SizeInfo := do
  let own : SizeInfo :=
    { length := delta snap.first_len snap.name_info snap.total_names
      allocated := delta snap.first_alloc snap.name_info snap.total_names }
  let own ←
    (if snap.first_internal_stream ≠ NO_ENTRY ∧ self.internal_streams ≠ [] then
      self.add_internal_streams snap fuel snap.first_internal_stream own
    else if snap.internal_streams_size > 0 ∨ snap.internal_streams_allocated > 0 then
      some (snap.add own snap.internal_streams_size snap.internal_streams_allocated)
    else some own)
  self.add_overflow_streams snap fuel snap.first_stream_next own

/-- A directory gets what is below it and its own index, a file its default stream. -/
def FileRecord.store_metrics (self : FileRecord) (is_directory : Bool) (children : Agg) (first_len first_alloc : UInt64) :
    FileRecord :=
  if is_directory then
    { self with
      descendants := saturating_add children.treesize 1
      treesize := saturating_add64 children.length first_len
      tree_allocated := saturating_add64 children.allocated first_alloc }
  else { self with descendants := 0, treesize := first_len, tree_allocated := first_alloc }

def TreeTraversal.store_printed_metrics (self : TreeTraversal) (record_idx : Nat) (is_directory : Bool) (children : Agg)
    (first_len first_alloc : UInt64) : TreeTraversal :=
  { self with
    index := self.index.modify_record record_idx fun rec => rec.store_metrics is_directory children first_len first_alloc }

/-- One directory entry; `visit` is the traversal of a child. -/
def TreeTraversal.visit_child (visit : TreeTraversal → Nat → UInt32 → UInt32 → Option (Agg × TreeTraversal))
    (self : TreeTraversal) (agg : Agg) (ce : ChildInfo) : Option (Agg × TreeTraversal) :=
  match self.index.frs_to_idx_opt ce.child_frs with
  | none => some (agg, self)
  | some child_idx => do
    let child ← self.index.records[child_idx]?
    let child_total_names := child.name_count.toUInt32
    let child_name_info := compute_name_info_checked ce.name_index.toUInt32 child_total_names
    let (child_agg, self) ← visit self child_idx child_name_info (max child_total_names 1)
    some (agg.saturating_add child_agg, self)

def TreeTraversal.visit_children (visit : TreeTraversal → Nat → UInt32 → UInt32 → Option (Agg × TreeTraversal)) :
    Nat → TreeTraversal → UInt32 → Agg → Option (Agg × TreeTraversal)
  | 0, _, _, _ => none
  | fuel + 1, self, child_entry_idx, agg =>
    if child_entry_idx = NO_ENTRY then some (agg, self)
    else do
      let ce ← self.index.children[child_entry_idx.toNat]?
      let (agg, self) ← visit_child visit self agg ce
      visit_children visit fuel self ce.next_entry agg

/-- Entries of a directory one level down. What the file system reserves is added back at the top. -/
def TreeTraversal.aggregate_children (visit : TreeTraversal → Nat → UInt32 → UInt32 → Option (Agg × TreeTraversal))
    (fuel : Nat) (self : TreeTraversal) (first_child : UInt32) : Option (Agg × TreeTraversal) := do
  let (agg, self) ← visit_children visit fuel { self with depth := saturating_add self.depth 1 } first_child {}
  let self := { self with depth := if 1 ≤ self.depth then self.depth - 1 else 0 }
  if self.depth = 0 ∧ self.reserved_allocated_bytes > 0 then
    some ({ agg with allocated := saturating_add64 agg.allocated self.reserved_allocated_bytes }, self)
  else some (agg, self)

/-- Metrics of a record and of all below it. The mark `seen` is set here and read by the sweep only. -/
def TreeTraversal.preprocess : Nat → TreeTraversal → Nat → UInt32 → UInt32 → Option (Agg × TreeTraversal)
  | 0, _, _, _, _ => none
  | fuel + 1, self, record_idx, name_info, total_names_raw =>
    match self.index.records[record_idx]? with
    | none => some ({}, self)
    | some rec => do
      let self := { self with seen := self.seen.set record_idx true }
      let (wof_stream_idx, first_alloc, self) ← self.merge_wof_alloc fuel record_idx rec
      let (children, self) ←
        (if rec.stdinfo.is_directory then aggregate_children (preprocess fuel) fuel self rec.first_child
        else some ({}, self))
      let own ← self.index.accumulate_own_streams fuel
        { first_len := rec.first_stream.size.length
          first_alloc := first_alloc
          name_info := name_info
          total_names := max total_names_raw 1
          first_internal_stream := rec.first_internal_stream
          internal_streams_size := rec.internal_streams_size
          internal_streams_allocated := rec.internal_streams_allocated
          first_stream_next := rec.first_stream.next_entry
          wof_stream_idx := wof_stream_idx }
      let own_stream_count := max rec.total_stream_count.toUInt32 1
      some (children.saturating_add { length := own.length, allocated := own.allocated, treesize := own_stream_count },
        self.store_printed_metrics record_idx rec.stdinfo.is_directory children rec.first_stream.size.length first_alloc)

def TreeTraversal.traverse_from_root (fuel : Nat) (self : TreeTraversal) : Option TreeTraversal :=
  match self.index.frs_to_idx_opt ROOT_FRS with
  | none => some self
  | some root_idx => (self.preprocess fuel root_idx 0 1).map Prod.snd

def TreeTraversal.sweep_one (fuel : Nat) (self : TreeTraversal) (idx : Nat) : Option TreeTraversal :=
  if self.seen[idx]? = some false then (self.preprocess fuel idx 0 1).map Prod.snd else some self

/-- Every record not seen yet. -/
def TreeTraversal.sweep_orphans (fuel : Nat) (self : TreeTraversal) : Option TreeTraversal :=
  (List.range self.index.records.length).foldlM (sweep_one fuel) self

def TreeTraversal.run (fuel : Nat) (skip_orphans : Bool) (self : TreeTraversal) : Option TreeTraversal := do
  let self ← self.traverse_from_root fuel
  if skip_orphans then some self else self.sweep_orphans fuel

namespace tree_metrics

def compute_tree_metrics (fuel : Nat) (skip_orphans : Bool) (index : MftIndex) : Option MftIndex :=
  (TreeTraversal.run fuel skip_orphans
    { index := index
      seen := List.replicate index.records.length false
      reserved_allocated_bytes := index.reserved_allocated_bytes }).map TreeTraversal.index

end tree_metrics

/-- Empty record of the older parsers: one name and one stream are counted from the start. -/
def FileRecord.new (frs : UInt64) : FileRecord where
  frs := frs
  first_name := { name := { offset := NO_ENTRY }, parent_frs := NO_ENTRY.toUInt64 }
  first_stream := { name := { offset := NO_ENTRY } }

/-- Place of a directory among the records; an unknown one gets an empty record behind them. -/
def MftIndex.ensure_parent (self : MftIndex) (parent_frs : UInt64) : MftIndex × Nat :=
  let parent_frs_usize := frs_to_usize parent_frs
  let frs_to_idx := self.frs_to_idx ++ List.replicate (parent_frs_usize + 1 - self.frs_to_idx.length) NO_ENTRY
  let frs_slot := frs_to_idx.getD parent_frs_usize NO_ENTRY
  if frs_slot = NO_ENTRY then
    let new_idx := len_to_u32 self.records.length
    ({ self with
        frs_to_idx := frs_to_idx.set parent_frs_usize new_idx
        records := self.records ++ [FileRecord.new parent_frs] }, new_idx.toNat)
  else ({ self with frs_to_idx := frs_to_idx }, frs_slot.toNat)

/-- An entry in front of a directory's chain. -/
def MftIndex.put_entry (self : MftIndex) (parent_idx : Nat) (child_frs : UInt64) (name_index : UInt16) : MftIndex :=
  match self.records[parent_idx]? with
  | none => self
  | some parent_rec =>
    let old_first_child := parent_rec.first_child
    let entry : ChildInfo := { next_entry := old_first_child, child_frs := child_frs, name_index := name_index }
    { self with children := self.children ++ [entry] }.modify_record parent_idx fun rec =>
      { rec with first_child := len_to_u32 self.children.length }

def MftIndex.add_child_entry (self : MftIndex) (parent_frs child_frs : UInt64) (name_index : UInt16) : MftIndex :=
  let (index, parent_idx) := self.ensure_parent parent_frs
  index.put_entry parent_idx child_frs name_index

/-- Directory entries of the names from `current_link` on; the names are stored newest first, so the
name's number is how many are left. -/
def MftIndex.name_edges (self : MftIndex) (child_frs : UInt64) : Nat → LinkInfo → List (UInt64 × UInt64 × UInt16)
  | 0, _ => []
  | left + 1, current_link =>
    let parent_frs := current_link.parent_frs
    (if parent_frs ≠ NO_ENTRY.toUInt64 ∧ parent_frs ≠ child_frs then [(parent_frs, child_frs, UInt16.ofNat left)] else []) ++
      if current_link.next_entry = NO_ENTRY then []
      else
        match self.links[current_link.next_entry.toNat]? with
        | none => []
        | some next_link => self.name_edges child_frs left next_link

def MftIndex.collect_parent_child_edges (self : MftIndex) : List (UInt64 × UInt64 × UInt16) :=
  self.records.flatMap fun rec => self.name_edges rec.frs rec.name_count.toNat rec.first_name

/-- All directory entries anew, from the parents of the names. -/
def MftIndex.rebuild_children_from_names (self : MftIndex) : MftIndex :=
  self.collect_parent_child_edges.foldl (fun index (parent_frs, child_frs, name_index) =>
    index.add_child_entry parent_frs child_frs name_index)
    { self with children := [], records := self.records.map fun rec => { rec with first_child := NO_ENTRY } }

/-- The older parsers count a default stream also when there is none. -/
def FileRecord.drop_phantom_default (self : FileRecord) : FileRecord :=
  if !self.is_unified && !self.stdinfo.is_directory && !self.has_default_data && decide (self.total_stream_count > 1) &&
      (self.first_stream.next_entry != NO_ENTRY || self.first_internal_stream != NO_ENTRY) then
    { self with total_stream_count := self.total_stream_count - 1 }
  else self

/-- A directory was not reached, or the root has no size. -/
def MftIndex.needs_heal (self : MftIndex) : Bool :=
  self.records.any (fun rec => rec.stdinfo.is_directory && rec.descendants == 0) ||
    match self.frs_to_idx_opt ROOT_FRS >>= (self.records[·]?) with
    | none => false
    | some root => root.stdinfo.is_directory && (root.descendants == 0 || root.treesize == 0)

/-- `compute_tree_metrics_impl`. The flags come from the environment and are off by default. -/
def MftIndex.compute_tree_metrics (fuel : Nat) (rebuild_always skip_orphans : Bool) (self : MftIndex) : Option MftIndex := do
  let index := if rebuild_always then self.rebuild_children_from_names else self
  let index := { index with records := index.records.map FileRecord.drop_phantom_default }
  let index ← tree_metrics.compute_tree_metrics fuel skip_orphans index
  if index.needs_heal then tree_metrics.compute_tree_metrics fuel skip_orphans index.rebuild_children_from_names
  else some index

end uffs.mft
