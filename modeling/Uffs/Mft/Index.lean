import Uffs.Lib.Slice
import Uffs.Mft.Convert
import Uffs.Text.Utf8

open uffs.lib uffs.text

namespace uffs.mft

/-- Name reference: blob offset, and length (10 bits), flags and extension id packed in `bits`. -/
structure IndexNameRef where
  offset : UInt32 := 0
  bits : UInt32 := 0
deriving DecidableEq, Inhabited

def IndexNameRef.length (self : IndexNameRef) : UInt16 := (self.bits &&& 0x3FF).toUInt16

def IndexNameRef.extension_id (self : IndexNameRef) : UInt16 := (self.bits >>> 16).toUInt16

def IndexNameRef.is_valid (self : IndexNameRef) : Bool := self.offset != NO_ENTRY

/-- One name of a file: the next link of the chain, the name and the parent directory. -/
structure LinkInfo where
  next_entry : UInt32 := NO_ENTRY
  name : IndexNameRef := {}
  parent_frs : UInt64 := 0
deriving DecidableEq, Inhabited

structure SizeInfo where
  length : UInt64 := 0
  allocated : UInt64 := 0
deriving DecidableEq, Inhabited

structure IndexStreamInfo where
  size : SizeInfo := {}
  next_entry : UInt32 := NO_ENTRY
  name : IndexNameRef := {}
  flags : UInt8 := 0
deriving DecidableEq, Inhabited

def IndexStreamInfo.type_name_id (self : IndexStreamInfo) : UInt8 := self.flags >>> 2

/-- Directory indexes and `$DATA` streams are shown. -/
def IndexStreamInfo.is_output_stream (self : IndexStreamInfo) : Bool :=
  self.type_name_id == 0 || self.type_name_id == 8

/-- A stream that is not shown, only its sizes are kept. -/
structure InternalStreamInfo where
  size : SizeInfo := {}
  next_entry : UInt32 := NO_ENTRY
  flags : UInt8 := 0
deriving DecidableEq, Inhabited

structure StandardInfo where
  created : Int64 := 0
  modified : Int64 := 0
  accessed : Int64 := 0
  mft_changed : Int64 := 0
  flags : UInt32 := 0
  usn : UInt64 := 0
  security_id : UInt32 := 0
  owner_id : UInt32 := 0
deriving DecidableEq, Inhabited

def IS_DIRECTORY : UInt32 := 0x10

def StandardInfo.is_directory (self : StandardInfo) : Bool := self.flags &&& IS_DIRECTORY != 0

/-- `set_directory(true)`. -/
def StandardInfo.set_directory (self : StandardInfo) : StandardInfo :=
  { self with flags := self.flags ||| IS_DIRECTORY }

/-- One directory entry: the child, and which of the child's names it is. -/
structure ChildInfo where
  next_entry : UInt32 := NO_ENTRY
  child_frs : UInt64 := 0
  name_index : UInt16 := 0
deriving DecidableEq, Inhabited

structure FileRecord where
  frs : UInt64 := 0
  sequence_number : UInt16 := 0
  name_space : UInt8 := 0
  forensic_flags : UInt8 := 0
  lsn : UInt64 := 0
  reparse_tag : UInt32 := 0
  stdinfo : StandardInfo := {}
  name_count : UInt16 := 1
  stream_count : UInt16 := 1
  total_stream_count : UInt16 := 1
  first_internal_stream : UInt32 := NO_ENTRY
  first_child : UInt32 := NO_ENTRY
  first_name : LinkInfo := {}
  first_stream : IndexStreamInfo := {}
  descendants : UInt32 := 0
  treesize : UInt64 := 0
  tree_allocated : UInt64 := 0
  internal_streams_size : UInt64 := 0
  internal_streams_allocated : UInt64 := 0
  fn_created : Int64 := 0
  fn_modified : Int64 := 0
  fn_accessed : Int64 := 0
  fn_mft_changed : Int64 := 0
deriving DecidableEq, Inhabited

def FileRecord.has_default_data (self : FileRecord) : Bool := self.forensic_flags &&& 0b1000 != 0

def FileRecord.has_i30_stream (self : FileRecord) : Bool := self.forensic_flags &&& 0b10000 != 0

def FileRecord.is_unified (self : FileRecord) : Bool := self.forensic_flags &&& 0b100000 != 0

/-- Empty record of the unified parser: no name, no stream, every count zero. -/
def FileRecord.new_unified (frs : UInt64) : FileRecord where
  frs := frs
  forensic_flags := 0b100000
  name_count := 0
  stream_count := 0
  total_stream_count := 0
  first_name := { name := { offset := NO_ENTRY }, parent_frs := NO_ENTRY.toUInt64 }
  first_stream := { name := { offset := NO_ENTRY } }

/-- The loaded master file table. -/
structure MftIndex where
  records : List FileRecord := []
  frs_to_idx : List UInt32 := []
  names : List UInt8 := []
  links : List LinkInfo := []
  streams : List IndexStreamInfo := []
  internal_streams : List InternalStreamInfo := []
  children : List ChildInfo := []
  reserved_allocated_bytes : UInt64 := 0
  extension_names : List Str := []
  build_epoch : UInt64 := 0

def ROOT_FRS : UInt64 := 5

def MftIndex.get_name_bytes (self : MftIndex) (info : IndexNameRef) : List UInt8 :=
  if info.is_valid then
    (slice? self.names info.offset.toNat (info.offset.toNat + info.length.toNat)).getD []
  else []

/-- A name as text; empty when its bytes are not UTF-8. -/
def MftIndex.get_name (self : MftIndex) (info : IndexNameRef) : Str :=
  (from_utf8 (self.get_name_bytes info)).getD []

def MftIndex.frs_to_idx_opt (self : MftIndex) (frs : UInt64) : Option Nat :=
  match self.frs_to_idx[frs_to_usize frs]? with
  | none => none
  | some idx => if idx = NO_ENTRY then none else some idx.toNat

/-- Entries of a `next_entry` chain from `entry` on. A chain without a cycle has at most as many
entries as the table. -/
def walk_chain {α : Type} (table : List α) (next_entry : α → UInt32) : Nat → UInt32 → List α
  | 0, _ => []
  | fuel + 1, entry =>
    if entry = NO_ENTRY then []
    else
      match table[entry.toNat]? with
      | none => []
      | some item => item :: walk_chain table next_entry fuel (next_entry item)

/-- Further names of a record, after the first. -/
def MftIndex.more_links (self : MftIndex) (record : FileRecord) : List LinkInfo :=
  walk_chain self.links LinkInfo.next_entry self.links.length record.first_name.next_entry

/-- Streams of a record after the first. -/
def MftIndex.more_streams (self : MftIndex) (record : FileRecord) : List IndexStreamInfo :=
  walk_chain self.streams IndexStreamInfo.next_entry self.streams.length record.first_stream.next_entry

def MftIndex.internal_chain (self : MftIndex) (record : FileRecord) : List InternalStreamInfo :=
  walk_chain self.internal_streams InternalStreamInfo.next_entry self.internal_streams.length
    record.first_internal_stream

def MftIndex.child_entries (self : MftIndex) (record : FileRecord) : List ChildInfo :=
  walk_chain self.children ChildInfo.next_entry self.children.length record.first_child

inductive PathState where
  | unseen
  | visiting
  | valid
  | invalid
deriving DecidableEq

def SYSTEM_METAFILE_MAX_FRS : UInt64 := 15

def mark_system_metafiles_invalid (index : MftIndex) : List PathState :=
  index.records.map fun record =>
    if record.frs ≤ SYSTEM_METAFILE_MAX_FRS ∧ record.frs ≠ ROOT_FRS then .invalid else .unseen

/-- Mark the unseen children of one record and queue them. -/
def invalidate_child (index : MftIndex) (acc : List PathState × List Nat) (child : ChildInfo) :
    List PathState × List Nat :=
  match index.frs_to_idx_opt child.child_frs with
  | none => acc
  | some child_idx =>
    if acc.1[child_idx]? = some .unseen then (acc.1.set child_idx .invalid, acc.2 ++ [child_idx]) else acc

/-- Breadth-first propagation. A record is queued when it turns invalid, so at most once. -/
def propagate_invalid (index : MftIndex) : Nat → List Nat → List PathState → List PathState
  | 0, _, state => state
  | _ + 1, [], state => state
  | fuel + 1, parent_idx :: queue, state =>
    match index.records[parent_idx]? with
    | none => propagate_invalid index fuel queue state
    | some record =>
      let (state', queued) := (index.child_entries record).foldl (invalidate_child index) (state, [])
      propagate_invalid index fuel (queue ++ queued) state'

def propagate_invalid_to_descendants (index : MftIndex) (state : List PathState) : List PathState :=
  propagate_invalid index index.records.length
    ((List.range state.length).filter fun idx => state[idx]? = some .invalid) state

/-- Climb the parent chain from `current_idx`. Every step turns a record to `visiting`, so the
climb ends after at most one step per record. -/
def climb (index : MftIndex) : Nat → Nat → List PathState → List Nat → List PathState × List Nat × PathState
  | 0, _, state, chain => (state, chain, .invalid)
  | fuel + 1, current_idx, state, chain =>
    match state[current_idx]? with
    | some .valid => (state, chain, .valid)
    | some .invalid => (state, chain, .invalid)
    | some .visiting => (state, chain, .invalid)
    | _ =>
      let state' := state.set current_idx .visiting
      let chain' := chain ++ [current_idx]
      match index.records[current_idx]? with
      | none => (state', chain', .invalid)
      | some record =>
        let parent_frs := record.first_name.parent_frs
        if parent_frs = ROOT_FRS then (state', chain', .valid)
        else if parent_frs = record.frs ∨ parent_frs = NO_ENTRY.toUInt64 then
          (state', chain', if record.frs = ROOT_FRS then .valid else .invalid)
        else
          match index.frs_to_idx_opt parent_frs with
          | none => (state', chain', .invalid)
          | some parent_idx => climb index fuel parent_idx state' chain'

def validate_one (index : MftIndex) (state : List PathState) (start_idx : Nat) : List PathState :=
  if state[start_idx]? = some .unseen then
    let (state', chain, final_state) := climb index (index.records.length + 1) start_idx state []
    chain.foldl (fun s chain_idx => s.set chain_idx final_state) state'
  else state

def validate_remaining (index : MftIndex) (state : List PathState) : List PathState :=
  (List.range index.records.length).foldl (validate_one index) state

/-- Validity of every record: system metafiles, their descendants, and records whose parent
chain does not reach the root are invalid. -/
def PathResolver.build (index : MftIndex) : List PathState :=
  validate_remaining index (propagate_invalid_to_descendants index (mark_system_metafiles_invalid index))

def PathResolver.is_valid_idx (state : List PathState) (idx : Nat) : Bool :=
  state[idx]? == some .valid

end uffs.mft
