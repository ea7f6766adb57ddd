import Uffs.Aggregate.Spec

open uffs.lib uffs.mft uffs.text uffs.compact
open uffs.daemon (FieldId)

namespace uffs.aggregate

/-! What an aggregation keeps while the records are fed to it, and how two of its parts are put together.

The fixed part of an accumulator (its field, its limits) stays with the kind it was made from. -/

/-- Calls out of the engine: the standard hasher on an extension and on a name, and the table of categories. -/
structure Calls where
  hash_ext : Option Str → UInt64
  hash_name : Str → UInt64
  categories : List (Str × List Str)

/-- `nonneg_to_u64`. -/
def nonneg_to_u64 (value : Int64) : UInt64 := if value < 0 then 0 else value.toUInt64

structure StatsAccumulator where
  count : UInt64 := 0
  sum : UInt64 := 0
  min : UInt64 := 0xFFFFFFFFFFFFFFFF
  max : UInt64 := 0
  sum_allocated : UInt64 := 0
deriving DecidableEq, Inhabited

namespace StatsAccumulator

def new : StatsAccumulator := {}

def feed_value (self : StatsAccumulator) (value allocated : UInt64) : StatsAccumulator where
  count := self.count + 1
  sum := self.sum + value
  min := if value < self.min then value else self.min
  max := if self.max < value then value else self.max
  sum_allocated := self.sum_allocated + allocated

def merge (self other : StatsAccumulator) : StatsAccumulator where
  count := self.count + other.count
  sum := self.sum + other.sum
  min := if other.min < self.min then other.min else self.min
  max := if self.max < other.max then other.max else self.max
  sum_allocated := self.sum_allocated + other.sum_allocated

/-- `saturating_sub`. -/
def waste_bytes (self : StatsAccumulator) : UInt64 :=
  if self.sum_allocated < self.sum then 0 else self.sum_allocated - self.sum

end StatsAccumulator

section records

/-- The extensions of all drives in one numbering. -/
structure ExtensionMap where
  per_drive : List (List UInt64)
  canonical_names : List Str

namespace ExtensionMap

/-- The number of an extension, appended where it is new. -/
def number (names : List Str) (ext : Str) : UInt64 × List Str :=
  match names.idxOf? ext with
  | some id => (id.toUInt64, names)
  | none => (names.length.toUInt64, names ++ [ext])

def build (drives : List DriveCompactIndex) : ExtensionMap :=
  drives.foldl (fun map drive =>
    let (mapping, names) := drive.ext_names.foldl (fun (mapping, names) ext =>
      let (id, names) := number names ext
      (mapping ++ [id], names)) ([], map.canonical_names)
    ⟨map.per_drive ++ [mapping], names⟩) ⟨[], []⟩

def canonical_id (self : ExtensionMap) (drive_ordinal : UInt8) (local_ext_id : UInt16) : UInt64 :=
  ((self.per_drive[drive_ordinal.toNat]?).bind (·[local_ext_id.toNat]?)).getD 0xFFFFFFFFFFFFFFFF

def resolve (self : ExtensionMap) (canonical_id : UInt64) : Str :=
  (self.canonical_names[canonical_id.toNat]?).getD ("ext:".toList ++ (toString canonical_id.toNat).toList)

end ExtensionMap

/-- What a scan feeds: a record with its drive, its slot there and the position of the drive. -/
structure Fed where
  record : CompactRecord
  drive : DriveCompactIndex
  idx : Nat
  drive_ordinal : UInt8

/-- A flag of the record. -/
def flag (record : CompactRecord) (mask : UInt32) : Bool := record.flags &&& mask != 0

def bit (set : Bool) : UInt64 := if set then 1 else 0

def extract_value (field : FieldId) (record : CompactRecord) : UInt64 :=
  match field with
  | .Size => record.size
  | .SizeOnDisk => record.allocated
  | .TreeSize => record.treesize
  | .TreeAllocated => record.tree_allocated
  | .Descendants => record.descendants.toUInt64
  | .NameLength => record.name_len.toUInt64
  | .PathLength => record.path_len.toUInt64
  | .Created => nonneg_to_u64 record.created
  | .Modified => nonneg_to_u64 record.modified
  | .Accessed => nonneg_to_u64 record.accessed
  | _ => 0

def extract_timestamp (field : FieldId) (record : CompactRecord) : Int64 :=
  match field with
  | .Created => record.created
  | .Modified => record.modified
  | .Accessed => record.accessed
  | _ => 0

/-- The position of the category that lists the extension, counted from 1; 0 for "other". -/
def semantic_type_id_from_extension (calls : Calls) (ext : Str) : UInt64 :=
  match calls.categories.findIdx? fun category => category.2.contains ext with
  | some i => i.toUInt64 + 1
  | none => 0

/-- "directory" and "file" stand behind the categories. -/
def SEMANTIC_TYPE_ID_DIRECTORY (calls : Calls) : UInt64 := calls.categories.length.toUInt64 + 1
def SEMANTIC_TYPE_ID_FILE (calls : Calls) : UInt64 := calls.categories.length.toUInt64 + 2

def SEMANTIC_TYPE_NAMES (calls : Calls) : List Str :=
  "other".toList :: calls.categories.map Prod.fst ++ ["directory".toList, "file".toList]

def semantic_type_name_from_id (calls : Calls) (id : UInt64) : Str :=
  ((SEMANTIC_TYPE_NAMES calls)[id.toNat]?).getD "other".toList

/-- An extension of more than 16 bytes is not put in lower case. -/
def lower_short (ext : Str) : Str :=
  if (as_bytes ext).length ≤ 16 then uffs.search.to_ascii_lowercase ext else ext

/-- The category of a record, by what stands behind the last dot of its name. -/
def type_key (calls : Calls) (record : CompactRecord) (drive : DriveCompactIndex) : UInt64 :=
  if flag record 0x0010 then SEMANTIC_TYPE_ID_DIRECTORY calls
  else
    match rsplit_dot (record.name drive.names) with
    | none => SEMANTIC_TYPE_ID_FILE calls
    | some (_, ext) => semantic_type_id_from_extension calls (lower_short ext)

def extract_group_key (calls : Calls) (ext_map : ExtensionMap) (field : FieldId) (fed : Fed) : UInt64 :=
  match field with
  | .Extension => ext_map.canonical_id fed.drive_ordinal fed.record.extension_id
  | .Drive => fed.drive.letter.toNat.toUInt64
  | .Type => type_key calls fed.record fed.drive
  | .DirectoryFlag => bit (flag fed.record 0x0010)
  | .Hidden => bit (flag fed.record 0x0002)
  | .System => bit (flag fed.record 0x0004)
  | .ReadOnly => bit (flag fed.record 0x0001)
  | .Compressed => bit (flag fed.record 0x0800)
  | .Encrypted => bit (flag fed.record 0x4000)
  | .Archive => bit (flag fed.record 0x0020)
  | .Sparse => bit (flag fed.record 0x0200)
  | .Reparse => bit (flag fed.record 0x0400)
  | .Temporary => bit (flag fed.record 0x0100)
  | .Offline => bit (flag fed.record 0x1000)
  | .NotIndexed => bit (flag fed.record 0x2000)
  | .Virtual => bit (flag fed.record 0x10000)
  | .Integrity => bit (flag fed.record 0x8000)
  | .NoScrub => bit (flag fed.record 0x20000)
  | .Pinned => bit (flag fed.record 0x80000)
  | .Unpinned => bit (flag fed.record 0x100000)
  | .RecallOnOpen => bit (flag fed.record 0x40000)
  | .RecallOnDataAccess => bit (flag fed.record 0x400000)
  | _ => 0

def is_missing (field : FieldId) (record : CompactRecord) : Bool :=
  match field with
  | .Extension => record.extension_id == 0
  | .Size => record.size == 0
  | .SizeOnDisk => record.allocated == 0
  | .Created => record.created == 0
  | .Modified => record.modified == 0
  | .Accessed => record.accessed == 0
  | _ => false

def FILETIME_TICKS_PER_SECOND : Int64 := 10000000

/-- Down to the start of the interval; months, quarters and years have 30, 90 and 365 days. -/
def truncate_timestamp (filetime : Int64) (calendar : CalendarInterval) : Int64 :=
  let ticks_per_hour := FILETIME_TICKS_PER_SECOND * 3600
  let ticks_per_day := FILETIME_TICKS_PER_SECOND * 86400
  match calendar with
  | .Hour => filetime / ticks_per_hour * ticks_per_hour
  | .Day => filetime / ticks_per_day * ticks_per_day
  | .Week => (filetime / ticks_per_day - filetime / ticks_per_day % 7) * ticks_per_day
  | .Month => filetime / (ticks_per_day * 30) * (ticks_per_day * 30)
  | .Quarter => filetime / (ticks_per_day * 90) * (ticks_per_day * 90)
  | .Year => filetime / (ticks_per_day * 365) * (ticks_per_day * 365)

end records

section samples

/-- A candidate for the sample rows of a bucket. -/
structure SampleEntry where
  sort_key : Int64
  rec_idx : UInt32
  drive_ordinal : UInt8
deriving DecidableEq

/-- `self` is kept rather than `other`: by the sort key, on a tie by the slot. -/
def SampleEntry.better (sort_desc : Bool) (self other : SampleEntry) : Bool :=
  (if sort_desc then other.sort_key < self.sort_key else self.sort_key < other.sort_key) ||
    (self.sort_key == other.sort_key && self.rec_idx < other.rec_idx)

/-- The candidates kept so far, in no fixed order. -/
abbrev SampleHeap := List SampleEntry

namespace SampleHeap

def extract_sort_key (field : FieldId) (record : CompactRecord) : Int64 :=
  match field with
  | .Size => record.size.toInt64
  | .SizeOnDisk => record.allocated.toInt64
  | .Modified => record.modified
  | .Created => record.created
  | .Accessed => record.accessed
  | .NameLength => record.name_len.toUInt64.toInt64
  | .PathLength => record.path_len.toUInt64.toInt64
  | .TreeSize => record.treesize.toInt64
  | .TreeAllocated => record.tree_allocated.toInt64
  | .Descendants => record.descendants.toUInt64.toInt64
  | .DirectoryFlag => (bit (flag record 0x0010)).toInt64
  | .Hidden => (bit (flag record 0x0002)).toInt64
  | .System => (bit (flag record 0x0004)).toInt64
  | .ReadOnly => (bit (flag record 0x0001)).toInt64
  | .Compressed => (bit (flag record 0x0800)).toInt64
  | .Encrypted => (bit (flag record 0x4000)).toInt64
  | .Archive => (bit (flag record 0x0020)).toInt64
  | _ => 0

def entry_of (spec : TopHitsSpec) (fed : Fed) : SampleEntry where
  sort_key := extract_sort_key spec.sort_field fed.record
  rec_idx := len_to_u32 fed.idx
  drive_ordinal := fed.drive_ordinal

variable (walk : WalkOrder) (spec : TopHitsSpec)

/-- The entry to evict first: one that no other entry is worse than. -/
def peek (heap : SampleHeap) : Option SampleEntry :=
  match walk.visit heap with
  | [] => none
  | first :: rest => some (rest.foldl (fun worst entry => if worst.better spec.sort_desc entry then entry else worst) first)

def push_entry (heap : SampleHeap) (entry : SampleEntry) : SampleHeap :=
  if heap.length < spec.count.toNat then heap ++ [entry]
  else
    match peek walk spec heap with
    | some worst => if entry.better spec.sort_desc worst then heap.erase worst ++ [entry] else heap
    | none => heap

def push (heap : SampleHeap) (fed : Fed) : SampleHeap := push_entry walk spec heap (entry_of spec fed)

def merge (heap other : SampleHeap) : SampleHeap := (walk.visit other).foldl (push_entry walk spec) heap

/-- Best entry first; a stable sort. -/
def drain_sorted (heap : SampleHeap) : List SampleEntry :=
  (walk.visit heap).insertionSort fun a b => ¬ b.better spec.sort_desc a

end SampleHeap

end samples

section duplicates

structure CompositeKey where
  components : List UInt64
  name_hash : UInt64
deriving DecidableEq

/-- What a field adds to the components of a key. -/
def key_component (calls : Calls) (fed : Fed) : FieldId → Option UInt64
  | .Size => some fed.record.size
  | .SizeOnDisk => some fed.record.allocated
  | .Extension => some (calls.hash_ext fed.drive.ext_names[fed.record.extension_id.toNat]?)
  | .Modified => some (nonneg_to_u64 fed.record.modified)
  | .Created => some (nonneg_to_u64 fed.record.created)
  | _ => none

def CompositeKey.from_record (calls : Calls) (key_fields : List FieldId) (fed : Fed) : CompositeKey where
  components := key_fields.filterMap (key_component calls fed)
  name_hash :=
    if .Name ∈ key_fields then calls.hash_name (uffs.search.to_ascii_lowercase (fed.record.name fed.drive.names)) else 0

structure DuplicateGroupBuilder where
  stats : StatsAccumulator := .new
  members : List (Nat × UInt8) := []
deriving DecidableEq

def DuplicateGroupBuilder.add (max_sample : UInt8) (fed : Fed) (self : DuplicateGroupBuilder) : DuplicateGroupBuilder where
  stats := self.stats.feed_value fed.record.size fed.record.allocated
  members :=
    if self.members.length < max_sample.toNat then self.members ++ [(fed.idx, fed.drive_ordinal)] else self.members

/-- The groups of candidates by key. -/
abbrev DuplicateAccumulator := List (CompositeKey × DuplicateGroupBuilder)

namespace DuplicateAccumulator

/-- Directories and empty files are no duplicates. -/
def candidate (fed : Fed) : Bool := !flag fed.record 0x0010 && fed.record.size != 0

/-- The group of a key that is there, updated. -/
def update (groups : DuplicateAccumulator) (key : CompositeKey) (f : DuplicateGroupBuilder → DuplicateGroupBuilder) :
    DuplicateAccumulator :=
  groups.map fun group => if group.1 = key then (group.1, f group.2) else group

variable (calls : Calls) (key_fields : List FieldId) (max_groups : UInt32) (sample : UInt8)

def feed (groups : DuplicateAccumulator) (fed : Fed) : DuplicateAccumulator :=
  if !candidate fed then groups
  else
    let key := CompositeKey.from_record calls key_fields fed
    if max_groups ≤ len_to_u32 groups.length then update groups key (.add sample fed)
    else upsert key (DuplicateGroupBuilder.add sample fed {}) (.add sample fed) groups

/-- Put a group of another accumulator to those here. -/
def merge_group (groups : DuplicateAccumulator) (other : CompositeKey × DuplicateGroupBuilder) : DuplicateAccumulator :=
  if other.1 ∈ groups.map Prod.fst then
    update groups other.1 fun existing =>
      { stats := existing.stats.merge other.2.stats
        members := existing.members ++ other.2.members.take (sample.toNat - existing.members.length) }
  else if len_to_u32 groups.length < max_groups then groups ++ [other]
  else groups

def merge (walk : WalkOrder) (groups other : DuplicateAccumulator) : DuplicateAccumulator :=
  (walk.visit other).foldl (merge_group max_groups sample) groups

end DuplicateAccumulator

/-- Two sample rows for a group unless the specification says otherwise. -/
def sample_count (sample : Option TopHitsSpec) : UInt8 := (sample.map TopHitsSpec.count).getD 2

end duplicates

section rollup

/-- The chain of parents from a slot on; it ends at a root, at slot 0 or after 256 rows. -/
def parent_chain (records : List CompactRecord) : Nat → UInt32 → List UInt32
  | 0, _ => []
  | fuel + 1, current =>
    current ::
      match records[current.toNat]? with
      | none => []
      | some record =>
        if record.parent_idx = current ∨ record.parent_idx = 0 then [] else parent_chain records fuel record.parent_idx

def ancestor_at_depth (drive : DriveCompactIndex) (idx : Nat) (target_depth : UInt32) : UInt32 :=
  ((parent_chain drive.records 256 (len_to_u32 idx)).reverse[target_depth.toNat]?).getD (len_to_u32 idx)

/-- The climb to an ancestor, with the child last passed. -/
def climb_to (records : List CompactRecord) (ancestor_idx : UInt32) : Nat → UInt32 → UInt32 → Option UInt32
  | 0, _, _ => none
  | fuel + 1, current, child =>
    if current = ancestor_idx then some child
    else
      match records[current.toNat]? with
      | none => none
      | some record =>
        if record.parent_idx = current then none else climb_to records ancestor_idx fuel record.parent_idx current

def child_of_ancestor (drive : DriveCompactIndex) (idx : Nat) (ancestor_idx : UInt32) : UInt32 :=
  (climb_to drive.records ancestor_idx 256 (len_to_u32 idx) (len_to_u32 idx)).getD (len_to_u32 idx)

def encode_rollup_key (drive_ordinal : UInt8) (low : UInt32) : UInt64 :=
  (drive_ordinal.toUInt64 <<< 32) ||| low.toUInt64

/-- The bucket of a record; none for a record out of the scope of the rollup. -/
def rollup_key (mode : RollupMode) (fed : Fed) : Option UInt64 :=
  match mode with
  | .Drive => some (encode_rollup_key fed.drive_ordinal fed.drive.letter.toNat.toUInt32)
  | .Path depth => some (encode_rollup_key fed.drive_ordinal (ancestor_at_depth fed.drive fed.idx depth))
  | .Ancestor record_idx target =>
    if fed.drive.letter != target then none
    else some (encode_rollup_key fed.drive_ordinal (child_of_ancestor fed.drive fed.idx record_idx))

end rollup

/-- Statistics by key. -/
abbrev Groups (κ : Type) := List (κ × StatsAccumulator)

namespace Groups

variable {κ : Type} [DecidableEq κ]

def feed (groups : Groups κ) (key : κ) (record : CompactRecord) : Groups κ :=
  upsert key (StatsAccumulator.new.feed_value record.size record.allocated)
    (·.feed_value record.size record.allocated) groups

def merge (walk : WalkOrder) (groups other : Groups κ) : Groups κ :=
  (walk.visit other).foldl (fun groups entry => upsert entry.1 entry.2 (·.merge entry.2) groups) groups

end Groups

/-- The state of an accumulator of a kind. -/
def AggregateKind.Accumulator : AggregateKind → Type
  | .Count => UInt64
  | .Stats _ => StatsAccumulator
  | .Terms _ _ none => Groups UInt64
  | .Terms _ _ (some _) => Groups UInt64 × List (UInt64 × SampleHeap)
  | .Histogram _ => List StatsAccumulator
  | .Range _ _ => List StatsAccumulator
  | .DateHistogram _ _ => Groups Int64
  | .Missing _ => UInt64
  | .Distinct _ => List UInt64
  | .Rollup _ _ none => Groups UInt64
  | .Rollup _ _ (some sub) => Groups UInt64 × List (UInt64 × sub.Accumulator)
  | .Duplicates _ _ _ _ => DuplicateAccumulator

namespace GroupAccumulator

def from_kind : (kind : AggregateKind) → kind.Accumulator
  | .Count => (0 : UInt64)
  | .Stats _ => StatsAccumulator.new
  | .Terms _ _ none => ([] : Groups UInt64)
  | .Terms _ _ (some _) => (([], []) : Groups UInt64 × List (UInt64 × SampleHeap))
  | .Histogram _ => ([] : List StatsAccumulator)
  | .Range _ boundaries => List.replicate (boundaries.length + 1) StatsAccumulator.new
  | .DateHistogram _ _ => ([] : Groups Int64)
  | .Missing _ => (0 : UInt64)
  | .Distinct _ => ([] : List UInt64)
  | .Rollup _ _ none => ([] : Groups UInt64)
  | .Rollup _ _ (some sub) => (([], []) : Groups UInt64 × List (UInt64 × sub.Accumulator))
  | .Duplicates _ _ _ _ => ([] : DuplicateAccumulator)

/-- The bucket of a value, fed; missing buckets are made. -/
def feed_bucket (boundaries : List UInt64) (value : UInt64) (record : CompactRecord) (buckets : List StatsAccumulator) :
    List StatsAccumulator :=
  let bucket_idx := (boundaries.takeWhile (· ≤ value)).length
  let grown := buckets ++ List.replicate (bucket_idx + 1 - buckets.length) StatsAccumulator.new
  grown.modify bucket_idx (·.feed_value record.size record.allocated)

/-- Bucket by bucket; the shorter side grows. -/
def merge_buckets (a b : List StatsAccumulator) : List StatsAccumulator :=
  let grown := a ++ List.replicate (b.length - a.length) StatsAccumulator.new
  List.zipWith (·.merge ·) grown (b ++ List.replicate (grown.length - b.length) StatsAccumulator.new)

variable (walk : WalkOrder) (calls : Calls) (ext_map : ExtensionMap)

def feed : (kind : AggregateKind) → kind.Accumulator → Fed → kind.Accumulator
  | .Count, (count : UInt64), _ => (count + 1 : UInt64)
  | .Stats field, (stats : StatsAccumulator), fed => stats.feed_value (extract_value field fed.record) fed.record.allocated
  | .Terms field _ none, (groups : Groups UInt64), fed =>
    groups.feed (extract_group_key calls ext_map field fed) fed.record
  | .Terms field _ (some spec), (groups, heaps), fed =>
    let key := extract_group_key calls ext_map field fed
    (Groups.feed groups key fed.record, upsert key (SampleHeap.push walk spec [] fed) (SampleHeap.push walk spec · fed) heaps)
  | .Histogram field, (buckets : List StatsAccumulator), fed =>
    feed_bucket [] (extract_value field fed.record) fed.record buckets
  | .Range field boundaries, (buckets : List StatsAccumulator), fed =>
    feed_bucket boundaries (extract_value field fed.record) fed.record buckets
  | .DateHistogram field calendar, (buckets : Groups Int64), fed =>
    buckets.feed (truncate_timestamp (extract_timestamp field fed.record) calendar) fed.record
  | .Missing field, (count : UInt64), fed => if is_missing field fed.record then (count + 1 : UInt64) else count
  | .Distinct field, (seen : List UInt64), fed => seen.insert (extract_group_key calls ext_map field fed)
  | .Rollup mode _ none, (groups : Groups UInt64), fed =>
    match rollup_key mode fed with
    | none => groups
    | some key => groups.feed key fed.record
  | .Rollup mode _ (some sub), (groups, subs), fed =>
    match rollup_key mode fed with
    | none => (groups, subs)
    | some key =>
      (Groups.feed groups key fed.record, upsert key (feed sub (from_kind sub) fed) (fun acc => feed sub acc fed) subs)
  | .Duplicates keys _ sample max_groups, (groups : DuplicateAccumulator), fed =>
    groups.feed calls keys max_groups (sample_count sample) fed

def merge : (kind : AggregateKind) → kind.Accumulator → kind.Accumulator → kind.Accumulator
  | .Count, (a : UInt64), (b : UInt64) => (a + b : UInt64)
  | .Stats _, (a : StatsAccumulator), (b : StatsAccumulator) => a.merge b
  | .Terms _ _ none, (a : Groups UInt64), (b : Groups UInt64) => a.merge walk b
  | .Terms _ _ (some spec), (a, a_heaps), (b, b_heaps) =>
    (Groups.merge walk a b, (walk.visit b_heaps).foldl (fun heaps entry =>
      upsert entry.1 entry.2 (SampleHeap.merge walk spec · entry.2) heaps) a_heaps)
  | .Histogram _, (a : List StatsAccumulator), (b : List StatsAccumulator) => merge_buckets a b
  | .Range _ _, (a : List StatsAccumulator), (b : List StatsAccumulator) => merge_buckets a b
  | .DateHistogram _ _, (a : Groups Int64), (b : Groups Int64) => a.merge WalkOrder.forward b
  | .Missing _, (a : UInt64), (b : UInt64) => (a + b : UInt64)
  | .Distinct _, (a : List UInt64), (b : List UInt64) => (walk.visit b).foldl (fun seen key => seen.insert key) a
  | .Rollup _ _ none, (a : Groups UInt64), (b : Groups UInt64) => a.merge walk b
  | .Rollup _ _ (some sub), (a, a_subs), (b, b_subs) =>
    (Groups.merge walk a b, (walk.visit b_subs).foldl (fun subs entry =>
      upsert entry.1 entry.2 (fun acc => merge sub acc entry.2) subs) a_subs)
  | .Duplicates _ _ sample max_groups, (a : DuplicateAccumulator), (b : DuplicateAccumulator) =>
    a.merge max_groups (sample_count sample) walk b

end GroupAccumulator

/-- The accumulators of the specifications of a plan. -/
def Accumulators : List AggregateSpec → Type
  | [] => Unit
  | spec :: rest => spec.kind.Accumulator × Accumulators rest

namespace Accumulators

variable (walk : WalkOrder) (calls : Calls) (ext_map : ExtensionMap)

def create_accumulators : (specs : List AggregateSpec) → Accumulators specs
  | [] => ()
  | spec :: rest => (GroupAccumulator.from_kind spec.kind, create_accumulators rest)

def feed : (specs : List AggregateSpec) → Accumulators specs → Fed → Accumulators specs
  | [], (), _ => ()
  | spec :: rest, (acc, accs), fed => (GroupAccumulator.feed walk calls ext_map spec.kind acc fed, feed rest accs fed)

def merge_accumulator_sets : (specs : List AggregateSpec) → Accumulators specs → Accumulators specs → Accumulators specs
  | [], (), () => ()
  | spec :: rest, (left, lefts), (right, rights) =>
    (GroupAccumulator.merge walk spec.kind left right, merge_accumulator_sets rest lefts rights)

end Accumulators

end uffs.aggregate
