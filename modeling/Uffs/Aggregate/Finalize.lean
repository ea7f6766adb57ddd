import Uffs.Aggregate.Timestamps

open uffs.lib uffs.mft uffs.text uffs.compact
open uffs.daemon (FieldId)

namespace uffs.aggregate

/-! From the state of the accumulators to the rows of the response. -/

inductive DrilldownValue where
  | String (value : Str)
  | U64 (value : UInt64)
  | I64 (value : Int64)
  | Bool (value : Bool)
deriving DecidableEq

structure DrilldownPredicate where
  field : Str
  op : Str
  value : DrilldownValue
deriving DecidableEq

structure FinalizeOptions where
  include_empty_buckets : Bool := false
  query_predicates : List DrilldownPredicate := []

/-- A quotient that is shown as a floating-point number: 0 where there is nothing to divide by. -/
structure Ratio where
  num : UInt64
  den : UInt64
deriving DecidableEq

structure SampleRow where
  fields : List (Str × Str)
  sort_key : Int64
deriving DecidableEq

structure StatsResult where
  count : UInt64
  sum : UInt64
  min : UInt64
  max : UInt64
  avg : Ratio
  waste_bytes : UInt64
  waste_pct : Ratio
deriving DecidableEq

structure BucketRow where
  key : Str
  count : UInt64
  total_bytes : UInt64
  total_allocated : UInt64
  avg_size : Ratio
  min_size : UInt64
  max_size : UInt64
  waste_bytes : UInt64
  waste_pct : Ratio
  share_of_total_count : Ratio
  share_of_total_bytes : Ratio
  sample_rows : List SampleRow := []
  drilldown : List DrilldownPredicate := []
  sub_buckets : List BucketRow := []

structure DuplicateGroup where
  count : UInt64
  total_bytes : UInt64
  file_size : UInt64
  reclaimable_bytes : UInt64
  member_indices : List (Nat × UInt8)
  sample_rows : List SampleRow := []
  verified : Bool
deriving DecidableEq

structure DuplicateResult where
  candidate_groups : Nat
  candidate_files : UInt64
  total_duplicate_bytes : UInt64
  total_reclaimable_bytes : UInt64
  groups : List DuplicateGroup
  verification_mode : DuplicateVerify
deriving DecidableEq

inductive AggregateResultData where
  | Count (value : UInt64)
  | Stats (field : Str) (stats : StatsResult)
  | Buckets (field : Str) (rows : List BucketRow) (other_count : UInt64) (total_groups : Nat)
  | Missing (field : Str) (count : UInt64)
  | Distinct (field : Str) (count : UInt64)
  | Rollup (mode : Str) (rows : List BucketRow)
  | Duplicates (result : DuplicateResult)

structure AggregateResult where
  label : Option Str
  data : AggregateResultData

section texts

def decimal (n : Nat) : Str := (toString n).toList

/-- A number padded with zeros, its sign counted. -/
def padded (width : Nat) (n : Int) : Str :=
  if n < 0 then '-' :: (decimal n.natAbs).leftpad (width - 1) '0' else (decimal n.natAbs).leftpad width '0'

/-- The calendar part never overflows. -/
def format_timestamp_key (filetime : Int64) : Str :=
  match (time.filetime_to_calendar filetime.toInt : Checked Unit _) with
  | .ok (some parts) => padded 4 parts.year ++ '-' :: padded 2 parts.month ++ '-' :: padded 2 parts.day
  | _ => "0000-00-00".toList

def format_range_key (index : Nat) (boundaries : List UInt64) : Str :=
  match boundaries.head?, boundaries.getLast? with
  | some first, some last =>
    if index = 0 then "< ".toList ++ decimal first.toNat
    else if boundaries.length ≤ index then ">= ".toList ++ decimal last.toNat
    else
      match boundaries[index - 1]?, boundaries[index]? with
      | some lo, some hi => decimal lo.toNat ++ " - ".toList ++ decimal hi.toNat
      | _, _ => "bucket_".toList ++ decimal index
  | _, _ => "bucket_".toList ++ decimal index

def format_bool (value : Bool) : Str := if value then "true".toList else "false".toList

/-- A field of a sample row. -/
def format_field (field : FieldId) (record : CompactRecord) (drive : DriveCompactIndex) : Str :=
  match field with
  | .Name => record.name drive.names
  | .Size => decimal record.size.toNat
  | .SizeOnDisk => decimal record.allocated.toNat
  | .Modified => format_timestamp_key record.modified
  | .Created => format_timestamp_key record.created
  | .Accessed => format_timestamp_key record.accessed
  | .Extension => (drive.ext_names[record.extension_id.toNat]?).getD []
  | .Path | .PathOnly => "parent_idx:".toList ++ decimal record.parent_idx.toNat
  | .DirectoryFlag => if flag record 0x0010 then "directory".toList else "file".toList
  | .Hidden => format_bool (flag record 0x0002)
  | .System => format_bool (flag record 0x0004)
  | .ReadOnly => format_bool (flag record 0x0001)
  | .TreeSize => decimal record.treesize.toNat
  | .Descendants => decimal record.descendants.toNat
  | _ => []

def resolve_group_key (calls : Calls) (ext_map : ExtensionMap) (field : FieldId) (key : UInt64) : Str :=
  match field with
  | .Extension => ext_map.resolve key
  | .Drive => [Char.ofNat key.toNat, ':']
  | .Type => semantic_type_name_from_id calls key
  | .DirectoryFlag => if key = 1 then "directory".toList else "file".toList
  | field =>
    if field.field_type == .Bool then format_bool (key == 1)
    else decimal key.toNat

def resolve_rollup_key (mode : RollupMode) (drives : List DriveCompactIndex) (key : UInt64) : Str :=
  let ordinal := (key >>> 32).toNat
  let low := key.toUInt32
  match mode with
  | .Drive => [Char.ofNat low.toNat, ':']
  | .Path _ | .Ancestor _ _ =>
    match drives[ordinal]? with
    | none => "record_".toList ++ decimal low.toNat
    | some drive =>
      match drive.records[low.toNat]? with
      | none => "record_".toList ++ decimal low.toNat
      | some record => drive.letter :: ':' :: '\\' :: record.name drive.names

def rollup_mode_text : RollupMode → Str
  | .Drive => "drive".toList
  | .Path depth => "path(depth=".toList ++ decimal depth.toNat ++ ")".toList
  | .Ancestor record_idx drive => "ancestor(record=".toList ++ decimal record_idx.toNat ++ ", drive=".toList ++ [drive, ')']

end texts

section rows

variable (drives : List DriveCompactIndex)

def materialize_sample_entry (projection : List FieldId) (entry : SampleEntry) : SampleRow where
  fields := projection.map fun field =>
    (field.canonical_name,
      match drives[entry.drive_ordinal.toNat]? with
      | none => []
      | some drive =>
        match drive.records[entry.rec_idx.toNat]? with
        | none => []
        | some record => format_field field record drive)
  sort_key := entry.sort_key

def BucketRow.from_stats (key : Str) (stats : StatsAccumulator) (total_matched total_bytes : UInt64) : BucketRow where
  key := key
  count := stats.count
  total_bytes := stats.sum
  total_allocated := stats.sum_allocated
  avg_size := ⟨stats.sum, stats.count⟩
  min_size := if stats.min = 0xFFFFFFFFFFFFFFFF then 0 else stats.min
  max_size := stats.max
  waste_bytes := stats.waste_bytes
  waste_pct := ⟨stats.waste_bytes, stats.sum_allocated⟩
  share_of_total_count := ⟨stats.count, total_matched⟩
  share_of_total_bytes := ⟨stats.sum, total_bytes⟩

def StatsResult.of_stats (stats : StatsAccumulator) : StatsResult where
  count := stats.count
  sum := stats.sum
  min := if stats.min = 0xFFFFFFFFFFFFFFFF then 0 else stats.min
  max := stats.max
  avg := ⟨stats.sum, stats.count⟩
  waste_bytes := stats.waste_bytes
  waste_pct := ⟨stats.waste_bytes, stats.sum_allocated⟩

/-- The predicates of the query and the key of the bucket, compared as a text. -/
def build_drilldown (query_predicates : List DrilldownPredicate) (bucket_field : FieldId) (display_key : Str) :
    List DrilldownPredicate :=
  query_predicates ++ [⟨bucket_field.canonical_name, "eq".toList, .String display_key⟩]

end rows

/-- `sort_by_key` with the key reversed: stable, largest first. -/
def sort_by_desc {α : Type} (key : α → UInt64) (entries : List α) : List α :=
  entries.insertionSort fun a b => key b ≤ key a

/-- The groups walked, largest first, and the count of those behind the first `top`. -/
def keyed_rows (walk : WalkOrder) (groups : Groups UInt64) : List (UInt64 × StatsAccumulator) :=
  sort_by_desc (·.2.count) (walk.visit groups)

def sum_u64 (values : List UInt64) : UInt64 := values.foldl (· + ·) 0

section finalize

variable (walk : WalkOrder) (calls : Calls) (drives : List DriveCompactIndex) (ext_map : ExtensionMap)

def terms_row (field : FieldId) (options : FinalizeOptions) (total_matched total_bytes : UInt64)
    (samples : UInt64 → List SampleRow) (group : UInt64 × StatsAccumulator) : BucketRow :=
  let key := resolve_group_key calls ext_map field group.1
  { BucketRow.from_stats key group.2 total_matched total_bytes with
    sample_rows := samples group.1
    drilldown := build_drilldown options.query_predicates field key }

def finalize_terms (field : FieldId) (top : UInt16) (groups : Groups UInt64) (samples : UInt64 → List SampleRow)
    (options : FinalizeOptions) (total_matched total_bytes : UInt64) : AggregateResultData :=
  let keyed := keyed_rows walk groups
  .Buckets field.canonical_name
    ((keyed.take top.toNat).map (terms_row calls ext_map field options total_matched total_bytes samples))
    (sum_u64 ((keyed.drop top.toNat).map (·.2.count))) groups.length

/-- The sample rows of a bucket, best first. -/
def sample_rows (spec : TopHitsSpec) (heaps : List (UInt64 × SampleHeap)) (key : UInt64) : List SampleRow :=
  match heaps.lookup key with
  | none => []
  | some heap =>
    (SampleHeap.drain_sorted walk spec heap).map (materialize_sample_entry drives spec.effective_projection)

def finalize_histogram (field : FieldId) (buckets : List StatsAccumulator) (boundaries : List UInt64)
    (options : FinalizeOptions) (total_matched total_bytes : UInt64) : AggregateResultData :=
  .Buckets field.canonical_name
    ((buckets.zipIdx.filter fun entry => options.include_empty_buckets || 0 < entry.1.count).map fun entry =>
      BucketRow.from_stats (format_range_key entry.2 boundaries) entry.1 total_matched total_bytes)
    0 buckets.length

def finalize_date_histogram (field : FieldId) (buckets : Groups Int64) (options : FinalizeOptions)
    (total_matched total_bytes : UInt64) : AggregateResultData :=
  .Buckets field.canonical_name
    (((buckets.insertionSort fun a b => a.1 ≤ b.1).filter fun entry =>
        options.include_empty_buckets || 0 < entry.2.count).map fun entry =>
      BucketRow.from_stats (format_timestamp_key entry.1) entry.2 total_matched total_bytes)
    0 buckets.length

/-- `finalize_rollup`, with what the buckets of a group are. -/
def finalize_rollup (mode : RollupMode) (top : UInt16) (groups : Groups UInt64) (sub_buckets : UInt64 → List BucketRow)
    (total_matched total_bytes : UInt64) : AggregateResultData :=
  .Rollup (rollup_mode_text mode)
    (((sort_by_desc (·.2.sum) (walk.visit groups)).take top.toNat).map fun entry =>
      { BucketRow.from_stats (resolve_rollup_key mode drives entry.1) entry.2 total_matched total_bytes with
        sub_buckets := sub_buckets entry.1 })

/-- What the copies of a file take up beyond one of them, `saturating_sub`. -/
def reclaimable (total_bytes count : UInt64) : UInt64 :=
  if total_bytes < total_bytes / count then 0 else total_bytes - total_bytes / count

/-- A group of at least two candidates. -/
def DuplicateGroup.of_builder (verify : DuplicateVerify) (group : DuplicateGroupBuilder) : DuplicateGroup where
  count := group.stats.count
  total_bytes := group.stats.sum
  file_size := group.stats.sum / group.stats.count
  reclaimable_bytes := reclaimable group.stats.sum group.stats.count
  member_indices := group.members
  verified := verify == .None

/-- The groups without the singletons, largest first. -/
def duplicate_groups (verify : DuplicateVerify) (groups : DuplicateAccumulator) : List DuplicateGroup :=
  sort_by_desc DuplicateGroup.reclaimable_bytes
    (((walk.visit groups).filter fun group => 1 < group.2.stats.count).map fun group => .of_builder verify group.2)

def DuplicateAccumulator.finalize (verify : DuplicateVerify) (groups : DuplicateAccumulator) (top : Nat) :
    DuplicateResult :=
  let sorted := duplicate_groups walk verify groups
  { candidate_groups := sorted.length
    candidate_files := sum_u64 (sorted.map (·.count))
    total_duplicate_bytes := sum_u64 ((sorted.take top).map (·.total_bytes))
    total_reclaimable_bytes := sum_u64 (sorted.map (·.reclaimable_bytes))
    groups := sorted.take top
    verification_mode := verify }

/-- Always the first 100 groups, each with the rows of its members. -/
def finalize_duplicates (verify : DuplicateVerify) (sample : Option TopHitsSpec) (groups : DuplicateAccumulator) :
    AggregateResultData :=
  let result := DuplicateAccumulator.finalize walk verify groups 100
  .Duplicates { result with
    groups := result.groups.map fun group => { group with
      sample_rows := group.member_indices.map fun m =>
        materialize_sample_entry drives (sample.getD {}).effective_projection ⟨0, len_to_u32 m.1, m.2⟩ } }

/-- The buckets of a nested result; other results have none. -/
def sub_result_to_bucket_rows : AggregateResultData → List BucketRow
  | .Buckets _ rows _ _ => rows
  | .Rollup _ rows => rows
  | _ => []

def finalize_one (options : FinalizeOptions) (total_matched total_bytes : UInt64) :
    (kind : AggregateKind) → kind.Accumulator → AggregateResultData
  | .Count, (count : UInt64) => .Count count
  | .Stats field, (stats : StatsAccumulator) => .Stats field.canonical_name (.of_stats stats)
  | .Terms field top none, (groups : Groups UInt64) =>
    finalize_terms walk calls ext_map field top groups (fun _ => []) options total_matched total_bytes
  | .Terms field top (some spec), (groups, heaps) =>
    finalize_terms walk calls ext_map field top groups (sample_rows walk drives spec heaps) options total_matched total_bytes
  | .Histogram field, (buckets : List StatsAccumulator) =>
    finalize_histogram field buckets [] options total_matched total_bytes
  | .Range field boundaries, (buckets : List StatsAccumulator) =>
    finalize_histogram field buckets boundaries options total_matched total_bytes
  | .DateHistogram field _, (buckets : Groups Int64) =>
    finalize_date_histogram field buckets options total_matched total_bytes
  | .Missing field, (count : UInt64) => .Missing field.canonical_name count
  | .Distinct field, (seen : List UInt64) => .Distinct field.canonical_name seen.length.toUInt64
  | .Rollup mode top none, (groups : Groups UInt64) =>
    finalize_rollup walk drives mode top groups (fun _ => []) total_matched total_bytes
  | .Rollup mode top (some sub), (groups, subs) =>
    finalize_rollup walk drives mode top groups (fun key =>
      match subs.lookup key with
      | none => []
      | some acc => sub_result_to_bucket_rows (finalize_one {} total_matched total_bytes sub acc))
      total_matched total_bytes
  | .Duplicates _ verify sample _, (groups : DuplicateAccumulator) => finalize_duplicates walk drives verify sample groups

/-- The bytes that shares are taken of: the first sum of sizes, if one is asked for. -/
def compute_global_bytes : (specs : List AggregateSpec) → Accumulators specs → UInt64
  | [], () => 0
  | ⟨.Stats .Size, _⟩ :: _, (acc, _) => StatsAccumulator.sum acc
  | _ :: rest, (_, accs) => compute_global_bytes rest accs

def finalize_all (options : FinalizeOptions) (total_matched total_bytes : UInt64) :
    (specs : List AggregateSpec) → Accumulators specs → List AggregateResult
  | [], () => []
  | spec :: rest, (acc, accs) =>
    ⟨spec.label, finalize_one walk calls drives ext_map options total_matched total_bytes spec.kind acc⟩ ::
      finalize_all options total_matched total_bytes rest accs

def finalize_with_ext_map (specs : List AggregateSpec) (accumulators : Accumulators specs) (options : FinalizeOptions)
    (total_matched : UInt64) : List AggregateResult :=
  finalize_all walk calls drives ext_map options total_matched (compute_global_bytes specs accumulators) specs accumulators

end finalize

end uffs.aggregate
