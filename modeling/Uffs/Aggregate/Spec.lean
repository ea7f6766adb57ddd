import Uffs.Daemon.Predicates
import Uffs.Lib.KeyMap

open uffs.text
open uffs.daemon (FieldId)

namespace uffs.daemon.FieldId

inductive FieldType where
  | String
  | Numeric
  | Timestamp
  | Enum
  | Bool
  | Bitmask
deriving DecidableEq

def field_type : FieldId → FieldType
  | .Path | .Name | .PathOnly | .Extension | .NameHex => .String
  | .Size | .SizeOnDisk | .Descendants | .TreeSize | .TreeAllocated | .Bulkiness | .NameLength | .PathLength => .Numeric
  | .Created | .Modified | .Accessed => .Timestamp
  | .Drive | .Type => .Enum
  | .Attributes | .AttributeValue | .ParityAttributes => .Bitmask
  | .Hidden | .System | .Archive | .ReadOnly | .Compressed | .Encrypted | .Sparse | .Reparse | .Offline | .NotIndexed
  | .Temporary | .Virtual | .Pinned | .Unpinned | .Integrity | .NoScrub | .DirectoryFlag | .RecallOnOpen
  | .RecallOnDataAccess | .Malformed | .MalformedPath => .Bool

/-- Fields with statistics. -/
def aggregatable (field : FieldId) : Bool := field.field_type == .Numeric || field.field_type == .Timestamp

/-- Fields with ranges of values. -/
def bucket_support (field : FieldId) : Bool := field.field_type == .Numeric || field.field_type == .Timestamp

/-- Fields to group by. -/
def groupable : FieldId → Bool
  | .Name | .PathOnly | .Extension => true
  | field => field.field_type == .Enum || field.field_type == .Bool

def canonical_name (field : FieldId) : Str := (field.names.headD "").toList

end uffs.daemon.FieldId

namespace uffs.aggregate

/-! What one aggregation computes, and the plan made of them. -/

def MAX_SAMPLE_COUNT : UInt8 := 5

/-- The sample rows of a bucket; the count stays in its range. -/
structure TopHitsSpec where
  count : UInt8 := 2
  sort_field : FieldId := .Size
  sort_desc : Bool := true
  projection : List FieldId := []
  count_range : 1 ≤ count ∧ count ≤ MAX_SAMPLE_COUNT := by decide

def DEFAULT_PROJECTION : List FieldId := [.Name, .Size, .Modified, .Path, .Type, .Extension]

def TopHitsSpec.effective_projection (self : TopHitsSpec) : List FieldId :=
  if self.projection.isEmpty then DEFAULT_PROJECTION else self.projection

inductive RollupMode where
  | Drive
  | Path (depth : UInt32)
  | Ancestor (record_idx : UInt32) (drive : Char)
deriving DecidableEq

inductive DuplicateVerify where
  | None
  | FirstBytes (count : UInt32)
  | Sha256
deriving DecidableEq

inductive CalendarInterval where
  | Hour
  | Day
  | Week
  | Month
  | Quarter
  | Year
deriving DecidableEq

inductive AggregateKind where
  | Count
  | Stats (field : FieldId)
  | Terms (field : FieldId) (top : UInt16) (sample : Option TopHitsSpec)
  | Histogram (field : FieldId)
  | DateHistogram (field : FieldId) (calendar : CalendarInterval)
  | Range (field : FieldId) (boundaries : List UInt64)
  | Missing (field : FieldId)
  | Distinct (field : FieldId)
  | Rollup (mode : RollupMode) (top : UInt16) (sub : Option AggregateKind)
  | Duplicates (keys : List FieldId) (verify : DuplicateVerify) (sample : Option TopHitsSpec) (max_groups : UInt32)

structure AggregateSpec where
  kind : AggregateKind
  label : Option Str := none

inductive AggregateError where
  | UnsupportedField (field operation : Str)
  | InvalidConfig (text : Str)
deriving DecidableEq

/-- An operation on a field that does not support it. -/
def require (supported : Bool) (field : FieldId) (operation : String) : Except AggregateError Unit :=
  if supported then .ok () else .error (.UnsupportedField field.canonical_name operation.toList)

def validate_spec (spec : AggregateSpec) : Except AggregateError Unit :=
  match spec.kind with
  | .Count | .Missing _ | .Rollup _ _ _ | .Duplicates _ _ _ _ => .ok ()
  | .Stats field => require field.aggregatable field "stats (sum/min/max/avg)"
  | .Terms field _ _ => require field.groupable field "terms (group-by)"
  | .Histogram field | .Range field _ => require field.bucket_support field "histogram/range (bucket)"
  | .DateHistogram field _ => require field.bucket_support field "date_histogram"
  | .Distinct field => require field.groupable field "distinct count"

/-- The specifications in execution order, each validated. -/
structure AggregatePlan where
  specs : List AggregateSpec
  valid : specs.forM validate_spec = .ok ()

def AggregatePlan.compile (specs : List AggregateSpec) : Except AggregateError AggregatePlan :=
  match h : specs.forM validate_spec with
  | .ok () => .ok ⟨specs, h⟩
  | .error e => .error e

end uffs.aggregate
