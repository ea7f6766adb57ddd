import Uffs.Aggregate.Finalize
import Uffs.Lib.Reduction

open uffs.lib uffs.text uffs.bloom uffs.compact
open uffs.daemon (FieldId)
open uffs.search (SearchFilters)

namespace uffs.aggregate

/-! The scans that feed the accumulators of a plan, drive by drive. -/

/-- What a run leaves open: the order of hash maps and heaps, and how parallel parts are joined. -/
structure Runtime where
  walk : WalkOrder
  rayon : JoinOrder

/-- Every map walked as filled, every part joined in turn. -/
def Runtime.plain : Runtime := ⟨.forward, .sequential⟩

structure AggregateOutput where
  response : List AggregateResult
  records_scanned : UInt64
  records_matched : UInt64

structure AggregateFilter where
  extensions : List Str := []
  directory_only : Option Bool := none
  min_size : Option UInt64 := none
  max_size : Option UInt64 := none
deriving DecidableEq

namespace AggregateFilter

def is_empty (self : AggregateFilter) : Bool :=
  self.extensions.isEmpty && self.directory_only.isNone && self.min_size.isNone && self.max_size.isNone

def matches_filter (self : AggregateFilter) (record : CompactRecord) (resolved_ext_ids : List UInt16) : Bool :=
  (self.directory_only.all fun dirs_only => record.is_directory == dirs_only) &&
    (self.extensions.isEmpty || resolved_ext_ids.contains record.extension_id) &&
    uffs.search.at_least self.min_size record.size && uffs.search.at_most self.max_size record.size

end AggregateFilter

/-- `u8::try_from(position).unwrap_or(u8::MAX)`. -/
def drive_ordinal (position : Nat) : UInt8 := if position < UInt8.size then position.toUInt8 else 0xFF

/-- The records of a drive with their slots. -/
def fed_records (drive : DriveCompactIndex) (ordinal : UInt8) : List Fed :=
  drive.records.zipIdx.map fun entry => ⟨entry.1, drive, entry.2, ordinal⟩

/-- What the scan of one drive hands to the reducer. -/
structure DriveScan (specs : List AggregateSpec) where
  accumulators : Accumulators specs
  scanned : UInt64
  matched : UInt64

section engine

variable (runtime : Runtime) (calls : Calls)

/-- The fed records put into fresh accumulators. -/
def feed_all (ext_map : ExtensionMap) (specs : List AggregateSpec) (fed : List Fed) : Accumulators specs :=
  fed.foldl (Accumulators.feed runtime.walk calls ext_map specs) (.create_accumulators specs)

/-- The scan of a drive: `none` where nothing on it can match, else which records match. -/
abbrev Scope := DriveCompactIndex → Option (CompactRecord → Bool)

/-- The records a scan feeds from the drive at a position. -/
def selected_records (scope : Scope) (entry : DriveCompactIndex × Nat) : List Fed :=
  match scope entry.1 with
  | none => []
  | some accepts => (fed_records entry.1 (drive_ordinal entry.2)).filter (accepts ·.record)

def scan_drive (ext_map : ExtensionMap) (specs : List AggregateSpec) (scope : Scope) (entry : DriveCompactIndex × Nat) :
    DriveScan specs where
  accumulators := feed_all runtime calls ext_map specs (selected_records scope entry)
  scanned := if (scope entry.1).isNone then 0 else entry.1.records.length.toUInt64
  matched := (selected_records scope entry).length.toUInt64

def merge_scans (specs : List AggregateSpec) (a b : DriveScan specs) : DriveScan specs where
  accumulators := Accumulators.merge_accumulator_sets runtime.walk specs a.accumulators b.accumulators
  scanned := a.scanned + b.scanned
  matched := a.matched + b.matched

/-- The drives scanned in parallel and their scans joined. -/
def scan_drives (drives : List DriveCompactIndex) (specs : List AggregateSpec) (scope : Scope) : DriveScan specs :=
  (runtime.rayon.tree drives.zipIdx).run ⟨.create_accumulators specs, 0, 0⟩
    (scan_drive runtime calls (.build drives) specs scope) (merge_scans runtime specs)

/-- Scan and finalize; every entry point below differs in its scope alone. -/
def run_scoped (drives : List DriveCompactIndex) (plan : AggregatePlan) (options : FinalizeOptions) (scope : Scope) :
    AggregateOutput :=
  let scan := scan_drives runtime calls drives plan.specs scope
  { response := finalize_with_ext_map runtime.walk calls drives (.build drives) plan.specs scan.accumulators options scan.matched
    records_scanned := scan.scanned
    records_matched := scan.matched }

/-- No filter at all: every slot is fed, a deleted one too. -/
def unfiltered : Scope := fun _ => some fun _ => true

/-- Names that match the pattern. -/
def by_pattern (is_match : Str → Bool) : Scope := fun drive =>
  some fun record => !(record.name drive.names).isEmpty && is_match (record.name drive.names)

/-- The record filter and the search filters with their extensions resolved, then the pattern if there is one. -/
def by_filters (env : Env) (filter : AggregateFilter) (search_filters : Option SearchFilters)
    (compiled_pattern : Option (Str → Bool)) : Scope := fun drive =>
  let resolved_ext_ids := drive.resolve_ext_ids env filter.extensions
  if !filter.extensions.isEmpty && resolved_ext_ids.isEmpty then none
  else
    some fun record =>
      filter.matches_filter record resolved_ext_ids &&
        (search_filters.all fun sf =>
          (sf.resolve_ext_ids_for_drive env drive).matches_record env record drive.names drive.fold) &&
        compiled_pattern.all fun is_match =>
          !(record.name drive.names).isEmpty && is_match (record.name drive.names)

/-- Patterns that match every name. -/
def trivial_pattern (pattern : Option Str) : Bool :=
  pattern.all fun pat => ["*".toList, "**".toList, "**/*".toList, []].contains pat

/-- What a pattern compiles to, matched without regard to case; none for a malformed one. -/
abbrev PatternCompiler := Str → Option (Str → Bool)

def bad_pattern : AggregateError := .InvalidConfig "bad pattern".toList

variable (env : Env) (compile_pattern : PatternCompiler)

/-- Which records a request scans, or the error of its pattern. -/
def request_scope (pattern : Option Str) (filter : AggregateFilter) (search_filters : Option SearchFilters) :
    Except AggregateError Scope :=
  let sf_active := search_filters.any fun sf => !sf.is_empty
  if filter.is_empty && !sf_active then
    if trivial_pattern pattern then .ok unfiltered
    else ((compile_pattern (pattern.getD [])).map by_pattern).elim (.error bad_pattern) .ok
  else if trivial_pattern pattern then .ok (by_filters env filter search_filters none)
  else
    ((compile_pattern (pattern.getD [])).map fun is_match => by_filters env filter search_filters (some is_match)).elim
      (.error bad_pattern) .ok

def run_aggregate_with_filters (drives : List DriveCompactIndex) (specs : List AggregateSpec) (options : FinalizeOptions)
    (pattern : Option Str) (filter : AggregateFilter) (search_filters : Option SearchFilters) :
    Except AggregateError AggregateOutput := do
  let scope ← request_scope env compile_pattern pattern filter search_filters
  let plan ← AggregatePlan.compile specs
  return run_scoped runtime calls drives plan options scope

/-- The record behind a row of the row search; the last drive with its letter is taken. -/
def fed_row (drives : List DriveCompactIndex) (row : Char × UInt32) : Option Fed := do
  let (drive, position) ← drives.zipIdx.reverse.find? (·.1.letter == row.1)
  let record ← drive.records[row.2.toNat]?
  return ⟨record, drive, row.2.toNat, drive_ordinal position⟩

/-- The rows of the row search, folded one after the other. -/
def run_aggregate_over_records (drives : List DriveCompactIndex) (specs : List AggregateSpec) (options : FinalizeOptions)
    (rows : List (Char × UInt32)) : Except AggregateError AggregateOutput := do
  let plan ← AggregatePlan.compile specs
  let fed := rows.filterMap (fed_row drives)
  let accumulators := feed_all runtime calls (.build drives) plan.specs fed
  return {
    response := finalize_with_ext_map runtime.walk calls drives (.build drives) plan.specs accumulators options fed.length.toUInt64
    records_scanned := fed.length.toUInt64
    records_matched := fed.length.toUInt64 }

end engine

end uffs.aggregate
