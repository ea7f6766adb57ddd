import Uffs.Aggregate.Engine

open uffs.mft uffs.text uffs.bloom uffs.compact uffs.aggregate
open uffs.search (SearchFilters Render
  stack_volume_prefix)

namespace uffs.daemon

/-! Aggregation requests: the drives they scan, the files that duplicates are verified on, and their rows. -/

/-- The loaded drives, in load order; a letter from A to Z belongs to one drive at most. -/
structure DriveIndex where
  drives : List DriveCompactIndex
  letters : ∀ drive ∈ drives, drive.letter.isUpper = true
  distinct : (drives.map DriveCompactIndex.letter).Nodup

/-- The drives of a request; an empty filter selects all. -/
def selects (drives_filter : List Char) (drive : DriveCompactIndex) : Bool :=
  drives_filter.isEmpty || drives_filter.contains drive.letter

def DriveIndex.drive_refs (index : DriveIndex) (drives_filter : List Char) : List DriveCompactIndex :=
  index.drives.filter (selects drives_filter)

section files

/-- A member of a group: the slot and the position of its drive. -/
abbrev Member := Nat × UInt8

/-- Access to the files of members. -/
structure FileReader where
  read_first_bytes : Member → UInt32 → Option (List UInt8)
  read_all : Member → Option (List UInt8)

/-- The content of the files on disk, by path; none for a file that cannot be read. -/
abbrev FileContents := Str → Option (List UInt8)

variable (lossy : Render)

/-- The path of a slot. -/
def member_path (drive : DriveCompactIndex) (record_idx : Nat) : Str :=
  uffs.search.resolve_path drive record_idx
    ( stack_volume_prefix drive.letter) lossy

namespace DaemonFileReader

def resolve_path (drives : List DriveCompactIndex) (member : Member) : Option Str := do
  let drive ← drives[member.2.toNat]?
  return member_path lossy drive member.1

def reader (disk : FileContents) (drives : List DriveCompactIndex) : FileReader where
  read_first_bytes member count := do
    let path ← resolve_path lossy drives member
    let bytes ← disk path
    return bytes.take count.toNat
  read_all member := do
    let path ← resolve_path lossy drives member
    disk path

end DaemonFileReader

end files

section verification

structure VerificationBudget where
  max_bytes : UInt64
  max_files : UInt32
  bytes_used : UInt64 := 0
  files_used : UInt32 := 0
deriving DecidableEq

namespace VerificationBudget

def can_read (self : VerificationBudget) (bytes : UInt64) : Bool :=
  !(0 < self.max_bytes && self.max_bytes < self.bytes_used + bytes) &&
    !(0 < self.max_files && self.max_files ≤ self.files_used)

def record_read (self : VerificationBudget) (bytes : UInt64) : VerificationBudget :=
  { self with bytes_used := self.bytes_used + bytes, files_used := self.files_used + 1 }

def exhausted (self : VerificationBudget) : Bool :=
  (0 < self.max_bytes && self.max_bytes ≤ self.bytes_used) || (0 < self.max_files && self.max_files ≤ self.files_used)

end VerificationBudget

def DEFAULT_VERIFY_BUDGET_BYTES : UInt64 := 256 * 1024 * 1024
def DEFAULT_VERIFY_BUDGET_FILES : UInt32 := 10000

inductive VerifyOutcome where
  | Match
  | Mismatch
  | IoError
deriving DecidableEq

/-- The members read one after the other and compared with the first. -/
def verify_members (read : Member → Option (List UInt8)) (digest : List UInt8 → List UInt8) (read_estimate : UInt64) :
    VerificationBudget → Option (List UInt8) → List Member → VerifyOutcome × VerificationBudget
  | budget, _, [] => (.Match, budget)
  | budget, reference, member :: rest =>
    if !budget.can_read read_estimate then (.IoError, budget)
    else
      match read member with
      | none => (.IoError, budget)
      | some bytes =>
        let read_budget := budget.record_read bytes.length.toUInt64
        match reference with
        | none => verify_members read digest read_estimate read_budget (some (digest bytes)) rest
        | some first =>
          if digest bytes != first then (.Mismatch, read_budget)
          else verify_members read digest read_estimate read_budget reference rest

variable (sha256 : List UInt8 → List UInt8) (reader : FileReader)

/-- What one file of a group is expected to cost. -/
def per_file_estimate (mode : DuplicateVerify) (group : DuplicateGroup) : UInt64 :=
  match mode with
  | .None => 0
  | .FirstBytes count => min group.file_size count.toUInt64
  | .Sha256 => group.file_size

def verify_group (mode : DuplicateVerify) (budget : VerificationBudget) (group : DuplicateGroup) :
    VerifyOutcome × VerificationBudget :=
  match mode with
  | .None => (.Match, budget)
  | .FirstBytes count =>
    verify_members (reader.read_first_bytes · count) id (per_file_estimate mode group) budget none group.member_indices
  | .Sha256 => verify_members reader.read_all sha256 (per_file_estimate mode group) budget none group.member_indices

/-- The groups that stay: a group of one is dropped, one that differs too; one that is not read stays unverified. -/
def verify_groups (mode : DuplicateVerify) : VerificationBudget → List DuplicateGroup → List DuplicateGroup
  | _, [] => []
  | budget, group :: rest =>
    if group.member_indices.length < 2 then verify_groups mode budget rest
    else if budget.exhausted || !budget.can_read (per_file_estimate mode group * group.member_indices.length.toUInt64) then
      group :: verify_groups mode budget rest
    else
      match verify_group sha256 reader mode budget group with
      | (.Match, after) => { group with verified := true } :: verify_groups mode after rest
      | (.Mismatch, after) => verify_groups mode after rest
      | (.IoError, after) => group :: verify_groups mode after rest

/-- `DuplicateVerifier::verify`, with the totals taken anew. -/
def verify (mode : DuplicateVerify) (budget : VerificationBudget) (result : DuplicateResult) : DuplicateResult :=
  match mode with
  | .None => result
  | mode =>
    let groups := verify_groups sha256 reader mode budget result.groups
    { candidate_groups := groups.length
      candidate_files := sum_u64 (groups.map (·.member_indices.length.toUInt64))
      total_duplicate_bytes := sum_u64 (groups.map (·.total_bytes))
      total_reclaimable_bytes := sum_u64 (groups.map fun group => reclaimable group.total_bytes group.count)
      groups := groups
      verification_mode := mode }

/-- The verification a specification asks for. -/
def verify_mode (spec : AggregateSpec) : DuplicateVerify :=
  match spec.kind with
  | .Duplicates _ verify _ _ => verify
  | _ => .None

def verify_result (mode : DuplicateVerify) (result : AggregateResult) : AggregateResult :=
  match result.data with
  | .Duplicates dup_result =>
    { result with data := .Duplicates (verify sha256 reader mode
        ⟨DEFAULT_VERIFY_BUDGET_BYTES, DEFAULT_VERIFY_BUDGET_FILES, 0, 0⟩ dup_result) }
  | _ => result

/-- Results and specifications in parallel. -/
def run_duplicate_verification (specs : List AggregateSpec) (results : List AggregateResult) : List AggregateResult :=
  List.zipWith (fun spec result => verify_result sha256 reader (verify_mode spec) result) specs results

end verification

section wire

structure SampleRowWire where
  fields : List (Str × Str)
  sort_key : Int64
deriving DecidableEq

/-- The group of a response; its key shows the name, the size in its place if there is none, and the number of copies. -/
structure DuplicateBucketWire where
  display_name : Option Str
  file_size : UInt64
  count : UInt64
  total_bytes : UInt64
  reclaimable_bytes : UInt64
  sample_rows : List SampleRowWire
  verified : Bool
deriving DecidableEq

inductive AggregateResultWire where
  | duplicates (label : Option Str) (total_groups : Nat) (buckets : List DuplicateBucketWire)
  | other (result : AggregateResult)

variable (lossy : Render)

/-- The row of a record. -/
def dup_row (drive : DriveCompactIndex) (rec_idx : Nat) (record : CompactRecord) : SampleRowWire where
  fields := [("name".toList, record.name drive.names), ("path".toList, member_path lossy drive rec_idx),
    ("size".toList, decimal record.size.toNat)]
  sort_key := record.size.toInt64

/-- The row of a member; none where the position or the slot is out of range. -/
def materialize_dup_member (drives : List DriveCompactIndex) (member : Member) : Option SampleRowWire := do
  let drive ← drives[member.2.toNat]?
  let record ← drive.records[member.1]?
  return dup_row lossy drive member.1 record

def materialize_dup_members (members : List Member) (drives : List DriveCompactIndex) : List SampleRowWire :=
  members.filterMap (materialize_dup_member lossy drives)

def wire_duplicate_group (drives : List DriveCompactIndex) (group : DuplicateGroup) : DuplicateBucketWire :=
  let samples := materialize_dup_members lossy group.member_indices drives
  { display_name := ((samples.head?.bind fun row => row.fields.lookup "name".toList)).filter fun name => !name.isEmpty
    file_size := group.file_size
    count := group.count
    total_bytes := group.total_bytes
    reclaimable_bytes := group.reclaimable_bytes
    sample_rows := samples
    verified := group.verified }

def build_aggregate_result_wire (drives : List DriveCompactIndex) (result : AggregateResult) : AggregateResultWire :=
  match result.data with
  | .Duplicates dup => .duplicates result.label dup.candidate_groups (dup.groups.map (wire_duplicate_group lossy drives))
  | _ => .other result

end wire

/-- What a request is answered with beside the drives: the runtime, the calls out, the disk. -/
structure Surroundings where
  runtime : Runtime
  calls : Calls
  env : Env
  compile_pattern : PatternCompiler
  lossy : Render
  sha256 : List UInt8 → List UInt8
  disk : FileContents

structure AggregationRequest where
  query_predicates : List DrilldownPredicate := []
  pattern : Option Str := none
  drives_filter : List Char := []
  record_filter : AggregateFilter := {}
  search_filters : Option SearchFilters := none

variable (world : Surroundings)

/-- The scan of a request, over the drives that its filter selects. -/
def request_output (index : DriveIndex) (specs : List AggregateSpec) (request : AggregationRequest) :
    Except AggregateError AggregateOutput :=
  run_aggregate_with_filters world.runtime world.calls world.env world.compile_pattern
    (index.drive_refs request.drives_filter) specs { query_predicates := request.query_predicates } request.pattern
    request.record_filter request.search_filters

/-- Verification and conversion; both index the drives they are handed. -/
def answer (drives : List DriveCompactIndex) (specs : List AggregateSpec) (output : AggregateOutput) :
    List AggregateResultWire :=
  (run_duplicate_verification world.sha256 (DaemonFileReader.reader world.lossy world.disk drives) specs
    output.response).map (build_aggregate_result_wire world.lossy drives)

/-- No specification and a failed scan are answered with nothing. -/
def run_aggregations (index : DriveIndex) (specs : List AggregateSpec) (request : AggregationRequest) :
    List AggregateResultWire × UInt64 :=
  if specs.isEmpty then ([], 0)
  else match request_output world index specs request with
  | .error _ => ([], 0)
  | .ok output => (answer world index.drives specs output, output.records_matched)

/-- The aggregation of the rows a row search has found. -/
def run_aggregations_over_rows (index : DriveIndex) (specs : List AggregateSpec) (rows : List (Char × UInt32))
    (query_predicates : List DrilldownPredicate) : List AggregateResultWire × UInt64 :=
  if specs.isEmpty then ([], 0)
  else match run_aggregate_over_records world.runtime world.calls index.drives specs
    { query_predicates := query_predicates } rows with
  | .error _ => ([], 0)
  | .ok output => (answer world index.drives specs output, output.records_matched)

end uffs.daemon
