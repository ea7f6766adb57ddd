import Uffs.Search.Filters

open uffs.text uffs.compact uffs.search

namespace uffs.daemon

/-! Canonical predicates: as the scan's filters have them compiled, and as they are tested on a row. -/

inductive FieldId where
  | Drive
  | Path
  | Name
  | PathOnly
  | Size
  | SizeOnDisk
  | Created
  | Modified
  | Accessed
  | Extension
  | Type
  | Attributes
  | AttributeValue
  | Hidden
  | System
  | Archive
  | ReadOnly
  | Compressed
  | Encrypted
  | Sparse
  | Reparse
  | Offline
  | NotIndexed
  | Temporary
  | Virtual
  | Pinned
  | Unpinned
  | Descendants
  | TreeSize
  | TreeAllocated
  | Bulkiness
  | Integrity
  | NoScrub
  | DirectoryFlag
  | RecallOnOpen
  | RecallOnDataAccess
  | ParityAttributes
  | NameLength
  | PathLength
  | Malformed
  | MalformedPath
  | NameHex
deriving DecidableEq

namespace FieldId

def ALL : List FieldId :=
  [.Drive, .Path, .Name, .PathOnly, .Size, .SizeOnDisk, .Created, .Modified, .Accessed, .Extension, .Type, .Attributes,
    .AttributeValue, .Hidden, .System, .Archive, .ReadOnly, .Compressed, .Encrypted, .Sparse, .Reparse, .Offline,
    .NotIndexed, .Temporary, .Virtual, .Pinned, .Unpinned, .Descendants, .TreeSize, .TreeAllocated, .Bulkiness,
    .Integrity, .NoScrub, .DirectoryFlag, .RecallOnOpen, .RecallOnDataAccess, .ParityAttributes, .NameLength,
    .PathLength, .Malformed, .MalformedPath, .NameHex]

/-- The canonical name of a field, and its aliases. -/
def names : FieldId → List String
  | .Drive => ["drive", "drv"]
  | .Path => ["path"]
  | .Name => ["name"]
  | .PathOnly => ["path_only", "pathonly", "path only"]
  | .Size => ["size"]
  | .SizeOnDisk => ["size_on_disk", "sizeondisk", "size on disk", "allocated"]
  | .Created => ["created"]
  | .Modified => ["modified", "written", "date"]
  | .Accessed => ["accessed"]
  | .Extension => ["extension", "ext"]
  | .Type => ["type", "folder"]
  | .Attributes => ["attributes", "attrs"]
  | .AttributeValue => ["attribute_value", "attributevalue", "attrval"]
  | .Hidden => ["hidden", "h"]
  | .System => ["system", "s"]
  | .Archive => ["archive", "a"]
  | .ReadOnly => ["read_only", "readonly", "read-only", "read only", "r"]
  | .Compressed => ["compressed"]
  | .Encrypted => ["encrypted"]
  | .Sparse => ["sparse"]
  | .Reparse => ["reparse"]
  | .Offline => ["offline", "o"]
  | .NotIndexed =>
    ["not_indexed", "notindexed", "not indexed", "notcontent", "not content indexed", "not content indexed file"]
  | .Temporary => ["temporary", "temp"]
  | .Virtual => ["virtual"]
  | .Pinned => ["pinned"]
  | .Unpinned => ["unpinned"]
  | .Descendants => ["descendants", "decendents"]
  | .TreeSize => ["tree_size", "treesize"]
  | .TreeAllocated => ["tree_allocated", "treeallocated"]
  | .Bulkiness => ["bulkiness"]
  | .Integrity => ["integrity"]
  | .NoScrub => ["no_scrub", "noscrub", "no scrub", "no scrub file"]
  | .DirectoryFlag => ["directory_flag", "directoryflag", "directory flag", "directory", "dir"]
  | .RecallOnOpen => ["recall_on_open", "recallonopen", "recall on open"]
  | .RecallOnDataAccess => ["recall_on_data_access", "recallondataaccess", "recall on data access"]
  | .ParityAttributes => ["parity_attributes", "parityattributes"]
  | .NameLength => ["name_length", "namelength", "name_len", "namelen"]
  | .PathLength => ["path_length", "pathlength", "path_len", "pathlen"]
  | .Malformed => ["malformed", "ill_formed", "illformed", "bad_name"]
  | .MalformedPath => ["malformed_path", "malformedpath", "ill_formed_path", "bad_path"]
  | .NameHex => ["name_hex", "namehex", "name_bytes_hex"]

def parse (name : Str) : Option FieldId :=
  ALL.find? fun field => field.names.any fun known => uffs.search.eq_ignore_ascii_case known.toList name

end FieldId

inductive SearchPredicateOp where
  | Eq
  | Ne
  | Lt
  | Lte
  | Gt
  | Gte
  | In
  | NotIn
  | HasAll
  | HasAny
  | HasNone
  | Match
  | NotMatch
  | Contains
  | StartsWith
  | EndsWith
deriving DecidableEq

inductive SearchPredicateValue where
  | String (value : Str)
  | StringList (values : List Str)
  | U64 (value : UInt64)
  | I64 (value : Int64)
  | Bool (value : Bool)
deriving DecidableEq

structure SearchPredicate where
  field : Str
  op : SearchPredicateOp
  value : SearchPredicateValue
deriving DecidableEq

section compile

/-- The field and operator that the scan's filters cover. -/
def compiled_to_hot_path (field : FieldId) (predicate : SearchPredicate) : Bool :=
  match field with
  | .Size | .Descendants =>
    match predicate.op with
    | .Gte | .Lte | .Gt | .Lt => true
    | _ => false
  | .Modified | .Created | .Accessed =>
    match predicate.op with
    | .Gte | .Lt => true
    | _ => false
  | .Extension => predicate.op == .In
  | .Attributes =>
    match predicate.op with
    | .HasAll | .HasNone => true
    | _ => false
  | .Name => predicate.op == .NotMatch
  | .NameLength | .PathLength =>
    match predicate.op, predicate.value with
    | .Gte, .U64 _ | .Lte, .U64 _ | .Gt, .U64 _ | .Lt, .U64 _ | .Eq, .U64 _ => true
    | _, _ => false
  | .Malformed =>
    match predicate.op, predicate.value with
    | .Eq, .Bool _ | .Ne, .Bool _ => true
    | _, _ => false
  | _ => false

def predicates_require_post_filter (predicates : List SearchPredicate) : Bool :=
  predicates.any fun predicate =>
    match FieldId.parse predicate.field with
    | none => true
    | some field => !compiled_to_hot_path field predicate

def attr_bits : List (List String × UInt32) :=
  [(["readonly", "read-only", "r"], 0x0001), (["hidden", "h"], 0x0002), (["system", "s"], 0x0004),
    (["directory", "dir", "d"], 0x0010), (["archive", "a"], 0x0020), (["device"], 0x0040), (["normal"], 0x0080),
    (["temporary", "temp", "t"], 0x0100), (["sparse"], 0x0200), (["reparse"], 0x0400), (["compressed", "c"], 0x0800),
    (["offline", "o"], 0x1000), (["notindexed", "notcontent", "n"], 0x2000), (["encrypted", "e"], 0x4000),
    (["integrity", "i"], 0x8000), (["virtual", "v"], 0x10000), (["noscrub", "no_scrub_data", "x"], 0x20000),
    (["pinned", "p"], 0x80000), (["unpinned", "u"], 0x100000)]

/-- The bit of an attribute by its name, 0 for an unknown one. -/
def attr_bit (name : Str) : UInt32 :=
  ((attr_bits.find? fun entry => entry.1.any fun known => known.toList == name).map Prod.snd).getD 0

section merge

variable {α : Type} [LT α] [DecidableLT α]

/-- The stricter of two lower bounds. -/
def merge_min (bound : Option α) (value : α) : Option α :=
  some ((bound.map fun cur => if cur < value then value else cur).getD value)

/-- The stricter of two upper bounds. -/
def merge_max (bound : Option α) (value : α) : Option α :=
  some ((bound.map fun cur => if value < cur then value else cur).getD value)

end merge

/-- `saturating_add(1)`. -/
def succ_u64 (value : UInt64) : UInt64 := if value = 0xFFFFFFFFFFFFFFFF then value else value + 1
def succ_u32 (value : UInt32) : UInt32 := if value = 0xFFFFFFFF then value else value + 1
def succ_u16 (value : UInt16) : UInt16 := if value = 0xFFFF then value else value + 1

/-- `saturating_sub(1)`. -/
def pred_u64 (value : UInt64) : UInt64 := if value = 0 then 0 else value - 1
def pred_u32 (value : UInt32) : UInt32 := if value = 0 then 0 else value - 1
def pred_u16 (value : UInt16) : UInt16 := if value = 0 then 0 else value - 1

/-- `u32::try_from(value).unwrap_or(u32::MAX)`. -/
def to_u32 (value : UInt64) : UInt32 := if value.toNat < UInt32.size then value.toUInt32 else 0xFFFFFFFF

/-- `u16::try_from(value).unwrap_or(u16::MAX)`. -/
def to_u16 (value : UInt64) : UInt16 := if value.toNat < UInt16.size then value.toUInt16 else 0xFFFF

/-- What the time parser makes of a text; the flag tells a lower bound from an upper one. -/
abbrev TimeParser := Str → Int64 → Bool → Option Int64

variable (parse_time_bound : TimeParser) (now_us : Int64)

/-- The bound of a time predicate, as a text or as a number. -/
def time_bound (predicate : SearchPredicate) : Option Int64 :=
  match predicate.value with
  | .String spec => parse_time_bound spec now_us (predicate.op == .Gte || predicate.op == .Gt)
  | .I64 value => some value
  | _ => none

/-- One of the three times: the filters with the bound put in. -/
def compile_time (predicate : SearchPredicate) (newer older : Option Int64) : Option Int64 × Option Int64 :=
  match time_bound parse_time_bound now_us predicate with
  | none => (newer, older)
  | some bound =>
    match predicate.op with
    | .Gte => (merge_min newer bound, older)
    | .Lt => (newer, merge_max older bound)
    | _ => (newer, older)

/-- One of the two lengths: an equality overwrites the bounds. -/
def compile_len (predicate : SearchPredicate) (min max : Option UInt16) : Option UInt16 × Option UInt16 :=
  match predicate.value with
  | .U64 value =>
    match predicate.op with
    | .Gte => (merge_min min (to_u16 value), max)
    | .Lte => (min, merge_max max (to_u16 value))
    | .Gt => (merge_min min (succ_u16 (to_u16 value)), max)
    | .Lt => (min, merge_max max (pred_u16 (to_u16 value)))
    | .Eq => (some (to_u16 value), some (to_u16 value))
    | _ => (min, max)
  | _ => (min, max)

def compile_malformed (filters : SearchFilters) (predicate : SearchPredicate) : SearchFilters :=
  match predicate.op, predicate.value with
  | .Eq, .Bool want => { filters with malformed := some want }
  | .Ne, .Bool want => { filters with malformed := some !want }
  | _, _ => filters

/-- Put one predicate into the filters. -/
def compile_predicate (filters : SearchFilters) (field : FieldId) (predicate : SearchPredicate) : SearchFilters :=
  match field with
  | .Size =>
    match predicate.op, predicate.value with
    | .Gte, .U64 value => { filters with min_size := merge_min filters.min_size value }
    | .Lte, .U64 value => { filters with max_size := merge_max filters.max_size value }
    | .Gt, .U64 value => { filters with min_size := merge_min filters.min_size (succ_u64 value) }
    | .Lt, .U64 value => { filters with max_size := merge_max filters.max_size (pred_u64 value) }
    | _, _ => filters
  | .Descendants =>
    match predicate.op, predicate.value with
    | .Gte, .U64 value => { filters with min_descendants := merge_min filters.min_descendants (to_u32 value) }
    | .Lte, .U64 value => { filters with max_descendants := merge_max filters.max_descendants (to_u32 value) }
    | .Gt, .U64 value => { filters with min_descendants := merge_min filters.min_descendants (succ_u32 (to_u32 value)) }
    | .Lt, .U64 value => { filters with max_descendants := merge_max filters.max_descendants (pred_u32 (to_u32 value)) }
    | _, _ => filters
  | .Modified =>
    let (newer, older) := compile_time parse_time_bound now_us predicate filters.newer_us filters.older_us
    { filters with newer_us := newer, older_us := older }
  | .Created =>
    let (newer, older) := compile_time parse_time_bound now_us predicate filters.newer_created_us filters.older_created_us
    { filters with newer_created_us := newer, older_created_us := older }
  | .Accessed =>
    let (newer, older) := compile_time parse_time_bound now_us predicate filters.newer_accessed_us filters.older_accessed_us
    { filters with newer_accessed_us := newer, older_accessed_us := older }
  | .Extension =>
    match predicate.op, predicate.value with
    | .In, .StringList values => { filters with extensions := filters.extensions ++ values }
    | _, _ => filters
  | .Attributes =>
    match predicate.op, predicate.value with
    | .HasAll, .StringList values =>
      { filters with attr_require := values.foldl (fun mask name => mask ||| attr_bit name) filters.attr_require }
    | .HasNone, .StringList values =>
      { filters with attr_exclude := values.foldl (fun mask name => mask ||| attr_bit name) filters.attr_exclude }
    | _, _ => filters
  | .Name =>
    match predicate.op, predicate.value with
    | .NotMatch, .String pattern => { filters with exclude_lower := some (to_ascii_lowercase pattern) }
    | _, _ => filters
  | .NameLength =>
    let (min, max) := compile_len predicate filters.min_name_len filters.max_name_len
    { filters with min_name_len := min, max_name_len := max }
  | .PathLength =>
    let (min, max) := compile_len predicate filters.min_path_len filters.max_path_len
    { filters with min_path_len := min, max_path_len := max }
  | .Malformed => compile_malformed filters predicate
  | _ => filters

def compile_predicates_into_filters (filters : SearchFilters) (predicates : List SearchPredicate) : SearchFilters :=
  predicates.foldl (fun filters predicate =>
    match FieldId.parse predicate.field with
    | none => filters
    | some field => compile_predicate parse_time_bound now_us filters field predicate) filters

end compile

section row

/-- Wildcards over bytes, by a table of the prefixes that match so far. -/
def wildcard_row (actual : List UInt8) (dp : List Bool) (token : UInt8) : List Bool :=
  if token = 0x2A then dp.scanl (fun seen slot => seen || slot) false |>.tail
  else if token = 0x3F then false :: dp.dropLast
  else false :: List.zipWith (fun slot byte => slot && byte == token) dp actual

def wildcard_match (actual pattern : Str) : Bool :=
  let actual_bytes := as_bytes (to_ascii_lowercase actual)
  let dp := true :: actual_bytes.map fun _ => false
  ((as_bytes (to_ascii_lowercase pattern)).foldl (wildcard_row actual_bytes) dp).getLast?.getD false

def match_string (actual : Str) (predicate : SearchPredicate) : Bool :=
  match predicate.op, predicate.value with
  | .Eq, .String expected => uffs.search.eq_ignore_ascii_case actual expected
  | .Ne, .String expected => !uffs.search.eq_ignore_ascii_case actual expected
  | .In, .StringList values => values.any (uffs.search.eq_ignore_ascii_case actual)
  | .NotIn, .StringList values => values.all fun value => !uffs.search.eq_ignore_ascii_case actual value
  | .Match, .String pattern => wildcard_match actual pattern
  | .NotMatch, .String pattern => !wildcard_match actual pattern
  | .HasAll, .StringList values => values.all fun value => decide (to_ascii_lowercase value <:+: to_ascii_lowercase actual)
  | .HasAny, .StringList values => values.any fun value => decide (to_ascii_lowercase value <:+: to_ascii_lowercase actual)
  | .HasNone, .StringList values => values.all fun value => !decide (to_ascii_lowercase value <:+: to_ascii_lowercase actual)
  | .Contains, .String needle => decide (to_ascii_lowercase needle <:+: to_ascii_lowercase actual)
  | .StartsWith, .String start => decide (to_ascii_lowercase start <+: to_ascii_lowercase actual)
  | .EndsWith, .String ending => decide (to_ascii_lowercase ending <:+ to_ascii_lowercase actual)
  | _, _ => true

def match_bool (actual : Bool) (predicate : SearchPredicate) : Bool :=
  match predicate.op, predicate.value with
  | .Eq, .Bool expected => actual == expected
  | .Ne, .Bool expected => actual != expected
  | _, _ => true

def match_u64 (actual : UInt64) (predicate : SearchPredicate) : Bool :=
  match predicate.op, predicate.value with
  | .Eq, .U64 expected => actual == expected
  | .Ne, .U64 expected => actual != expected
  | .Lt, .U64 expected => actual < expected
  | .Lte, .U64 expected => actual ≤ expected
  | .Gt, .U64 expected => expected < actual
  | .Gte, .U64 expected => expected ≤ actual
  | _, _ => true

def match_i64 (actual : Int64) (predicate : SearchPredicate) : Bool :=
  match predicate.op, predicate.value with
  | .Eq, .I64 expected => actual == expected
  | .Ne, .I64 expected => actual != expected
  | .Lt, .I64 expected => actual < expected
  | .Lte, .I64 expected => actual ≤ expected
  | .Gt, .I64 expected => expected < actual
  | .Gte, .I64 expected => expected ≤ actual
  | _, _ => true

def flag_set (flags : UInt32) (name : Str) : Bool := flags &&& attr_bit name != 0

def match_attributes (flags : UInt32) (predicate : SearchPredicate) : Bool :=
  match predicate.op, predicate.value with
  | .HasAll, .StringList values => values.all (flag_set flags)
  | .HasAny, .StringList values => values.any (flag_set flags)
  | .HasNone, .StringList values => values.all fun name => !flag_set flags name
  | _, _ => true

def FLAG_RECALL_ON_OPEN : UInt32 := 0x40000
def FLAG_RECALL_ON_DATA_ACCESS : UInt32 := 0x400000
def PARITY_FLAG_MASK : UInt32 := 0x1AEE37

/-- The bit of a field that is one attribute. -/
def attribute_flag : FieldId → UInt32
  | .Hidden => 0x02
  | .System => 0x04
  | .Archive => 0x20
  | .ReadOnly => 0x01
  | .Compressed => 0x800
  | .Encrypted => 0x4000
  | .Sparse => 0x200
  | .Reparse => 0x400
  | .Offline => 0x1000
  | .NotIndexed => 0x2000
  | .Temporary => 0x100
  | .Virtual => 0x10000
  | .Pinned => 0x80000
  | .Unpinned => 0x100000
  | .Integrity => 0x8000
  | .NoScrub => 0x20000
  | .RecallOnOpen => FLAG_RECALL_ON_OPEN
  | .RecallOnDataAccess => FLAG_RECALL_ON_DATA_ACCESS
  | _ => 0

/-- Whatever stands behind the last dot. -/
def row_extension (row : DisplayRow) : Str := ((rsplit_dot row.name).map Prod.snd).getD []

def matches_field (categories : List (Str × List Str)) (row : DisplayRow) (field : FieldId) (predicate : SearchPredicate) :
    Bool :=
  match field with
  | .PathOnly => match_string row.path_dir predicate
  | .Path => match_string row.path predicate
  | .Name => match_string row.name predicate
  | .Drive => match_string [row.drive] predicate
  | .Extension => match_string (row_extension row) predicate
  | .Type => match_string (semantic_type_for_row categories row) predicate
  | .Size => match_u64 row.size predicate
  | .SizeOnDisk => match_u64 row.allocated predicate
  | .Created => match_i64 row.created predicate
  | .Modified => match_i64 row.modified predicate
  | .Accessed => match_i64 row.accessed predicate
  | .Descendants => match_u64 row.descendants.toUInt64 predicate
  | .TreeSize => match_u64 row.treesize predicate
  | .TreeAllocated => match_u64 (tree_allocated_for_row row) predicate
  | .Bulkiness => match_u64 (bulkiness_for_row row) predicate
  | .Attributes | .AttributeValue => match_attributes row.flags predicate
  | .DirectoryFlag => match_bool row.is_directory predicate
  | .ParityAttributes => match_u64 (row.flags &&& PARITY_FLAG_MASK).toUInt64 predicate
  | .NameLength => match_u64 (UInt64.ofNat row.name.length) predicate
  | .PathLength => match_u64 (UInt64.ofNat row.path.length) predicate
  | .Malformed => match_bool row.malformed predicate
  | .MalformedPath => match_bool row.malformed_path predicate
  | .NameHex => true
  | field => match_bool (row.flags &&& attribute_flag field != 0) predicate

def matches_predicate (categories : List (Str × List Str)) (row : DisplayRow) (predicate : SearchPredicate) : Bool :=
  match FieldId.parse predicate.field with
  | none => true
  | some field => matches_field categories row field predicate

def matches_predicates (categories : List (Str × List Str)) (row : DisplayRow) (predicates : List SearchPredicate) : Bool :=
  predicates.all (matches_predicate categories row)

end row

end uffs.daemon
