import Uffs.Search.Dispatch
import Uffs.Search.Tree

open uffs.mft uffs.text uffs.bloom uffs.compact

namespace uffs.search

section time

def FILETIME_TICKS_PER_SECOND : Int := 10000000

/-- Month of a FILETIME, by the era arithmetic of the civil calendar; `none` for an unset time. -/
def filetime_to_month (filetime : Int64) : Option UInt32 :=
  if filetime = 0 then none
  else
    let total_secs := filetime.toInt.tdiv FILETIME_TICKS_PER_SECOND
    let days_since_1601 := total_secs / 86400
    let z := days_since_1601 + 584694
    let era := (if z ≥ 0 then z else z - 146096).tdiv 146097
    let doe := (z - era * 146097).toNat
    let yoe := (doe - doe / 1460 + doe / 36524 - doe / 146096) / 365
    let doy := doe - (365 * yoe + yoe / 4 - yoe / 100)
    let mp := (5 * doy + 2) / 153
    some (UInt32.ofNat (if mp < 10 then mp + 3 else mp - 9))

/-- January for an unset time. -/
def month_from_filetime (filetime : Int64) : UInt32 := (filetime_to_month filetime).getD 1

/-- An alias that kept its old name; the argument is a FILETIME. -/
def month_from_unix_micros (filetime : Int64) : UInt32 := month_from_filetime filetime

example : month_from_filetime 133485408000000000 = 1 := by decide

end time

section names

/-- The reserved metafiles of NTFS. -/
def NTFS_METAFILE_NAMES : List Str :=
  ["$MFT", "$MFTMirr", "$LogFile", "$Volume", "$AttrDef", "$Bitmap", "$Boot", "$BadClus", "$Secure", "$UpCase",
    "$Extend", "$ObjId", "$Quota", "$Reparse", "$UsnJrnl", "$RmMetadata", "$Deleted", "$Repair", "$Tops", "$TxfLog",
    "$Txf"].map String.toList

/-- `eq_ignore_ascii_case`. -/
def eq_ignore_ascii_case (a b : Str) : Bool := to_ascii_lowercase a == to_ascii_lowercase b

def is_ntfs_metafile_name (name : Str) : Bool := NTFS_METAFILE_NAMES.any (eq_ignore_ascii_case name)

def is_system_name (name : Str) : Bool := is_ntfs_metafile_name name

/-- The cached first byte is tested before the name is read. -/
def is_system_metafile (self : CompactRecord) (names : List UInt8) : Bool :=
  self.name_first_byte == 0x24 && is_ntfs_metafile_name (self.name names)

/-- Lowercase character by character, without the rule for a final sigma. -/
def lowercase_into (env : Env) (input : Str) : Str := input.flatMap fun ch => env.to_lowercase [ch]

def extension_matches_filter (env : Env) (allowed normalized_extension : Str) : Bool :=
  allowed == normalized_extension || env.to_lowercase allowed == normalized_extension

/-- Characters behind the last dot; none for a dotfile or a trailing dot. -/
def extract_extension_after_dot (filename : Str) : Str :=
  match rsplit_dot filename with
  | none => []
  | some (before, after) => if before.isEmpty || after.isEmpty then [] else after

end names

/-- What the query asks to see. -/
inductive FilterMode where
  | All
  | FilesOnly
  | DirsOnly
deriving DecidableEq

def passes_filter_mode (is_directory : Bool) : FilterMode → Bool
  | .All => true
  | .FilesOnly => !is_directory
  | .DirsOnly => is_directory

/-- Bit 31 of the attributes, set on the rows of a baseline that have vanished. -/
def DELETED_TOMBSTONE_FLAG : UInt32 := 0x80000000

structure SearchFilters where
  hide_system : Bool := false
  hide_ads : Bool := false
  min_size : Option UInt64 := none
  max_size : Option UInt64 := none
  newer_us : Option Int64 := none
  older_us : Option Int64 := none
  newer_created_us : Option Int64 := none
  older_created_us : Option Int64 := none
  newer_accessed_us : Option Int64 := none
  older_accessed_us : Option Int64 := none
  attr_require : UInt32 := 0
  attr_exclude : UInt32 := 0
  min_descendants : Option UInt32 := none
  max_descendants : Option UInt32 := none
  extensions : List Str := []
  /-- Ids of the extensions on one drive, set before that drive is scanned. -/
  resolved_ext_ids : List UInt16 := []
  exclude_lower : Option Str := none
  path_contains_lower : Option Str := none
  path_excludes_lower : Option (List Str) := none
  type_filter : Option Str := none
  min_bulkiness : Option UInt64 := none
  max_bulkiness : Option UInt64 := none
  min_name_len : Option UInt16 := none
  max_name_len : Option UInt16 := none
  min_path_len : Option UInt16 := none
  max_path_len : Option UInt16 := none
  min_allocated : Option UInt64 := none
  max_allocated : Option UInt64 := none
  min_treesize : Option UInt64 := none
  max_treesize : Option UInt64 := none
  min_tree_allocated : Option UInt64 := none
  max_tree_allocated : Option UInt64 := none
  allowed_months : List UInt32 := []
  malformed : Option Bool := none
  deleted : Option Bool := none
  normalize_malformed : Bool := false

section checks

variable {α : Type} [LT α] [DecidableLT α]

/-- A lower bound, if there is one. -/
def at_least (bound : Option α) (value : α) : Bool := bound.all fun min => !decide (value < min)

/-- An upper bound, if there is one. -/
def at_most (bound : Option α) (value : α) : Bool := bound.all fun max => !decide (max < value)

/-- A bound the value stays below, if there is one. -/
def older_than (bound : Option α) (value : α) : Bool := bound.all fun bound => decide (value < bound)

end checks

def BULKINESS_SCALE : UInt64 := 1000000

/-- `u64::saturating_mul`. -/
def saturating_mul (a b : UInt64) : UInt64 :=
  if a.toNat * b.toNat < UInt64.size then a * b else UInt64.ofNat (UInt64.size - 1)

/-- Allocated to logical size in parts per million, 0 for an empty file. -/
def bulkiness_from_sizes (logical allocated : UInt64) : UInt64 :=
  if logical = 0 then 0 else saturating_mul allocated BULKINESS_SCALE / logical

def bulkiness_for_record (rec : CompactRecord) : UInt64 :=
  if rec.is_directory then bulkiness_from_sizes rec.treesize rec.tree_allocated
  else bulkiness_from_sizes rec.size rec.allocated

namespace SearchFilters

def resolve_ext_ids_for_drive (self : SearchFilters) (env : Env) (drive : DriveCompactIndex) : SearchFilters :=
  if self.extensions.isEmpty then { self with resolved_ext_ids := [] }
  else { self with resolved_ext_ids := drive.resolve_ext_ids env self.extensions }

/-- Only an extension filter, beside the two hide flags. -/
def is_ext_only (self : SearchFilters) : Bool :=
  !self.extensions.isEmpty && self.min_size.isNone && self.max_size.isNone && self.newer_us.isNone &&
    self.older_us.isNone && self.newer_created_us.isNone && self.older_created_us.isNone &&
    self.newer_accessed_us.isNone && self.older_accessed_us.isNone && self.attr_require == 0 &&
    self.attr_exclude == 0 && self.min_descendants.isNone && self.max_descendants.isNone &&
    self.exclude_lower.isNone && self.path_contains_lower.isNone && self.path_excludes_lower.isNone &&
    self.type_filter.isNone && self.min_bulkiness.isNone && self.max_bulkiness.isNone && self.min_name_len.isNone &&
    self.max_name_len.isNone && self.min_path_len.isNone && self.max_path_len.isNone && self.min_allocated.isNone &&
    self.max_allocated.isNone && self.min_treesize.isNone && self.max_treesize.isNone &&
    self.min_tree_allocated.isNone && self.max_tree_allocated.isNone && self.allowed_months.isEmpty

/-- Every filter at its default. -/
def is_empty (self : SearchFilters) : Bool :=
  !self.hide_system && !self.hide_ads && self.min_size.isNone && self.max_size.isNone && self.newer_us.isNone &&
    self.older_us.isNone && self.newer_created_us.isNone && self.older_created_us.isNone &&
    self.newer_accessed_us.isNone && self.older_accessed_us.isNone && self.attr_require == 0 &&
    self.attr_exclude == 0 && self.min_descendants.isNone && self.max_descendants.isNone && self.extensions.isEmpty &&
    self.exclude_lower.isNone && self.path_contains_lower.isNone && self.path_excludes_lower.isNone &&
    self.type_filter.isNone && self.min_bulkiness.isNone && self.max_bulkiness.isNone && self.min_name_len.isNone &&
    self.max_name_len.isNone && self.min_path_len.isNone && self.max_path_len.isNone && self.min_allocated.isNone &&
    self.max_allocated.isNone && self.min_treesize.isNone && self.max_treesize.isNone &&
    self.min_tree_allocated.isNone && self.max_tree_allocated.isNone && self.allowed_months.isEmpty &&
    self.malformed.isNone && self.deleted.isNone

/-- A filter that only a finished row can be tested against. -/
def needs_display_row_filter (self : SearchFilters) : Bool :=
  self.path_contains_lower.isSome || self.path_excludes_lower.isSome || self.type_filter.isSome

/-- Some requested extension is the lowercased extension of the name. -/
def name_has_extension (self : SearchFilters) (env : Env) (name : Str) : Bool :=
  let ext := extract_extension_after_dot name
  !ext.isEmpty && self.extensions.any fun allowed => extension_matches_filter env allowed (lowercase_into env ext)

/-- The extension test of a record: by id if ids are resolved, else by name. -/
def matches_extension (self : SearchFilters) (env : Env) (rec : CompactRecord) (names : List UInt8) : Bool :=
  if !self.resolved_ext_ids.isEmpty then decide (rec.extension_id ∈ self.resolved_ext_ids)
  else if !self.extensions.isEmpty then self.name_has_extension env (rec.name names)
  else true

def matches_derived (self : SearchFilters) (rec : CompactRecord) (names : List UInt8) : Bool :=
  let name_len := len_to_u16 (rec.name names).length
  let bulk := bulkiness_for_record rec
  at_least self.min_name_len name_len && at_most self.max_name_len name_len &&
    at_least self.min_allocated rec.allocated && at_most self.max_allocated rec.allocated &&
    at_least self.min_treesize rec.treesize && at_most self.max_treesize rec.treesize &&
    at_least self.min_tree_allocated rec.tree_allocated && at_most self.max_tree_allocated rec.tree_allocated &&
    at_least self.min_bulkiness bulk && at_most self.max_bulkiness bulk &&
    at_least self.min_path_len rec.path_len && at_most self.max_path_len rec.path_len &&
    (self.allowed_months.isEmpty || decide (month_from_unix_micros rec.modified ∈ self.allowed_months)) &&
    self.malformed.all fun want => (from_utf8 (rec.name_bytes names)).isNone == want

/-- The filters as the scan tests them on a record. -/
def matches_record (self : SearchFilters) (env : Env) (rec : CompactRecord) (names : List UInt8) (fold : CaseFold) :
    Bool :=
  !(self.hide_system && is_system_metafile rec names) && !(self.hide_ads && decide (':' ∈ rec.name names)) &&
    at_least self.min_size rec.size && at_most self.max_size rec.size &&
    at_least self.newer_us rec.modified && older_than self.older_us rec.modified &&
    at_least self.newer_created_us rec.created && older_than self.older_created_us rec.created &&
    at_least self.newer_accessed_us rec.accessed && older_than self.older_accessed_us rec.accessed &&
    !(self.attr_require != 0 && rec.flags &&& self.attr_require != self.attr_require) &&
    !(self.attr_exclude != 0 && rec.flags &&& self.attr_exclude != 0) &&
    (self.deleted.all fun want_deleted => (rec.flags &&& DELETED_TOMBSTONE_FLAG != 0) == want_deleted) &&
    at_least self.min_descendants rec.descendants && at_most self.max_descendants rec.descendants &&
    self.matches_extension env rec names &&
    (self.exclude_lower.all fun excl => !name_matches (fold.fold_into (rec.name names)) excl) &&
    self.matches_derived rec names

end SearchFilters

/-- A result row. -/
structure DisplayRow where
  record_index : UInt32
  drive : Char
  path : Str
  /-- Characters up to and with the last backslash. -/
  name_start : Nat
  size : UInt64
  is_directory : Bool
  modified : Int64
  created : Int64
  accessed : Int64
  flags : UInt32
  allocated : UInt64
  descendants : UInt32
  treesize : UInt64
  tree_allocated : UInt64
  malformed : Bool := false
  malformed_path : Bool := false
  file_reference : UInt64 := 0
deriving DecidableEq

/-- Where the name of a path starts. -/
def name_start_of (path : Str) : Nat := path.length - (path.reverse.takeWhile (· ≠ '\\')).length

def DisplayRow.name (self : DisplayRow) : Str := self.path.drop self.name_start

def DisplayRow.path_dir (self : DisplayRow) : Str := self.path.take self.name_start

/-- What a file shows as its tree's size on disk is its own. -/
def tree_allocated_for_row (row : DisplayRow) : UInt64 := if row.is_directory then row.tree_allocated else row.allocated

def bulkiness_for_row (row : DisplayRow) : UInt64 :=
  if row.is_directory then bulkiness_from_sizes row.treesize row.tree_allocated
  else bulkiness_from_sizes row.size row.allocated

/-- Category of an extension: the first of the tables that lists it. -/
def semantic_type_from_extension (categories : List (Str × List Str)) (ext : Str) : Str :=
  ((categories.find? fun category => ext ∈ category.2).map (·.1)).getD "other".toList

def semantic_type_for_row (categories : List (Str × List Str)) (row : DisplayRow) : Str :=
  if row.is_directory then "directory".toList
  else
    match rsplit_dot row.name with
    | none => "file".toList
    | some (before, after) =>
      if before.isEmpty || after.isEmpty then "file".toList
      else semantic_type_from_extension categories (to_ascii_lowercase after)

def apply_derived_filters (categories : List (Str × List Str)) (row : DisplayRow) (filters : SearchFilters) : Bool :=
  let name_len := len_to_u16 row.name.length
  let path_len := len_to_u16 row.path.length
  let bulk := bulkiness_for_row row
  at_least filters.min_name_len name_len && at_most filters.max_name_len name_len &&
    at_least filters.min_path_len path_len && at_most filters.max_path_len path_len &&
    (filters.path_contains_lower.all fun pat => name_matches (to_ascii_lowercase row.path_dir) pat) &&
    (filters.path_excludes_lower.all fun excludes =>
      !excludes.any fun pat => name_matches (to_ascii_lowercase row.path_dir) pat) &&
    (filters.type_filter.all fun wanted => semantic_type_for_row categories row == wanted) &&
    at_least filters.min_bulkiness bulk && at_most filters.max_bulkiness bulk &&
    at_least filters.min_allocated row.allocated && at_most filters.max_allocated row.allocated &&
    at_least filters.min_treesize row.treesize && at_most filters.max_treesize row.treesize &&
    at_least filters.min_tree_allocated row.tree_allocated && at_most filters.max_tree_allocated row.tree_allocated &&
    (filters.allowed_months.isEmpty || decide (month_from_unix_micros row.modified ∈ filters.allowed_months))

/-- The filters as they are tested on a finished row. -/
def row_passes_filters (env : Env) (categories : List (Str × List Str)) (row : DisplayRow) (filters : SearchFilters)
    (fold : CaseFold) : Bool :=
  filters.is_empty ||
    (!(filters.hide_system && is_system_name row.name) && !(filters.hide_ads && decide (':' ∈ row.name)) &&
      (filters.malformed.all fun want => row.malformed == want) &&
      at_least filters.min_size row.size && at_most filters.max_size row.size &&
      at_least filters.newer_us row.modified && older_than filters.older_us row.modified &&
      at_least filters.newer_created_us row.created && older_than filters.older_created_us row.created &&
      at_least filters.newer_accessed_us row.accessed && older_than filters.older_accessed_us row.accessed &&
      !(filters.attr_require != 0 && row.flags &&& filters.attr_require != filters.attr_require) &&
      !(filters.attr_exclude != 0 && row.flags &&& filters.attr_exclude != 0) &&
      at_least filters.min_descendants row.descendants && at_most filters.max_descendants row.descendants &&
      (filters.extensions.isEmpty || filters.name_has_extension env row.name) &&
      (filters.exclude_lower.all fun excl => !name_matches (fold.fold_into row.name) excl) &&
      apply_derived_filters categories row filters)

/-- What is known of the bytes of a name, beside its text. -/
structure RowForensics where
  malformed : Bool
  malformed_path : Bool

def row_forensics (rec : CompactRecord) (names : List UInt8) (path_malformed : Bool) : RowForensics :=
  let malformed := (from_utf8 (rec.name_bytes names)).isNone
  { malformed, malformed_path := path_malformed || malformed }

/-- A stream of a directory is shown as a file. -/
def make_display_row (record_index : UInt32) (drive_letter : Char) (rec : CompactRecord) (name path : Str)
    (forensics : RowForensics) : DisplayRow where
  record_index := record_index
  drive := drive_letter
  path := path
  name_start := name_start_of path
  size := rec.size
  is_directory := rec.is_directory && !decide (':' ∈ name)
  modified := rec.modified
  created := rec.created
  accessed := rec.accessed
  flags := rec.flags
  allocated := rec.allocated
  descendants := rec.descendants
  treesize := rec.treesize
  tree_allocated := rec.tree_allocated
  malformed := forensics.malformed
  malformed_path := forensics.malformed_path
  file_reference := rec.file_ref

/-- Some name on the way to the root is ill-formed. -/
def path_malformed (drive : DriveCompactIndex) (record_idx : Nat) : Bool :=
  (path_chain drive.records drive.names (MAX_DEPTH + 1) record_idx).any fun rec =>
    (from_utf8 (rec.name_bytes drive.names)).isNone

/-- The row of a slot whose path has been resolved by itself. -/
def build_row (drive : DriveCompactIndex) (rec_idx : UInt32) (rec : CompactRecord) (render : Render) : DisplayRow :=
  make_display_row rec_idx drive.letter rec (rec.name drive.names)
    (resolve_path drive rec_idx.toNat ( stack_volume_prefix drive.letter) render)
    (row_forensics rec drive.names (path_malformed drive rec_idx.toNat))

variable {dir_cache : DirCache}

section cached

/-! The searches resolve paths through a cache of directories that the rows of a drive share. -/

/-- Path of a directory and whether a name in it is ill-formed; the source keeps two maps and fills them together. -/
abbrev DirCache := UInt32 → Option (Str × Bool)

/-- Slots from one up to the first that is cached, and what the cache has there. -/
def cached_chain (drive : DriveCompactIndex) (dir_cache : DirCache) : Nat → Nat → List Nat × Option (Str × Bool)
  | 0, _ => ([], none)
  | fuel + 1, current_idx =>
    match dir_cache (len_to_u32 current_idx) with
    | some cached => ([], some cached)
    | none =>
      match drive.records[current_idx]? with
      | none => ([], none)
      | some rec =>
        if ends_climb (rec.name_bytes drive.names) then ([], none)
        else if rec.parent_idx = NO_ENTRY then ([current_idx], none)
        else
          let (chain, hit) := cached_chain drive dir_cache fuel rec.parent_idx.toNat
          (current_idx :: chain, hit)

/-- One slot further down; the path of a directory is cached unless one is there. -/
def push_cached (drive : DriveCompactIndex) (render : Render) (state : (Str × Bool) × DirCache) (idx : Nat) :
    (Str × Bool) × DirCache :=
  match drive.records[idx]? with
  | none => state
  | some rec =>
    if ends_climb (rec.name_bytes drive.names) then state
    else
      let resolved := (push_component state.1.1 (name_display_with render rec drive.names),
        state.1.2 || (from_utf8 (rec.name_bytes drive.names)).isNone)
      let dir_cache := state.2
      (resolved, fun key =>
        if rec.is_directory ∧ key = len_to_u32 idx ∧ dir_cache key = none then some resolved else dir_cache key)

def resolve_path_cached_with_malformed (drive : DriveCompactIndex) (record_idx : Nat) (volume_root : Str)
    (dir_cache : DirCache) (render : Render) : (Str × Bool) × DirCache :=
  let (chain, hit) := cached_chain drive dir_cache (MAX_DEPTH + 1) record_idx
  chain.reverse.foldl (push_cached drive render) (hit.getD (volume_root, false), dir_cache)

def build_row_cached (drive : DriveCompactIndex) (rec_idx : UInt32) (rec : CompactRecord) (volume_root : Str)
    (dir_cache : DirCache) (render : Render) : DisplayRow × DirCache :=
  let ((path, path_malformed), dir_cache) :=
    resolve_path_cached_with_malformed drive rec_idx.toNat volume_root dir_cache render
  (make_display_row rec_idx drive.letter rec (rec.name drive.names) path (row_forensics rec drive.names path_malformed), dir_cache)

/-- Caches that the rows of a drive leave behind, built one after the other in any order. -/
inductive Warmed (drive : DriveCompactIndex) (render : Render) : DirCache → Prop
  | empty : Warmed drive render fun _ => none
  | next {dir_cache : DirCache} (before : Warmed drive render dir_cache) (rec_idx : UInt32) :
      Warmed drive render
        (resolve_path_cached_with_malformed drive rec_idx.toNat ( stack_volume_prefix drive.letter) dir_cache render).2

/-- No climb from a slot has a name left where it is cut. -/
def Shallow (drive : DriveCompactIndex) : Prop :=
  ∀ idx, (path_chain drive.records drive.names (MAX_DEPTH + 2) idx).length ≤ MAX_DEPTH + 1

theorem Shallow.chain_eq {drive : DriveCompactIndex} (h : Shallow drive) (idx : Nat) :
    path_chain drive.records drive.names (MAX_DEPTH + 2) idx = path_chain drive.records drive.names (MAX_DEPTH + 1) idx := by
  rw [← take_path_chain drive.records drive.names (MAX_DEPTH + 1) idx]
  exact (List.take_of_length_le (h idx)).symm

variable {drive : DriveCompactIndex} {render : Render}

/-- What the cache has for a slot is what the slot resolves to by itself. -/
def CacheRight (drive : DriveCompactIndex) (render : Render) (dir_cache : DirCache) : Prop :=
  ∀ key cached, dir_cache key = some cached →
    cached = (resolve_path drive key.toNat ( stack_volume_prefix drive.letter) render, path_malformed drive key.toNat)

/-- The next slot of a climb: its path is the one of the slots above with its name put behind. -/
theorem push_cached_right {idx : Nat} (hlt : idx < UInt32.size) {rec : CompactRecord} (hget : drive.records[idx]? = some rec)
    (hends : ends_climb (rec.name_bytes drive.names) = false) {above : List CompactRecord}
    (hchain : path_chain drive.records drive.names (MAX_DEPTH + 1) idx = rec :: above)
    (hright : CacheRight drive render dir_cache) :
    let state := push_cached drive render ((above.reverse.foldl (fun path rec =>
        if ends_climb (rec.name_bytes drive.names) then path
        else push_component path (name_display_with render rec drive.names)) ( stack_volume_prefix drive.letter),
      above.any fun rec => (from_utf8 (rec.name_bytes drive.names)).isNone), dir_cache) idx
    state.1 = (resolve_path drive idx ( stack_volume_prefix drive.letter) render, path_malformed drive idx) ∧
      CacheRight drive render state.2 := by
  have hresolved : (push_component (above.reverse.foldl (fun path rec =>
        if ends_climb (rec.name_bytes drive.names) then path
        else push_component path (name_display_with render rec drive.names)) ( stack_volume_prefix drive.letter))
        (name_display_with render rec drive.names),
      (above.any fun rec => (from_utf8 (rec.name_bytes drive.names)).isNone) || (from_utf8 (rec.name_bytes drive.names)).isNone) =
      (resolve_path drive idx ( stack_volume_prefix drive.letter) render, path_malformed drive idx) := by
    rw [resolve_path, path_malformed, hchain, List.reverse_cons, List.foldl_append, List.foldl_cons, List.foldl_nil, hends,
      List.any_cons, Bool.or_comm]
    rfl
  dsimp only
  rw [push_cached, hget]
  simp only [hends, Bool.false_eq_true, if_false, hresolved]
  refine ⟨trivial, fun key cached hkey => ?_⟩
  dsimp only at hkey
  split at hkey
  next hown =>
    obtain ⟨-, rfl, -⟩ := hown
    rw [len_to_u32_toNat hlt]
    exact (Option.some.inj hkey).symm
  next => exact hright key cached hkey

/-- Through a cache that is right every slot resolves as it does by itself, and the cache stays right. -/
theorem cached_chain_right (hshallow : Shallow drive) (hright : CacheRight drive render dir_cache) {fuel idx : Nat}
    (hfuel : (path_chain drive.records drive.names (MAX_DEPTH + 1) idx).length ≤ fuel) (hidx : idx < UInt32.size) :
    let (chain, hit) := cached_chain drive dir_cache fuel idx
    let state := chain.reverse.foldl (push_cached drive render) (hit.getD ( stack_volume_prefix drive.letter, false), dir_cache)
    state.1 = (resolve_path drive idx ( stack_volume_prefix drive.letter) render, path_malformed drive idx) ∧
      CacheRight drive render state.2 := by
  induction fuel generalizing idx with
  | zero =>
    have hnil := List.length_eq_zero_iff.mp (Nat.le_zero.mp hfuel)
    refine ⟨?_, hright⟩
    rw [resolve_path, path_malformed, hnil]
    rfl
  | succ fuel ih =>
    have hchain := hshallow.chain_eq idx
    rw [path_chain] at hchain
    rw [cached_chain]
    cases hhit : dir_cache (len_to_u32 idx) with
    | some cached =>
      refine ⟨?_, hright⟩
      have := hright _ cached hhit
      rwa [len_to_u32_toNat hidx] at this
    | none =>
      cases hget : drive.records[idx]? with
      | none =>
        rw [hget] at hchain
        refine ⟨?_, hright⟩
        rw [resolve_path, path_malformed, ← hchain]
        rfl
      | some rec =>
        rw [hget] at hchain
        dsimp only at hchain ⊢
        cases hends : ends_climb (rec.name_bytes drive.names) with
        | true =>
          rw [hends, if_pos rfl] at hchain
          refine ⟨?_, hright⟩
          rw [resolve_path, path_malformed, ← hchain]
          rfl
        | false =>
          rw [hends, if_neg Bool.false_ne_true] at hchain
          rw [if_neg Bool.false_ne_true]
          split at hchain
          next hroot =>
            rw [if_pos hroot]
            exact push_cached_right hidx hget hends hchain.symm hright
          next hparent =>
            rw [if_neg hparent]
            rw [← hchain, List.length_cons, Nat.succ_le_succ_iff] at hfuel
            obtain ⟨habove, hkept⟩ := ih hfuel rec.parent_idx.toNat_lt
            dsimp only at habove hkept ⊢
            rw [List.reverse_cons, List.foldl_append, List.foldl_cons, List.foldl_nil]
            obtain ⟨state, hstate⟩ : ∃ state, state = (cached_chain drive dir_cache fuel rec.parent_idx.toNat).1.reverse.foldl
                (push_cached drive render) ((cached_chain drive dir_cache fuel rec.parent_idx.toNat).2.getD
                  ( stack_volume_prefix drive.letter, false), dir_cache) := ⟨_, rfl⟩
            rw [← hstate] at habove hkept ⊢
            have hsplit : state = ((resolve_path drive rec.parent_idx.toNat ( stack_volume_prefix drive.letter) render,
                path_malformed drive rec.parent_idx.toNat), state.2) := Prod.ext habove rfl
            rw [hsplit]
            exact push_cached_right hidx hget hends hchain.symm hkept

theorem resolve_path_cached_right (hshallow : Shallow drive) (hright : CacheRight drive render dir_cache)
    {record_idx : Nat} (hidx : record_idx < UInt32.size) :
    (resolve_path_cached_with_malformed drive record_idx ( stack_volume_prefix drive.letter) dir_cache render).1 =
        (resolve_path drive record_idx ( stack_volume_prefix drive.letter) render, path_malformed drive record_idx) ∧
      CacheRight drive render
        (resolve_path_cached_with_malformed drive record_idx ( stack_volume_prefix drive.letter) dir_cache render).2 :=
  cached_chain_right hshallow hright (length_path_chain_le _ _ _ _) hidx

theorem Warmed.right (hwarm : Warmed drive render dir_cache) (hshallow : Shallow drive) :
    CacheRight drive render dir_cache := by
  induction hwarm with
  | empty => exact nofun
  | next _ rec_idx ih => exact (resolve_path_cached_right hshallow ih rec_idx.toNat_lt).2

/-- A row does not show through which directories in the cache it was built. -/
def CacheUnseen (drive : DriveCompactIndex) (render : Render) : Prop :=
  ∀ dir_cache, Warmed drive render dir_cache → ∀ rec_idx rec,
    (build_row_cached drive rec_idx rec ( stack_volume_prefix drive.letter) dir_cache render).1 = build_row drive rec_idx rec render

/-- On a drive no deeper than the cut every row is the one of its slot alone, whatever rows were
built before. Below the cut a row built first ends the climb early, and one built behind its
directory does not. -/
theorem Shallow.cacheUnseen (hshallow : Shallow drive) (render : Render) : CacheUnseen drive render := by
  intro dir_cache hwarm rec_idx rec
  have hpath := (resolve_path_cached_right hshallow (hwarm.right hshallow) rec_idx.toNat_lt).1
  exact congrArg (fun path : Str × Bool => make_display_row rec_idx drive.letter rec (rec.name drive.names) path.1
    (row_forensics rec drive.names path.2)) hpath

theorem shallow_of_roots (hroots : ∀ rec ∈ drive.records, rec.parent_idx = NO_ENTRY) : Shallow drive := by
  intro idx
  rw [path_chain]
  cases hget : drive.records[idx]? with
  | none => exact Nat.zero_le _
  | some rec =>
    dsimp only
    rw [if_pos (hroots rec (List.mem_of_getElem? hget))]
    split <;> simp

end cached

end uffs.search
