import Uffs.Compact.Delta
import Uffs.Compact.Tables
import Uffs.Compact.Trigram
import Uffs.Compact.Bloom
import Uffs.Compact.PathTrie
import Uffs.Lib.Seq

open uffs.lib uffs.mft uffs.text uffs.trigram uffs.bloom uffs.path_trie

namespace uffs.compact

/-- Compact per-drive search index: the record columns, the immutable base tables over them,
and the overlay of changes since the tables were built (`none` right after a compaction). -/
structure DriveCompactIndex where
  letter : Char
  records : List CompactRecord
  names : List UInt8
  trigram : TrigramIndex
  children : ChildrenIndex
  ext_index : ExtensionIndex
  fold : CaseFold
  ext_names : List Str
  source_epoch : UInt64
  bloom : Option Bloom
  path_trie : Option PathTrie
  frs_to_compact : List UInt32
  delta : Option IndexDelta

def TRIGRAM_COMPACT_THRESHOLD : UInt32 := 50000

/-- A record whose path length changed; `subtree` asks for its descendants too. -/
structure PathChange where
  idx : UInt32
  subtree : Bool
deriving DecidableEq

def DriveCompactIndex.trigram_search (self : DriveCompactIndex) (needle : Str) : Option (List UInt32) :=
  match self.delta with
  | none => self.trigram.search needle self.fold
  | some delta => do
    let trigrams ← needle_trigrams needle self.fold
    if trigrams.isEmpty then some []
    else
      let merged := trigrams.map fun tri =>
        merge_postings ((self.trigram.get_posting tri).getD []) (delta.trigram tri)
      let lists := merged.filter fun list => !list.isEmpty
      if lists.isEmpty then some []
      else
        let result := intersect_all lists
        -- With no tombstones the test below keeps everything, as the source's guard does.
        some (result.filter fun idx =>
          !delta.is_tombstoned idx || trigrams.all fun tri => idx ∈ delta.trigram tri)

def DriveCompactIndex.compact_base (self : DriveCompactIndex) : DriveCompactIndex :=
  { self with
    trigram := TrigramIndex.build self.records self.names self.fold
    ext_index := ExtensionIndex.build self.records
    children := ChildrenIndex.build self.records
    delta := none }

def DriveCompactIndex.fold_delta_for_save (self : DriveCompactIndex) : DriveCompactIndex :=
  if self.delta.isSome then self.compact_base else self

def DriveCompactIndex.children_of (self : DriveCompactIndex) (parent : UInt32) : List UInt32 :=
  let base := self.children.get parent.toNat
  match self.delta with
  | none => base
  | some delta =>
    merge_filter base (delta.children parent) fun child =>
      match self.records[child.toNat]? with
      | none => false
      | some rec => rec.parent_idx == parent && rec.name_len != 0

def DriveCompactIndex.records_with_ext (self : DriveCompactIndex) (ext_id : UInt16) : List UInt32 :=
  let base := self.ext_index.get ext_id.toNat
  match self.delta with
  | none => base
  | some delta =>
    (merge_postings base (delta.ext ext_id)).filter fun idx =>
      match self.records[idx.toNat]? with
      | none => false
      | some rec => rec.extension_id == ext_id && rec.name_len != 0

/-- Overlay of one created or renamed record; a record without a name is skipped. -/
def DriveCompactIndex.overlay_add (self : DriveCompactIndex) (delta : IndexDelta) (change : PathChange) : IndexDelta :=
  match self.records[change.idx.toNat]? with
  | none => delta
  | some rec =>
    if rec.name_len = 0 then delta
    else
      delta.add_record change.idx ((needle_trigrams (rec.name self.names) self.fold).getD [])
        rec.extension_id rec.parent_idx

/-- Register a batch in the overlay, or rebuild the base when the overlay would grow too large.
The flag tells whether a rebuild happened. -/
def DriveCompactIndex.apply_index_delta (self : DriveCompactIndex) (adds : List PathChange)
    (tombstones : List UInt32) : DriveCompactIndex × Bool :=
  let pending := (self.delta.map IndexDelta.touched_records).getD 0
  let batch := len_to_u32 (adds.length + tombstones.length)
  if saturating_add pending batch > TRIGRAM_COMPACT_THRESHOLD then (self.compact_base, true)
  else
    let masked := tombstones.foldl IndexDelta.tombstone (self.delta.getD {})
    ({ self with delta := some (adds.foldl self.overlay_add masked) }, false)

/-- Position of the last dot, as the characters before and after it. -/
def rsplit_dot (filename : Str) : Option (Str × Str) :=
  let after := (filename.reverse.takeWhile (· ≠ '.')).reverse
  if '.' ∈ filename then some (filename.take (filename.length - after.length - 1), after) else none

/-- Normalized extension of a file name; `none` for a dotfile, a trailing dot, or no dot. -/
def normalized_ext (env : Env) (filename : Str) : Option Str := do
  let (before, raw_ext) ← rsplit_dot filename
  if before.isEmpty || raw_ext.isEmpty then none
  else
    let normalized := env.to_lowercase (raw_ext.dropWhile (· == '.'))
    if normalized.isEmpty then none else some normalized

/-- `u16::try_from(idx).unwrap_or(0)`. -/
def ext_id_of (idx : Nat) : UInt16 := if idx < UInt16.size then UInt16.ofNat idx else 0

/-- The Unicode property `White_Space`. -/
def is_whitespace (ch : Char) : Bool :=
  let cp := ch.toNat
  (0x09 ≤ cp && cp ≤ 0x0D) || cp = 0x20 || cp = 0x85 || cp = 0xA0 || cp = 0x1680 || (0x2000 ≤ cp && cp ≤ 0x200A) ||
    cp = 0x2028 || cp = 0x2029 || cp = 0x202F || cp = 0x205F || cp = 0x3000

/-- `str::trim`. -/
def trim (text : Str) : Str :=
  ((text.dropWhile is_whitespace).reverse.dropWhile is_whitespace).reverse

/-- Ids of the requested extensions that the table knows, in order and without repetitions. -/
def DriveCompactIndex.resolve_ext_ids (self : DriveCompactIndex) (env : Env) (extensions : List Str) : List UInt16 :=
  let ids := extensions.filterMap fun ext =>
    let normalized := env.to_lowercase ((trim ext).dropWhile (· == '.'))
    if normalized.isEmpty then none else (self.ext_names.idxOf? normalized).map ext_id_of
  dedup_runs (ids.mergeSort fun a b => a ≤ b)

/-- Find or append the extension; past the ceiling of the id space it falls back to 0. -/
def DriveCompactIndex.intern_extension (self : DriveCompactIndex) (env : Env) (filename : Str) :
    DriveCompactIndex × UInt16 :=
  match normalized_ext env filename with
  | none => (self, 0)
  | some normalized =>
    match self.ext_names.idxOf? normalized with
    | some existing => (self, ext_id_of existing)
    | none =>
      if self.ext_names.length < 0xFFFF then
        ({ self with ext_names := self.ext_names ++ [normalized] }, UInt16.ofNat self.ext_names.length)
      else (self, 0)

end uffs.compact
