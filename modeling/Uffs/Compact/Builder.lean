import Uffs.Mft.Index
import Uffs.Compact.PathLen

open uffs.mft uffs.text uffs.trigram uffs.bloom uffs.path_trie

namespace uffs.compact

/-- Parent slot of a record; `NO_ENTRY` for a self reference, the sentinel, the root directory
or a parent that is not in the table. -/
def resolve_parent_compact_idx (index : MftIndex) (parent_frs own_frs : UInt64) : UInt32 :=
  if parent_frs = own_frs ∨ parent_frs = NO_ENTRY.toUInt64 ∨ parent_frs = ROOT_FRS then NO_ENTRY
  else
    match index.frs_to_idx[frs_to_usize parent_frs]? with
    | none => NO_ENTRY
    | some idx => idx

/-- The row of one name of a record; the first name and further links share it. -/
def name_row (index : MftIndex) (names : List UInt8) (record : FileRecord) (link : LinkInfo) : CompactRecord where
  size := record.first_stream.size.length
  allocated := record.first_stream.size.allocated
  treesize := record.treesize
  tree_allocated := record.tree_allocated
  created := record.stdinfo.created
  modified := record.stdinfo.modified
  accessed := record.stdinfo.accessed
  file_ref := pack_file_reference record.frs record.sequence_number
  name_offset := link.name.offset
  flags := record.stdinfo.flags
  parent_idx := resolve_parent_compact_idx index link.parent_frs record.frs
  descendants := record.descendants
  name_len := link.name.length
  extension_id := link.name.extension_id
  name_first_byte := names[link.name.offset.toNat]?.getD 0

/-- Non-empty names of a record with their parents. -/
def stream_owners (index : MftIndex) (record : FileRecord) : List (Str × UInt32) :=
  let links := if record.name_count > 1 then record.first_name :: index.more_links record else [record.first_name]
  (links.filter fun link => !(index.get_name link.name).isEmpty).map fun link =>
    (index.get_name link.name, resolve_parent_compact_idx index link.parent_frs record.frs)

/-- Shown streams of a record: output streams with a name. -/
def shown_streams (index : MftIndex) (record : FileRecord) : List IndexStreamInfo :=
  (index.more_streams record).filter fun stream =>
    stream.is_output_stream && !(index.get_name stream.name).isEmpty

/-- Name of a stream row, `base:stream`. -/
def stream_name (index : MftIndex) (base_name : Str) (stream : IndexStreamInfo) : Str :=
  base_name ++ ':' :: index.get_name stream.name

/-- The row of one name and one stream; it has no extension. -/
def stream_row (record : FileRecord) (stream : IndexStreamInfo) (names : List UInt8) (combined : Str)
    (parent_idx : UInt32) : CompactRecord where
  size := stream.size.length
  allocated := stream.size.allocated
  created := record.stdinfo.created
  modified := record.stdinfo.modified
  accessed := record.stdinfo.accessed
  file_ref := pack_file_reference record.frs record.sequence_number
  name_offset := len_to_u32 names.length
  flags := record.stdinfo.flags
  parent_idx := parent_idx
  name_len := len_to_u16 (as_bytes combined).length
  name_first_byte := (as_bytes combined).head?.getD 0

/-- Names blob and extra rows while they grow. -/
abbrev Expansion := List UInt8 × List CompactRecord

def push_stream (index : MftIndex) (record : FileRecord) (stream : IndexStreamInfo) (acc : Expansion)
    (owner : Str × UInt32) : Expansion :=
  let combined := stream_name index owner.1 stream
  (acc.1 ++ as_bytes combined, acc.2 ++ [stream_row record stream acc.1 combined owner.2])

/-- The name × stream cross product of one record, stream by stream. -/
def expand_ads_streams (index : MftIndex) (record : FileRecord) (acc : Expansion) : Expansion :=
  (shown_streams index record).foldl (fun acc stream =>
    (stream_owners index record).foldl (push_stream index record stream) acc) acc

def push_link (index : MftIndex) (record : FileRecord) (acc : Expansion) (link : LinkInfo) : Expansion :=
  (acc.1, acc.2 ++ [name_row index acc.1 record link])

/-- Extra rows of one valid record: further links, then streams. -/
def expand_record (index : MftIndex) (acc : Expansion) (record : FileRecord) : Expansion :=
  let linked :=
    if record.name_count > 1 then (index.more_links record).foldl (push_link index record) acc else acc
  if record.stream_count > 1 then expand_ads_streams index record linked else linked

def expand_links_and_ads (index : MftIndex) (resolver : List PathState) : Expansion :=
  index.records.zipIdx.foldl (fun acc entry =>
    if PathResolver.is_valid_idx resolver entry.2 then expand_record index acc entry.1 else acc) (index.names, [])

/-- Primary rows, one per record; an invalid record leaves a default row. -/
def primary_rows (index : MftIndex) (resolver : List PathState) : List CompactRecord :=
  index.records.zipIdx.map fun entry =>
    if PathResolver.is_valid_idx resolver entry.2 then name_row index index.names entry.1 entry.1.first_name
    else {}

/-- Filter over all folded base names and all extension names. -/
def DriveCompactIndex.build_bloom (self : DriveCompactIndex) (env : Env) : Bloom :=
  let n_items := max (self.records.length + self.ext_names.length) 1
  let sizing := env.bloom_sizing n_items
  let bases := self.records.foldl (fun bloom record =>
    match (record.name_range self.names).bind from_utf8 with
    | none => bloom
    | some name_str => bloom.insert env (as_bytes (self.fold.fold_into name_str)))
    (Bloom.with_size_and_k sizing.1 sizing.2)
  self.ext_names.foldl (fun bloom ext =>
    if (as_bytes ext).isEmpty then bloom else bloom.insert env (as_bytes ext)) bases

def DriveCompactIndex.build_path_trie (self : DriveCompactIndex) : PathTrie :=
  PathTrie.build self.records self.names

/-- The record and name columns before path lengths are computed. -/
def expanded_rows (index : MftIndex) : Expansion :=
  let resolver := PathResolver.build index
  let extra := expand_links_and_ads index resolver
  (extra.1, primary_rows index resolver ++ extra.2)

/-- Assemble the tables over finished columns; the filters are added last. -/
def assemble (drive_letter : Char) (fold : CaseFold) (index : MftIndex) (names : List UInt8)
    (records : List CompactRecord) : DriveCompactIndex where
  letter := drive_letter
  records := records
  names := names
  trigram := TrigramIndex.build records names fold
  children := ChildrenIndex.build records
  ext_index := ExtensionIndex.build records
  fold := fold
  ext_names := index.extension_names
  source_epoch := index.build_epoch
  bloom := none
  path_trie := none
  frs_to_compact := index.frs_to_idx
  delta := none

/-- Build the index of a drive. `fold` is the `$UpCase` table read from the volume. -/
def build_compact_index (env : Env) (drive_letter : Char) (fold : CaseFold) (index : MftIndex) : DriveCompactIndex :=
  let (names, rows) := expanded_rows index
  let records := compute_path_lengths rows names
  let compact_index := assemble drive_letter fold index names records
  { compact_index with
    bloom := some (compact_index.build_bloom env)
    path_trie := some compact_index.build_path_trie }

end uffs.compact
