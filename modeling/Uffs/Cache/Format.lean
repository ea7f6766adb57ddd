import Uffs.Lib.Bytes
import Uffs.Compact.Builder

open uffs.lib uffs.lib.bytes uffs.mft uffs.text uffs.trigram uffs.bloom uffs.path_trie uffs.compact

namespace uffs.compact_cache

/-- `b"UFFSCOM\0"`. -/
def COMPACT_MAGIC : List UInt8 := [0x55, 0x46, 0x46, 0x53, 0x43, 0x4F, 0x4D, 0x00]

def COMPACT_VERSION : UInt16 := 13

/-- The on-disk row is the `repr(C)` one: fields in order, widest first, no padding in between. -/
def record_pod : Pod CompactRecord :=
  (u64.pair <| u64.pair <| u64.pair <| u64.pair <| i64.pair <| i64.pair <| i64.pair <| u64.pair <|
    u32.pair <| u32.pair <| u32.pair <| u32.pair <| u16.pair <| u16.pair <| u16.pair <| u8.pair u8).iso
    (fun rec => (rec.size, rec.allocated, rec.treesize, rec.tree_allocated, rec.created, rec.modified, rec.accessed,
      rec.file_ref, rec.name_offset, rec.flags, rec.parent_idx, rec.descendants, rec.name_len, rec.extension_id,
      rec.path_len, rec.name_first_byte, rec.pad))
    (fun (size, allocated, treesize, tree_allocated, created, modified, accessed, file_ref, name_offset, flags,
        parent_idx, descendants, name_len, extension_id, path_len, name_first_byte, pad) =>
      { size, allocated, treesize, tree_allocated, created, modified, accessed, file_ref, name_offset, flags,
        parent_idx, descendants, name_len, extension_id, path_len, name_first_byte, pad })
    fun _ => rfl

def RECORD_BYTES : Nat := record_pod.size

example : RECORD_BYTES = 88 := rfl

def node_pod : Pod TrieNode :=
  (u32.pair <| u32.pair <| u16.pair u16).iso
    (fun node => (node.parent_idx, node.name_offset, node.name_len, node.padding))
    (fun (parent_idx, name_offset, name_len, padding) => { parent_idx, name_offset, name_len, padding })
    fun _ => rfl

def push_u32 (value : Nat) : List UInt8 := u32.to_bytes (len_to_u32 value)

/-- Read a little-endian `u32`, 0 past the end. -/
def read_u32 (data : List UInt8) (offset : Nat) : UInt32 :=
  match slice? data offset (offset + 4) with
  | none => 0
  | some block => u32.from_bytes block

/-- `ok_or`. -/
def ok_or {α : Type} (value : Option α) (message : String) : Except String α :=
  match value with
  | none => .error message
  | some a => .ok a

section writers

/-- One entry of the extension table; a name that is too long is cut at the 16-bit length. -/
def ext_name_entry (name : Str) : List UInt8 :=
  let bytes := as_bytes name
  let len := len_to_u16 bytes.length
  u16.to_bytes len ++ (slice? bytes 0 len.toNat).getD bytes

def push_bloom_section (bloom : Bloom) : List UInt8 :=
  u64.to_bytes bloom.nbits ++ u32.to_bytes bloom.k_hashes.toUInt32 ++ push_u32 bloom.bits.length ++
    cast_slice u64 bloom.bits

def push_trie_section (trie : PathTrie) : List UInt8 :=
  push_u32 trie.nodes.length ++ cast_slice node_pod trie.nodes ++
    (push_u32 trie.names.length ++ trie.names) ++
    (push_u32 trie.child_offsets.length ++ cast_slice u32 trie.child_offsets) ++
    (push_u32 trie.child_indices.length ++ cast_slice u32 trie.child_indices)

/-- The filter that is written: the one the index carries, or a fresh one. -/
def bloom_section (env : Env) (index : DriveCompactIndex) : Bloom := index.bloom.getD (index.build_bloom env)

def trie_section (index : DriveCompactIndex) : PathTrie := index.path_trie.getD index.build_path_trie

def push_header (index : DriveCompactIndex) : List UInt8 :=
  COMPACT_MAGIC ++ u16.to_bytes COMPACT_VERSION ++ push_u32 index.records.length ++ push_u32 index.names.length ++
    u64.to_bytes index.source_epoch

def push_trigram_section (trigram : TrigramIndex) : List UInt8 :=
  push_u32 trigram.keys.length ++ cast_slice u64 trigram.keys ++ cast_slice u32 trigram.offsets ++
    push_u32 trigram.values.length ++ cast_slice u32 trigram.values

def push_ext_names_table (ext_names : List Str) : List UInt8 :=
  push_u32 ext_names.length ++ ext_names.flatMap ext_name_entry

def push_frs_section (frs_to_compact : List UInt32) : List UInt8 :=
  push_u32 frs_to_compact.length ++ cast_slice u32 frs_to_compact

def serialize_compact (env : Env) (index : DriveCompactIndex) : List UInt8 :=
  push_header index ++ cast_slice record_pod index.records ++ index.names ++
    cast_slice u32 index.children.offsets ++ cast_slice u32 index.children.values ++
    push_trigram_section index.trigram ++ push_ext_names_table index.ext_names ++
    push_bloom_section (bloom_section env index) ++ push_trie_section (trie_section index) ++
    push_frs_section index.frs_to_compact

/-- `u32::try_from(val).unwrap_or(u32::MAX)` in little-endian bytes. -/
def write_u32 (val : Nat) : List UInt8 :=
  u32.to_bytes (if val < 2 ^ 32 then UInt32.ofNat val else 0xFFFFFFFF)

def write_bloom_section (bloom : Bloom) : List (List UInt8) :=
  [u64.to_bytes bloom.nbits, u32.to_bytes bloom.k_hashes.toUInt32, write_u32 bloom.bits.length,
    cast_slice u64 bloom.bits]

def write_trie_section (trie : PathTrie) : List (List UInt8) :=
  [write_u32 trie.nodes.length, cast_slice node_pod trie.nodes,
    write_u32 trie.names.length, trie.names,
    write_u32 trie.child_offsets.length, cast_slice u32 trie.child_offsets,
    write_u32 trie.child_indices.length, cast_slice u32 trie.child_indices]

/-- The buffers that reach `write_all`, in order. A writer that fails sees an initial part of them. -/
def serialize_compact_to_writer (env : Env) (index : DriveCompactIndex) : List (List UInt8) :=
  [COMPACT_MAGIC, u16.to_bytes COMPACT_VERSION, write_u32 index.records.length, write_u32 index.names.length,
    u64.to_bytes index.source_epoch,
    cast_slice record_pod index.records,
    index.names,
    cast_slice u32 index.children.offsets, cast_slice u32 index.children.values,
    write_u32 index.trigram.keys.length, cast_slice u64 index.trigram.keys, cast_slice u32 index.trigram.offsets,
    write_u32 index.trigram.values.length, cast_slice u32 index.trigram.values,
    write_u32 index.ext_names.length] ++
  (index.ext_names.flatMap fun name =>
    let bytes := as_bytes name
    let len := len_to_u16 bytes.length
    [u16.to_bytes len, (slice? bytes 0 len.toNat).getD bytes]) ++
  write_bloom_section (bloom_section env index) ++
  write_trie_section (trie_section index) ++
  [write_u32 index.frs_to_compact.length, cast_slice u32 index.frs_to_compact]

end writers

section readers

/-- Epoch, offset of the body, and version. -/
def parse_compact_header (data : List UInt8) : Except String (UInt64 × Nat × UInt16) :=
  if data.length < 18 then .error "compact cache too short"
  else if slice? data 0 8 ≠ some COMPACT_MAGIC then .error "bad compact magic"
  else
    let version := ((slice? data 8 10).map u16.from_bytes).getD 0
    if version < 11 then
      .error "stale compact version (v<11 → rebuild for WI-4.4 WTF-8 names / Phase 8 frs_to_compact)"
    else if version > COMPACT_VERSION then .error "unsupported compact version (future)"
    else if version ≥ 3 then
      if data.length < 26 then .error "compact cache truncated (v3 header)"
      else .ok (((slice? data 18 26).map u64.from_bytes).getD 0, 26, version)
    else .ok (0, 18, version)

def read_bloom_section (data : List UInt8) (offset : Nat) : Except String (Bloom × Nat) := do
  if data.length < offset + 16 then throw "truncated bloom header"
  let nbits ← ok_or ((slice? data offset (offset + 8)).map u64.from_bytes) "bloom nbits OOB"
  let k_hashes_raw := read_u32 data (offset + 8)
  if k_hashes_raw.toNat ≥ 256 then throw "bloom k_hashes out of range"
  let words_count := (read_u32 data (offset + 12)).toNat
  let words_start := offset + 16
  let words_end := words_start + words_count * 8
  if data.length < words_end then throw "truncated bloom words"
  let words ← ok_or (slice? data words_start words_end) "bloom words slice"
  let bloom ← ok_or (Bloom.from_raw_parts nbits k_hashes_raw.toUInt8 (aligned_vec_from_bytes u64 words))
    "bloom invariants"
  return (bloom, words_end)

/-- A counted array of blocks: the count, then the blocks. -/
def read_counted {α : Type} (pod : Pod α) (data : List UInt8) (cursor : Nat) (truncated_count truncated : String)
    (slice_message : String) : Except String (List α × Nat) := do
  if data.length < cursor + 4 then throw truncated_count
  let count := (read_u32 data cursor).toNat
  let stop := cursor + 4 + count * pod.size
  if data.length < stop then throw truncated
  if count = 0 then return ([], stop)
  let block ← ok_or (slice? data (cursor + 4) stop) slice_message
  return (aligned_vec_from_bytes pod block, stop)

/-- The names of the trie: the length, then the bytes. -/
def read_trie_names (data : List UInt8) (cursor : Nat) : Except String (List UInt8 × Nat) := do
  if data.length < cursor + 4 then throw "truncated trie names_len"
  let names_len := (read_u32 data cursor).toNat
  let names_end := cursor + 4 + names_len
  if data.length < names_end then throw "truncated trie names"
  let names ← ok_or (slice? data (cursor + 4) names_end) "trie names slice"
  return (names, names_end)

def read_trie_section (data : List UInt8) (offset : Nat) : Except String (PathTrie × Nat) := do
  let (nodes, after_nodes) ← read_counted node_pod data offset "truncated trie node_count" "truncated trie nodes"
    "trie nodes slice"
  let (names, after_names) ← read_trie_names data after_nodes
  let (offsets, after_offsets) ← read_counted u32 data after_names "truncated trie offsets_count"
    "truncated trie offsets" "trie offsets slice"
  let (indices, after_indices) ← read_counted u32 data after_offsets "truncated trie indices_count"
    "truncated trie indices" "trie indices slice"
  let trie ← ok_or (PathTrie.from_raw_parts nodes names offsets indices) "trie invariants"
  return (trie, after_indices)

/-- Entries of the extension table; a table that ends early is cut there. -/
def read_ext_entries (data : List UInt8) : Nat → Nat → List Str × Nat
  | 0, pos => ([], pos)
  | count + 1, pos =>
    match data[pos]?, data[pos + 1]? with
    | some lo, some hi =>
      let slen := (u16.from_bytes [lo, hi]).toNat
      match slice? data (pos + 2) (pos + 2 + slen) with
      | none => ([], pos + 2)
      | some block =>
        let (rest, stop) := read_ext_entries data count (pos + 2 + slen)
        ((from_utf8 block).getD [] :: rest, stop)
    | _, _ => ([], pos)

def read_ext_names_table (data : List UInt8) (offset : Nat) : List Str × Nat :=
  read_ext_entries data (read_u32 data offset).toNat (offset + 4)

/-- Children table: `rc + 1` offsets, the last of which counts the values. -/
def read_children_section (data : List UInt8) (rc cs : Nat) : Except String (ChildrenIndex × Nat) := do
  let ce := cs + (rc + 1) * 4
  let csr_off ← ok_or (slice? data cs ce) "truncated CSR"
  let cp := read_u32 csr_off (rc * 4)
  let pe := ce + cp.toNat * 4
  if data.length < pe then throw "truncated CSR postings"
  let cv ← ok_or (slice? data ce pe) "CSR OOB"
  return ({ offsets := aligned_vec_from_bytes u32 csr_off, values := aligned_vec_from_bytes u32 cv }, pe)

/-- Trigram table of a v6+ cache; an empty one is reported as absent, so that it is rebuilt. -/
def read_trigram_section (data : List UInt8) (version : UInt16) (pe : Nat) :
    Except String (Option TrigramIndex × Nat) := do
  if data.length < pe + 4 then throw "truncated trigram header"
  let tkc := (read_u32 data pe).toNat
  if version ≥ 6 then
    let ks := pe + 4
    let ke := pe + 4 + tkc * 8
    let oe := pe + 4 + tkc * 8 + (tkc + 1) * 4
    if data.length < oe + 4 then throw "truncated trigram CSR"
    let vc := (read_u32 data oe).toNat
    let ve := oe + 4 + vc * 4
    if data.length < ve then throw "truncated trigram values"
    if tkc > 0 then
      let tk ← ok_or (slice? data ks ke) "trigram keys"
      let offs ← ok_or (slice? data ke oe) "trigram offsets"
      let tv ← ok_or (slice? data (oe + 4) ve) "trigram values"
      return (some ⟨aligned_vec_from_bytes u64 tk, aligned_vec_from_bytes u32 offs, aligned_vec_from_bytes u32 tv⟩, ve)
    else return (none, ve)
  else return (none, pe + 4)

def read_frs_section (data : List UInt8) (after_trie : Nat) : Except String (List UInt32 × Nat) :=
  read_counted u32 data after_trie "truncated frs_to_compact len" "truncated frs_to_compact values"
    "frs_to_compact slice"

/-- Parsed columns of a cache; `none` stands for a section the version does not have. -/
structure ParsedCompactBody where
  source_epoch : UInt64
  records_bytes : List UInt8
  names_bytes : List UInt8
  children : ChildrenIndex
  trigram_loaded : Option TrigramIndex
  ext_names_loaded : Option (List Str)
  bloom_loaded : Option Bloom
  trie_loaded : Option PathTrie
  frs_to_compact_loaded : Option (List UInt32)

def parse_compact_body (data : List UInt8) : Except String ParsedCompactBody := do
  let (source_epoch, body_offset, version) ← parse_compact_header data
  let rc := (read_u32 data 10).toNat
  let nl := (read_u32 data 14).toNat
  let re := body_offset + rc * RECORD_BYTES
  let ne := re + nl
  let cs := if version ≥ 5 then ne else ne + nl
  if data.length < cs + (rc + 1) * 4 then throw "compact cache truncated"
  let records_bytes ← ok_or (slice? data body_offset re) "truncated records"
  let names_bytes ← ok_or (slice? data re ne) "truncated names"
  let (children, pe) ← read_children_section data rc cs
  let (trigram_loaded, after_tri) ← read_trigram_section data version pe
  let (ext_names_loaded, after_ext) :=
    if version ≥ 7 ∧ data.length ≥ after_tri + 4 then
      ((some (read_ext_names_table data after_tri).1 : Option (List Str)), (read_ext_names_table data after_tri).2)
    else (none, after_tri)
  let (bloom_loaded, trie_loaded, after_trie) ←
    if version ≥ 9 then do
      let (bloom, after_bloom) ← read_bloom_section data after_ext
      let (trie, after_trie) ← read_trie_section data after_bloom
      pure (some bloom, some trie, after_trie)
    else pure ((none, none, after_ext) : Option Bloom × Option PathTrie × Nat)
  let frs_to_compact_loaded ←
    if version ≥ 10 then do
      let (values, _) ← read_frs_section data after_trie
      pure (some values)
    else pure (none : Option (List UInt32))
  return { source_epoch, records_bytes, names_bytes, children, trigram_loaded, ext_names_loaded, bloom_loaded,
           trie_loaded, frs_to_compact_loaded }

/-- Extension table of a cache that has none: the first name seen with each id. -/
def rebuild_ext_names (records : List CompactRecord) (names : List UInt8) (fold : CaseFold) : List Str :=
  let max_id := (records.map fun rec => rec.extension_id.toNat).foldl max 0
  let table : List (Option Str) := (List.replicate (max_id + 1) none).set 0 (some [])
  let filled := records.foldl (fun table rec =>
    let idx := rec.extension_id.toNat
    match table[idx]? with
    | some (some _) => table
    | _ =>
      match rsplit_dot (rec.name names) with
      | none => table
      | some (_, ext_raw) => table.set idx (some (fold.fold_into ext_raw))) table
  filled.map fun entry => entry.getD []

/-- Store the columns and build what the cache does not hold. -/
def assemble_compact_index (env : Env) (drive_letter : Char) (fold : CaseFold) (parsed : ParsedCompactBody) :
    DriveCompactIndex :=
  let records := aligned_vec_from_bytes record_pod parsed.records_bytes
  let names := parsed.names_bytes
  let compact_index : DriveCompactIndex :=
    { letter := drive_letter
      records := records
      names := names
      trigram := parsed.trigram_loaded.getD (TrigramIndex.build records names fold)
      children := parsed.children
      ext_index := ExtensionIndex.build records
      fold := fold
      ext_names := parsed.ext_names_loaded.getD (rebuild_ext_names records names fold)
      source_epoch := parsed.source_epoch
      bloom := none
      path_trie := none
      frs_to_compact := parsed.frs_to_compact_loaded.getD []
      delta := none }
  { compact_index with
    bloom := some (parsed.bloom_loaded.getD (compact_index.build_bloom env))
    path_trie := some (parsed.trie_loaded.getD compact_index.build_path_trie) }

/-- Load an index. `fold` is the `$UpCase` table of the drive, read again at load time. -/
def deserialize_compact (env : Env) (fold : CaseFold) (data : List UInt8) (drive_letter : Char) :
    Except String DriveCompactIndex := do
  let parsed ← parse_compact_body data
  return assemble_compact_index env drive_letter fold parsed

end readers

/-- The filters of a shard that is not resident. -/
structure ParkedBody where
  letter : Char
  source_epoch : UInt64
  bloom : Bloom
  path_trie : PathTrie
  fold : CaseFold

/-- The filters of a resident shard, built again only if they are missing. -/
def to_parked_body (env : Env) (index : DriveCompactIndex) : ParkedBody where
  letter := index.letter
  source_epoch := index.source_epoch
  bloom := index.bloom.getD (index.build_bloom env)
  path_trie := index.path_trie.getD index.build_path_trie
  fold := index.fold

/-- Skip the entries of the extension table. -/
def skip_ext_entries (data : List UInt8) : Nat → Nat → Except String Nat
  | 0, pos => .ok pos
  | count + 1, pos => do
    let lo ← ok_or data[pos]? "truncated ext_names entry header"
    let hi ← ok_or data[pos + 1]? "truncated ext_names entry header"
    let slen := (u16.from_bytes [lo, hi]).toNat
    let entry_end := pos + 2 + slen
    if data.length < entry_end then throw "truncated ext_names entry body"
    skip_ext_entries data count entry_end

def skip_ext_names_table (data : List UInt8) (offset : Nat) : Except String Nat :=
  if data.length < offset + 4 then .error "truncated ext_names header"
  else skip_ext_entries data (read_u32 data offset).toNat (offset + 4)

/-- Offset of the filter sections and the epoch, by header arithmetic alone. -/
def find_v9_filters_offset (data : List UInt8) : Except String (Nat × UInt64) := do
  let (source_epoch, body_offset, version) ← parse_compact_header data
  if version < 9 then throw "parked-body load requires cache format v9+"
  let record_count := (read_u32 data 10).toNat
  let names_len := (read_u32 data 14).toNat
  let records_end := body_offset + record_count * RECORD_BYTES
  let names_end := records_end + names_len
  let csr_off_end := names_end + (record_count + 1) * 4
  if data.length < csr_off_end then throw "compact cache truncated (CSR header)"
  let postings_count := (read_u32 data (csr_off_end - 4)).toNat
  let postings_end := csr_off_end + postings_count * 4
  if data.length < postings_end + 4 then throw "truncated trigram header"
  let trigram_key_count := (read_u32 data postings_end).toNat
  let keys_end := postings_end + 4 + trigram_key_count * 8
  let offsets_end := keys_end + (trigram_key_count + 1) * 4
  if data.length < offsets_end + 4 then throw "truncated trigram CSR"
  let values_count := (read_u32 data offsets_end).toNat
  let values_end := offsets_end + 4 + values_count * 4
  if data.length < values_end then throw "truncated trigram values"
  let after_ext ← skip_ext_names_table data values_end
  return (after_ext, source_epoch)

def deserialize_parked_body (fold : CaseFold) (data : List UInt8) (drive_letter : Char) : Except String ParkedBody := do
  let (filters_offset, source_epoch) ← find_v9_filters_offset data
  let (bloom, after_bloom) ← read_bloom_section data filters_offset
  let (path_trie, _) ← read_trie_section data after_bloom
  return { letter := drive_letter, source_epoch, bloom, path_trie, fold }

end uffs.compact_cache
