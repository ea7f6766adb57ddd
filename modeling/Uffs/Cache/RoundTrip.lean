import Uffs.Cache.Sections

open uffs.lib uffs.lib.bytes uffs.mft uffs.text uffs.trigram uffs.bloom uffs.compact

namespace uffs.compact_cache

/-- What a cache can hold: every count fits its 32-bit field, and every extension its 16-bit length. -/
structure CacheFits (env : Env) (index : DriveCompactIndex) : Prop where
  records : index.records.length < UInt32.size
  names : index.names.length < UInt32.size
  trigram_keys : index.trigram.keys.length < UInt32.size
  ext_names : index.ext_names.length < UInt32.size
  ext_name : ∀ name ∈ index.ext_names, (as_bytes name).length < UInt16.size
  bloom : (bloom_section env index).bits.length < UInt32.size
  trie : TrieFits (trie_section index)
  frs_to_compact : index.frs_to_compact.length < UInt32.size

/-- The tables have the shape the writer relies on, and the filters pass their own checks. -/
structure Cacheable (env : Env) (index : DriveCompactIndex) : Prop where
  children : ChildrenShape index.records.length index.children
  trigram_offsets : index.trigram.offsets.length = index.trigram.keys.length + 1
  trigram_values : index.trigram.values.length < UInt32.size
  bloom : BloomValid (bloom_section env index)
  trie : TrieValid (trie_section index)

section layout

variable (env : Env) (index : DriveCompactIndex)

def names_start : Nat := 26 + index.records.length * RECORD_BYTES

def children_start : Nat := names_start index + index.names.length

def trigram_start : Nat := children_start index + (index.records.length + 1) * 4 + index.children.values.length * 4

def ext_start : Nat := trigram_start index + (push_trigram_section index.trigram).length

def bloom_start : Nat := ext_start index + (push_ext_names_table index.ext_names).length

def trie_start : Nat := bloom_start index + (push_bloom_section (bloom_section env index)).length

def frs_start : Nat := trie_start env index + (push_trie_section (trie_section index)).length

/-- Every section at its offset. -/
structure Layout (data : List UInt8) : Prop where
  header : At data 0 (push_header index)
  records : At data 26 (cast_slice record_pod index.records)
  names : At data (names_start index) index.names
  children : At data (children_start index) (cast_slice u32 index.children.offsets ++ cast_slice u32 index.children.values)
  trigram : At data (trigram_start index) (push_trigram_section index.trigram)
  ext_names : At data (ext_start index) (push_ext_names_table index.ext_names)
  bloom : At data (bloom_start index) (push_bloom_section (bloom_section env index))
  trie : At data (trie_start env index) (push_trie_section (trie_section index))
  frs : At data (frs_start env index) (push_frs_section index.frs_to_compact)

end layout

theorem push_header_length (index : DriveCompactIndex) : (push_header index).length = 26 := by
  have h16 : (u16.to_bytes COMPACT_VERSION).length = 2 := u16.length_to_bytes _
  have h64 : (u64.to_bytes index.source_epoch).length = 8 := u64.length_to_bytes _
  simp only [push_header, List.length_append, push_u32_length, h16, h64]
  rfl

variable {index : DriveCompactIndex} {env : Env}

theorem serialize_layout (hchildren : index.children.offsets.length = index.records.length + 1) :
    Layout env index (serialize_compact env index) := by
  have hwhole := At.whole (serialize_compact env index)
  have hword : u32.size = 4 := rfl
  have hheader := push_header_length index
  -- The records, names and the tables before the trigrams.
  have hfrs := hwhole.right
  have htrie := hwhole.left.right
  have hbloom := hwhole.left.left.right
  have hext := hwhole.left.left.left.right
  have htrigram := hwhole.left.left.left.left.right
  have htables := hwhole.left.left.left.left.left
  rw [List.append_assoc] at htables
  simp only [List.length_append, hheader, length_cast_slice, hchildren, hword, Nat.zero_add]
    at hfrs htrie hbloom hext htrigram
  have hvalues := htables.right
  have hnames := htables.left.right
  have hrecords := htables.left.left.right
  simp only [List.length_append, hheader, length_cast_slice, Nat.zero_add] at hvalues hnames hrecords
  refine ⟨htables.left.left.left, hrecords, hnames, hvalues, ?_, ?_, ?_, ?_, ?_⟩
  · exact htrigram
  · exact hext
  · exact hbloom
  · exact htrie
  · exact hfrs

theorem parse_compact_header_at {data : List UInt8} (h : At data 0 (push_header index)) :
    parse_compact_header data = .ok (index.source_epoch, 26, COMPACT_VERSION) ∧
      read_u32 data 10 = len_to_u32 index.records.length ∧ read_u32 data 14 = len_to_u32 index.names.length := by
  have h16 : (u16.to_bytes COMPACT_VERSION).length = 2 := u16.length_to_bytes _
  have h64 : (u64.to_bytes index.source_epoch).length = 8 := u64.length_to_bytes _
  have hmagicLen : COMPACT_MAGIC.length = 8 := rfl
  have hlen := h.le_length
  rw [push_header_length] at hlen
  have hmagic := h.left.left.left.left.slice
  have hversion := h.left.left.left.right.slice
  have hrecords := h.left.left.right
  have hnames := h.left.right
  have hepoch := h.right.slice
  simp only [List.length_append, push_u32_length, h16, h64, hmagicLen, Nat.zero_add, Nat.reduceAdd]
    at hmagic hversion hrecords hnames hepoch
  refine ⟨?_, read_u32_at hrecords, read_u32_at hnames⟩
  unfold parse_compact_header
  rw [if_neg (by omega), hmagic, if_neg (fun h => h rfl), hversion, hepoch]
  simp only [Option.map_some, Option.getD_some, u16.from_to_bytes, u64.from_to_bytes]
  rw [if_neg (by decide), if_neg (by decide), if_pos (by decide), if_neg (by omega)]

theorem trigramFits (hfits : CacheFits env index) (hcacheable : Cacheable env index) : TrigramFits index.trigram :=
  ⟨hcacheable.trigram_offsets, hfits.trigram_keys, hcacheable.trigram_values⟩

/-- Both readers of the extension table, at its offset. -/
theorem ext_names_at {data : List UInt8} {offset : Nat} {ext_names : List Str}
    (h : At data offset (push_ext_names_table ext_names)) (hcount : ext_names.length < UInt32.size)
    (hnames : ∀ name ∈ ext_names, (as_bytes name).length < UInt16.size) :
    read_ext_names_table data offset = (ext_names, offset + (push_ext_names_table ext_names).length) ∧
      skip_ext_names_table data offset = .ok (offset + (push_ext_names_table ext_names).length) ∧
      offset + 4 ≤ data.length := by
  have hread := read_u32_push h.left hcount
  have hentries := h.right
  rw [push_u32_length] at hentries
  obtain ⟨htable, hskip⟩ := ext_entries_at hentries hnames
  have hlength : (push_ext_names_table ext_names).length = 4 + (ext_names.flatMap ext_name_entry).length := by
    rw [push_ext_names_table, List.length_append, push_u32_length]
  have hlen := h.le_length
  rw [hlength] at hlen ⊢
  refine ⟨?_, ?_, by omega⟩
  · rw [read_ext_names_table, hread, htable, Nat.add_assoc]
  · rw [skip_ext_names_table, if_neg (by omega), hread, hskip, Nat.add_assoc]

/-- The full reader gets every section back. -/
theorem parse_serialize (hcacheable : Cacheable env index) (hfits : CacheFits env index) :
    parse_compact_body (serialize_compact env index) = .ok
      { source_epoch := index.source_epoch
        records_bytes := cast_slice record_pod index.records
        names_bytes := index.names
        children := index.children
        trigram_loaded := if index.trigram.keys.length > 0 then some index.trigram else none
        ext_names_loaded := some index.ext_names
        bloom_loaded := some (bloom_section env index)
        trie_loaded := some (trie_section index)
        frs_to_compact_loaded := some index.frs_to_compact } := by
  have hlayout : Layout env index (serialize_compact env index) := serialize_layout hcacheable.children.offsets
  obtain ⟨hheader, hrc, hnl⟩ := parse_compact_header_at hlayout.header
  have hrecords := hlayout.records.slice
  have hnames := hlayout.names.slice
  have hchildren := read_children_section_at hlayout.children hcacheable.children
  have htrigram := @read_trigram_section_at _ _ _ COMPACT_VERSION hlayout.trigram (trigramFits hfits hcacheable)
    (by decide)
  obtain ⟨hext, -, hextRoom⟩ := ext_names_at hlayout.ext_names hfits.ext_names hfits.ext_name
  have hbloom := read_bloom_section_at hlayout.bloom hcacheable.bloom hfits.bloom
  have htrie := read_trie_section_at hlayout.trie hcacheable.trie hfits.trie
  have hfrs := read_counted_at hlayout.frs hfits.frs_to_compact "truncated frs_to_compact len"
    "truncated frs_to_compact values" "frs_to_compact slice"
  have hchildrenRoom := hlayout.children.le_length
  have hword : u32.size = 4 := rfl
  simp only [List.length_append, length_cast_slice, hcacheable.children.offsets, hword] at hchildrenRoom hrecords
  have hroom : ¬ (serialize_compact env index).length < children_start index + (index.records.length + 1) * 4 := by omega
  have hversions : COMPACT_VERSION ≥ 5 ∧ COMPACT_VERSION ≥ 7 ∧ COMPACT_VERSION ≥ 9 ∧ COMPACT_VERSION ≥ 10 := by decide
  have htrieStart : bloom_start index + 16 + (bloom_section env index).bits.length * 8 = trie_start env index := by
    rw [trie_start, push_bloom_section_length, Nat.add_assoc]
  -- The offsets of the reader are those of the layout, one by one.
  have hnamesStart : 26 + index.records.length * RECORD_BYTES = names_start index := rfl
  have hchildrenStart : names_start index + index.names.length = children_start index := rfl
  have htrigramStart : children_start index + (index.records.length + 1) * 4 + index.children.values.length * 4 =
      trigram_start index := rfl
  have hextStart : trigram_start index + (push_trigram_section index.trigram).length = ext_start index := rfl
  have hbloomStart : ext_start index + (push_ext_names_table index.ext_names).length = bloom_start index := rfl
  have hfrsStart : trie_start env index + (push_trie_section (trie_section index)).length = frs_start env index := rfl
  change slice? _ _ (26 + index.records.length * RECORD_BYTES) = _ at hrecords
  rw [hnamesStart] at hrecords
  rw [hchildrenStart] at hnames
  rw [htrigramStart] at hchildren
  rw [hextStart] at htrigram
  rw [hbloomStart] at hext
  rw [htrieStart] at hbloom
  rw [hfrsStart] at htrie
  unfold parse_compact_body read_frs_section
  simp only [hheader, ok_bind, hrc, hnl, len_to_u32_toNat hfits.records, len_to_u32_toNat hfits.names, hversions,
    if_true, hnamesStart, hchildrenStart, hroom, if_false, hrecords, hnames, ok_or, hchildren, htrigram, hextRoom,
    hext, and_self, hbloom, htrie, hfrs, pure_eq_ok, ge_iff_le]

/-- The parked reader finds the filter sections where the layout has them. -/
theorem find_filters_serialize (hcacheable : Cacheable env index) (hfits : CacheFits env index) :
    find_v9_filters_offset (serialize_compact env index) = .ok (bloom_start index, index.source_epoch) := by
  have hlayout : Layout env index (serialize_compact env index) := serialize_layout hcacheable.children.offsets
  obtain ⟨hheader, hrc, hnl⟩ := parse_compact_header_at hlayout.header
  have htotal := read_children_total_at hlayout.children.left hcacheable.children
  obtain ⟨hkeyCount, hvalueCount⟩ := trigram_counts_at hlayout.trigram (trigramFits hfits hcacheable)
  obtain ⟨-, hskip, -⟩ := ext_names_at hlayout.ext_names hfits.ext_names hfits.ext_name
  have htrigramRoom := hlayout.trigram.le_length
  rw [push_trigram_section_length (trigramFits hfits hcacheable)] at htrigramRoom
  have hversion : ¬ COMPACT_VERSION < 9 := by decide
  have hnamesStart : 26 + index.records.length * RECORD_BYTES = names_start index := rfl
  have hchildrenStart : names_start index + index.names.length = children_start index := rfl
  have htrigramStart : children_start index + (index.records.length + 1) * 4 + index.children.values.length * 4 =
      trigram_start index := rfl
  have hextStart : trigram_start index + 4 + index.trigram.keys.length * 8 + (index.trigram.keys.length + 1) * 4 + 4 +
      index.trigram.values.length * 4 = ext_start index := by
    rw [ext_start, push_trigram_section_length (trigramFits hfits hcacheable)]
    omega
  have hbloomStart : ext_start index + (push_ext_names_table index.ext_names).length = bloom_start index := rfl
  rw [hbloomStart] at hskip
  unfold find_v9_filters_offset
  simp only [hheader, ok_bind, hversion, if_false, hrc, hnl, len_to_u32_toNat hfits.records,
    len_to_u32_toNat hfits.names, hnamesStart, hchildrenStart, htotal, htrigramStart, hkeyCount, hvalueCount, hextStart]
  rw [if_neg (by omega), if_neg (by omega), if_neg (by omega), if_neg (by omega)]
  simp only [hskip, ok_bind, pure_eq_ok]

/-- The parked reader gets the filters and the epoch back. -/
theorem parked_serialize (hcacheable : Cacheable env index)
    (hfits : CacheFits env index) (fold : CaseFold) (letter : Char) :
    deserialize_parked_body fold (serialize_compact env index) letter = .ok
      { letter := letter, source_epoch := index.source_epoch, bloom := bloom_section env index
        path_trie := trie_section index, fold := fold } := by
  have hlayout : Layout env index (serialize_compact env index) := serialize_layout hcacheable.children.offsets
  have hbloom := read_bloom_section_at hlayout.bloom hcacheable.bloom hfits.bloom
  have htrie := read_trie_section_at hlayout.trie hcacheable.trie hfits.trie
  have htrieStart : bloom_start index + 16 + (bloom_section env index).bits.length * 8 = trie_start env index := by
    rw [trie_start, push_bloom_section_length, Nat.add_assoc]
  rw [htrieStart] at hbloom
  unfold deserialize_parked_body
  simp only [find_filters_serialize hcacheable hfits, ok_bind, hbloom, htrie, pure_eq_ok]

theorem write_u32_eq_push_u32 (val : Nat) : write_u32 val = push_u32 val := by
  have hsize : UInt32.size = 2 ^ 32 := rfl
  rw [write_u32, push_u32, len_to_u32, hsize, NO_ENTRY]

theorem flatten_ext_names (ext_names : List Str) :
    (ext_names.flatMap fun name => [u16.to_bytes (len_to_u16 (as_bytes name).length),
      (slice? (as_bytes name) 0 (len_to_u16 (as_bytes name).length).toNat).getD (as_bytes name)]).flatten =
      ext_names.flatMap ext_name_entry := by
  induction ext_names with
  | nil => rfl
  | cons name ext_names ih =>
    rw [List.flatMap_cons, List.flatten_append, ih, List.flatMap_cons, ext_name_entry]
    simp

/-- The streaming writer emits the bytes of the buffered one. -/
theorem flatten_serialize_to_writer (env : Env) (index : DriveCompactIndex) :
    (serialize_compact_to_writer env index).flatten = serialize_compact env index := by
  unfold serialize_compact_to_writer serialize_compact
  simp only [List.flatten_append, flatten_ext_names, write_bloom_section, write_trie_section, write_u32_eq_push_u32,
    push_header, push_trigram_section, push_ext_names_table, push_bloom_section, push_trie_section, push_frs_section]
  simp only [List.flatten_cons, List.flatten_nil, List.append_nil, List.append_assoc]

/-- What a cache restores of an index. -/
structure Restores (saved loaded : DriveCompactIndex) : Prop where
  records : loaded.records = saved.records
  names : loaded.names = saved.names
  children : loaded.children = saved.children
  trigram : loaded.trigram = saved.trigram
  ext_names : loaded.ext_names = saved.ext_names
  bloom : loaded.bloom = saved.bloom
  path_trie : loaded.path_trie = saved.path_trie
  frs_to_compact : loaded.frs_to_compact = saved.frs_to_compact
  source_epoch : loaded.source_epoch = saved.source_epoch

/-- Loading a saved index gives it back; a trigram table without keys is rebuilt to the same. -/
theorem deserialize_serialize (hcacheable : Cacheable env index)
    (hfits : CacheFits env index) (hbloom : index.bloom ≠ none) (htrie : index.path_trie ≠ none)
    (hempty : index.trigram.keys = [] → TrigramIndex.build index.records index.names index.fold = index.trigram)
    (letter : Char) :
    ∃ loaded, deserialize_compact env index.fold (serialize_compact env index) letter = .ok loaded ∧
      Restores index loaded := by
  obtain ⟨bloom, hbloomSome⟩ := Option.ne_none_iff_exists'.mp hbloom
  obtain ⟨trie, htrieSome⟩ := Option.ne_none_iff_exists'.mp htrie
  unfold deserialize_compact
  rw [parse_serialize hcacheable hfits]
  refine ⟨_, rfl, ⟨aligned_vec_cast_slice _ _, rfl, rfl, ?_, rfl, ?_, ?_, rfl, rfl⟩⟩
  · unfold assemble_compact_index
    dsimp only
    rw [aligned_vec_cast_slice]
    split
    · rfl
    next hkeys =>
      rw [Option.getD_none]
      exact hempty (List.length_eq_zero_iff.mp (Nat.eq_zero_of_not_pos hkeys))
  · simp only [assemble_compact_index, Option.getD_some, bloom_section, hbloomSome]
  · simp only [assemble_compact_index, Option.getD_some, trie_section, htrieSome]

/-- What the cache does not hold is the same for every loaded index. -/
theorem deserialize_compact_frame {fold : CaseFold} {data : List UInt8} {letter : Char}
    {loaded : DriveCompactIndex} (h : deserialize_compact env fold data letter = .ok loaded) :
    loaded.letter = letter ∧ loaded.fold = fold ∧ loaded.delta = none ∧
      loaded.ext_index = ExtensionIndex.build loaded.records := by
  unfold deserialize_compact at h
  cases hparsed : parse_compact_body data with
  | error message =>
    rw [hparsed] at h
    cases h
  | ok parsed =>
    rw [hparsed] at h
    cases h
    exact ⟨rfl, rfl, rfl, rfl⟩

end uffs.compact_cache
