import Uffs.Cache.Sections

open uffs.lib uffs.lib.bytes uffs.text uffs.trigram uffs.bloom uffs.path_trie uffs.compact

namespace uffs.compact_cache

section positions

variable (data : List UInt8)

/-- Bytes 8 and 9; 0 if they are missing. -/
def header_version : UInt16 := ((slice? data 8 10).map u16.from_bytes).getD 0

def record_count : Nat := (read_u32 data 10).toNat

def names_len : Nat := (read_u32 data 14).toNat

def names_at : Nat := 26 + record_count data * RECORD_BYTES

def child_offsets_at : Nat := names_at data + names_len data

def child_values_at : Nat := child_offsets_at data + (record_count data + 1) * 4

def child_count : Nat := (read_u32 data (child_offsets_at data + record_count data * 4)).toNat

def trigram_at : Nat := child_values_at data + child_count data * 4

def key_count : Nat := (read_u32 data (trigram_at data)).toNat

def trigram_offsets_at : Nat := trigram_at data + 4 + key_count data * 8

def trigram_count_at : Nat := trigram_offsets_at data + (key_count data + 1) * 4

def trigram_count : Nat := (read_u32 data (trigram_count_at data)).toNat

def ext_at : Nat := trigram_count_at data + 4 + trigram_count data * 4

/-- The extension table has no length of its own: it ends where its last entry does. -/
def bloom_at : Nat :=
  if data.length ≥ ext_at data + 4 then (read_ext_names_table data (ext_at data)).2 else ext_at data

def bloom_bits : UInt64 := u64.from_bytes ((data.drop (bloom_at data)).take 8)

def word_count : Nat := (read_u32 data (bloom_at data + 12)).toNat

def trie_at : Nat := bloom_at data + 16 + word_count data * 8

/-- Where a counted array ends: the count, then blocks of `size` bytes. -/
def counted_end (size cursor : Nat) : Nat := cursor + 4 + (read_u32 data cursor).toNat * size

def trie_names_at : Nat := counted_end data 12 (trie_at data)

def trie_offsets_at : Nat := counted_end data 1 (trie_names_at data)

def trie_indices_at : Nat := counted_end data 4 (trie_offsets_at data)

def frs_at : Nat := counted_end data 4 (trie_indices_at data)

def layout_end : Nat := counted_end data 4 (frs_at data)

/-- The blocks of a counted array. -/
def counted {α : Type} (pod : Pod α) (cursor : Nat) : List α :=
  blocks pod data (cursor + 4) (read_u32 data cursor).toNat

end positions

/-- The trie section passes the checks of `from_raw_parts`. -/
structure TrieFramed (data : List UInt8) : Prop where
  offsets : (counted data u32 (trie_offsets_at data)).length = (counted data node_pod (trie_at data)).length + 1
  indices : (counted data u32 (trie_indices_at data)).length =
    ((counted data u32 (trie_offsets_at data)).getLastD 0).toNat
  names : ∀ node ∈ counted data node_pod (trie_at data),
    node.name_offset.toNat + node.name_len.toNat ≤ (read_u32 data (trie_names_at data)).toNat

/-- The bytes have the frame of a cache: every section ends inside the buffer, and the two filters
pass the checks on their own counts. Nothing here is about what the sections hold. -/
structure Framed (data : List UInt8) : Prop where
  magic : slice? data 0 8 = some COMPACT_MAGIC
  oldest : 11 ≤ header_version data
  newest : header_version data ≤ COMPACT_VERSION
  fits : layout_end data ≤ data.length
  hashes : (read_u32 data (bloom_at data + 8)).toNat < 256
  words_pos : 0 < word_count data
  words : (bloom_bits data).toNat = 64 * word_count data
  trie : TrieFramed data

section readers

variable {data : List UInt8}

theorem bind_eq_ok {ε α β : Type} {first : Except ε α} {next : α → Except ε β} {result : β} :
    (first >>= next) = .ok result ↔ ∃ value, first = .ok value ∧ next value = .ok result := by
  cases first with
  | error message => simp [bind, Except.bind]
  | ok value => simp

@[simp] theorem throw_eq {ε α : Type} (message : ε) : (throw message : Except ε α) = .error message := rfl

@[simp] theorem error_bind {ε α β : Type} (message : ε) (next : α → Except ε β) : (Except.error message >>= next) = .error message :=
  rfl

theorem ok_or_eq_ok {α : Type} {value : Option α} {message : String} {result : α} :
    ok_or value message = .ok result ↔ value = some result := by
  cases value <;> simp [ok_or]

theorem ok_or_some {α : Type} (value : α) (message : String) : ok_or (some value) message = .ok value := rfl

theorem slice?_eq_some {α : Type} {values row : List α} {start stop : Nat} :
    slice? values start stop = some row ↔
      start ≤ stop ∧ stop ≤ values.length ∧ row = (values.drop start).take (stop - start) := by
  rw [slice?]
  split
  next h => simp [h.1, h.2, eq_comm]
  next h =>
    constructor
    · intro hrow
      cases hrow
    · intro hrow
      exact absurd ⟨hrow.1, hrow.2.1⟩ h

theorem slice?_inside {α : Type} {values : List α} {start stop : Nat} (hrange : start ≤ stop) (hstop : stop ≤ values.length) :
    slice? values start stop = some ((values.drop start).take (stop - start)) :=
  slice?_eq_some.mpr ⟨hrange, hstop, rfl⟩

/-- A counted array is read exactly when it ends inside the buffer. -/
theorem read_counted_eq_ok {α : Type} {pod : Pod α} {cursor : Nat} {truncated_count truncated slice_message : String}
    {result : List α × Nat} :
    read_counted pod data cursor truncated_count truncated slice_message = .ok result ↔
      counted_end data pod.size cursor ≤ data.length ∧
        result = (counted data pod cursor, counted_end data pod.size cursor) := by
  unfold read_counted counted counted_end
  by_cases hheader : data.length < cursor + 4
  · have hstop : ¬ cursor + 4 + (read_u32 data cursor).toNat * pod.size ≤ data.length := by omega
    simp [hheader, hstop]
  · by_cases hstop : data.length < cursor + 4 + (read_u32 data cursor).toNat * pod.size
    · simp [hheader, hstop]
    · have hroom := Nat.not_lt.mp hstop
      have hslice := @slice?_inside UInt8 data (cursor + 4) _ (Nat.le_add_right _ _) hroom
      have hblocks := aligned_vec_slice hslice
      by_cases hzero : (read_u32 data cursor).toNat = 0
      · rw [hzero, Nat.zero_mul, Nat.add_zero] at hstop hroom ⊢
        simp [hstop, hroom, blocks, pure_eq_ok, eq_comm]
      · simp only [hheader, hstop, hzero, hroom, hslice, hblocks, ok_or, ok_bind, if_false, pure_eq_ok, true_and]
        simp [eq_comm]

theorem read_trie_names_eq_ok {cursor : Nat} {result : List UInt8 × Nat} :
    read_trie_names data cursor = .ok result ↔
      counted_end data 1 cursor ≤ data.length ∧
        result = ((data.drop (cursor + 4)).take (read_u32 data cursor).toNat, counted_end data 1 cursor) := by
  unfold read_trie_names counted_end
  rw [Nat.mul_one]
  by_cases hheader : data.length < cursor + 4
  · have hstop : ¬ cursor + 4 + (read_u32 data cursor).toNat ≤ data.length := by omega
    simp [hheader, hstop]
  · by_cases hstop : data.length < cursor + 4 + (read_u32 data cursor).toNat
    · simp [hheader, hstop]
    · have hroom := Nat.not_lt.mp hstop
      have hslice := @slice?_inside UInt8 data (cursor + 4) _ (Nat.le_add_right _ _) hroom
      simp [hheader, hstop, hroom, hslice, ok_or, pure_eq_ok, eq_comm]

theorem from_raw_parts_eq_some {nodes : List TrieNode} {names : List UInt8} {child_offsets child_indices : List UInt32}
    {trie : PathTrie} :
    PathTrie.from_raw_parts nodes names child_offsets child_indices = some trie ↔
      child_offsets.length = nodes.length + 1 ∧ child_indices.length = (child_offsets.getLastD 0).toNat ∧
        (∀ node ∈ nodes, node.name_offset.toNat + node.name_len.toNat ≤ names.length) ∧
        trie = { nodes, names, child_offsets, child_indices } := by
  unfold PathTrie.from_raw_parts
  generalize child_offsets.getLastD 0 = total
  simp only [List.all_eq_true, decide_eq_true_eq]
  split_ifs with hoffsets hindices hnames
  · simp [hoffsets]
  · simp [hindices]
  · have hshape := And.intro (not_not.mp hoffsets) (not_not.mp hindices)
    constructor
    · intro htrie
      exact ⟨hshape.1, hshape.2, hnames, (Option.some.inj htrie).symm⟩
    · intro htrie
      rw [htrie.2.2.2]
  · simp [hnames]

/-- The filter of the bloom section. -/
def bloom_column (data : List UInt8) : Bloom where
  bits := blocks u64 data (bloom_at data + 16) (word_count data)
  nbits := bloom_bits data
  k_hashes := clamp_k (read_u32 data (bloom_at data + 8)).toUInt8

theorem bloom_from_raw_parts_eq_some {nbits : UInt64} {k_hashes : UInt8} {bits : List UInt64} {bloom : Bloom} :
    Bloom.from_raw_parts nbits k_hashes bits = some bloom ↔
      0 < bits.length ∧ nbits.toNat = 64 * bits.length ∧ bloom = { bits, nbits, k_hashes := clamp_k k_hashes } := by
  have hmod : (nbits % 64).toNat = nbits.toNat % 64 := by simp
  have hdiv : (nbits / 64).toNat = nbits.toNat / 64 := by simp
  have hzero : nbits = 0 ↔ nbits.toNat = 0 := by simp [← UInt64.toNat_inj]
  have hmodZero : nbits % 64 = 0 ↔ nbits.toNat % 64 = 0 := by rw [← hmod, ← UInt64.toNat_inj, UInt64.toNat_zero]
  unfold Bloom.from_raw_parts
  simp only [hdiv, ne_eq, hmodZero, hzero]
  split_ifs with hbits hwords
  · constructor
    · intro h
      cases h
    · intro h
      omega
  · have hpos : 0 < bits.length := by omega
    have hwhole : nbits.toNat = 64 * bits.length := by omega
    simp [hpos, hwhole, eq_comm]
  · constructor
    · intro h
      cases h
    · intro h
      omega

theorem read_bloom_section_eq_ok {result : Bloom × Nat} :
    read_bloom_section data (bloom_at data) = .ok result ↔
      trie_at data ≤ data.length ∧ (read_u32 data (bloom_at data + 8)).toNat < 256 ∧ 0 < word_count data ∧
        (bloom_bits data).toNat = 64 * word_count data ∧ result = (bloom_column data, trie_at data) := by
  unfold read_bloom_section bloom_column
  rw [trie_at]
  by_cases hheader : data.length < bloom_at data + 16
  · have hstop : ¬ bloom_at data + 16 + word_count data * 8 ≤ data.length := by omega
    simp [hheader, hstop]
  have hnbits := @slice?_inside UInt8 data (bloom_at data) (bloom_at data + 8) (by omega) (by omega)
  rw [Nat.add_sub_cancel_left] at hnbits
  by_cases hhashes : (read_u32 data (bloom_at data + 8)).toNat ≥ 256
  · have hrange : ¬ (read_u32 data (bloom_at data + 8)).toNat < 256 := by omega
    simp [hheader, hnbits, hhashes, hrange, ok_or]
  by_cases hstop : data.length < bloom_at data + 16 + word_count data * 8
  · have hstop' := hstop
    unfold word_count at hstop'
    simp [hheader, hnbits, hhashes, hstop, hstop', ok_or]
  have hroom := Nat.not_lt.mp hstop
  have hslice := @slice?_inside UInt8 data (bloom_at data + 16) _ (Nat.le_add_right _ _) hroom
  have hblocks := @aligned_vec_slice UInt64 data _ u64 (bloom_at data + 16) (word_count data) hslice
  unfold word_count at *
  simp only [hheader, hnbits, hhashes, hstop, hslice, hblocks, hroom, ok_or_some, ok_bind, Option.map_some, if_false,
    true_and, bind_eq_ok, ok_or_eq_ok, bloom_from_raw_parts_eq_some, blocks_length]
  have hrange := Nat.not_le.mp hhashes
  constructor
  · rintro ⟨bloom, ⟨hpos, hbits, rfl⟩, hresult⟩
    exact ⟨hrange, hpos, hbits, (Except.ok.inj hresult).symm⟩
  · rintro ⟨-, hpos, hbits, rfl⟩
    exact ⟨_, ⟨hpos, hbits, rfl⟩, rfl⟩

/-- The trie of the trie section. -/
def trie_column (data : List UInt8) : PathTrie where
  nodes := counted data node_pod (trie_at data)
  names := (data.drop (trie_names_at data + 4)).take (read_u32 data (trie_names_at data)).toNat
  child_offsets := counted data u32 (trie_offsets_at data)
  child_indices := counted data u32 (trie_indices_at data)

theorem le_counted_end (data : List UInt8) (size cursor : Nat) : cursor + 4 ≤ counted_end data size cursor :=
  Nat.le_add_right _ _

theorem trie_ends (data : List UInt8) :
    counted_end data node_pod.size (trie_at data) = trie_names_at data ∧
      counted_end data 1 (trie_names_at data) = trie_offsets_at data ∧
      counted_end data u32.size (trie_offsets_at data) = trie_indices_at data ∧
      counted_end data u32.size (trie_indices_at data) = frs_at data :=
  ⟨rfl, rfl, rfl, rfl⟩

theorem read_trie_section_eq_ok {result : PathTrie × Nat} :
    read_trie_section data (trie_at data) = .ok result ↔
      frs_at data ≤ data.length ∧ TrieFramed data ∧ result = (trie_column data, frs_at data) := by
  obtain ⟨hnodes, hnames, hoffsets, hindices⟩ := trie_ends data
  have hnamesEnd := le_counted_end data 1 (trie_names_at data)
  have hoffsetsEnd := le_counted_end data u32.size (trie_offsets_at data)
  have hindicesEnd := le_counted_end data u32.size (trie_indices_at data)
  have hstop : trie_offsets_at data = trie_names_at data + 4 + (read_u32 data (trie_names_at data)).toNat := by
    rw [trie_offsets_at, counted_end, Nat.mul_one]
  unfold read_trie_section
  simp only [bind_eq_ok, read_counted_eq_ok, read_trie_names_eq_ok, ok_or_eq_ok, from_raw_parts_eq_some, and_assoc,
    exists_and_left, exists_eq_left, hnodes, hnames, hoffsets, hindices, List.length_take, List.length_drop]
  constructor
  · rintro ⟨-, -, -, hroom, hcount, htotal, hinside, hresult⟩
    refine ⟨hroom, ⟨hcount, htotal, ?_⟩, (Except.ok.inj hresult).symm⟩
    intro node hnode
    have hnode' := hinside node hnode
    omega
  · rintro ⟨hroom, hframed, rfl⟩
    refine ⟨by omega, by omega, by omega, hroom, hframed.offsets, hframed.indices, ?_, rfl⟩
    intro node hnode
    have hnode' := hframed.names node hnode
    omega

/-- The children of the children section. -/
def children_column (data : List UInt8) : ChildrenIndex where
  offsets := blocks u32 data (child_offsets_at data) (record_count data + 1)
  values := blocks u32 data (child_values_at data) (child_count data)

/-- A word of a slice is the word of the buffer. -/
theorem read_u32_slice {block : List UInt8} {start stop offset : Nat} (h : slice? data start stop = some block)
    (hoffset : start + offset + 4 ≤ stop) : read_u32 block offset = read_u32 data (start + offset) := by
  obtain ⟨hrange, hstop, rfl⟩ := slice?_eq_some.mp h
  have hlen : ((data.drop start).take (stop - start)).length = stop - start := by
    rw [List.length_take, List.length_drop]
    omega
  have hinner := @slice?_inside UInt8 ((data.drop start).take (stop - start)) offset (offset + 4) (by omega) (by omega)
  have houter := @slice?_inside UInt8 data (start + offset) (start + offset + 4) (by omega) (by omega)
  rw [read_u32, read_u32, hinner, houter]
  rw [List.drop_take, List.drop_drop, List.take_take, Nat.add_sub_cancel_left, Nat.add_sub_cancel_left,
    Nat.min_eq_left (by omega)]

theorem slice?_outside {α : Type} {values : List α} {start stop : Nat} (hstop : values.length < stop) :
    slice? values start stop = none := by
  rw [slice?, if_neg]
  omega

theorem read_children_section_eq_ok {result : ChildrenIndex × Nat} :
    read_children_section data (record_count data) (child_offsets_at data) = .ok result ↔
      trigram_at data ≤ data.length ∧ result = (children_column data, trigram_at data) := by
  have hstart : child_offsets_at data + (record_count data + 1) * 4 = child_values_at data := rfl
  have hend : child_values_at data + child_count data * 4 = trigram_at data := rfl
  unfold read_children_section
  rw [hstart]
  by_cases hoffsets : data.length < child_values_at data
  · have hroom : ¬ trigram_at data ≤ data.length := by omega
    simp [slice?_outside hoffsets, ok_or, hroom, bind, Except.bind]
  have hslice := @slice?_inside UInt8 data (child_offsets_at data) (child_values_at data) (by omega) (Nat.not_lt.mp hoffsets)
  have hcount := @read_u32_slice data _ _ _ (record_count data * 4) hslice (by omega)
  have hcolumn := @aligned_vec_slice UInt32 data _ u32 (child_offsets_at data) (record_count data + 1) hslice
  have hcp : (read_u32 data (child_offsets_at data + record_count data * 4)).toNat = child_count data := rfl
  simp only [hslice, ok_or_some, ok_bind, hcount, hcp, hend, hcolumn]
  by_cases hvalues : data.length < trigram_at data
  · simp [hvalues]
  have hroom := Nat.not_lt.mp hvalues
  have hblock := @slice?_inside UInt8 data (child_values_at data) (trigram_at data) (by omega) hroom
  have hrows := @aligned_vec_slice UInt32 data _ u32 (child_values_at data) (child_count data) hblock
  simp only [hvalues, if_false, hblock, ok_or_some, ok_bind, hrows, hroom, true_and, pure_eq_ok, Except.ok.injEq]
  exact eq_comm

/-- The trigram table of the trigram section; an empty one is not loaded. -/
def trigram_column (data : List UInt8) : Option TrigramIndex :=
  if 0 < key_count data then
    some { keys := blocks u64 data (trigram_at data + 4) (key_count data)
           offsets := blocks u32 data (trigram_offsets_at data) (key_count data + 1)
           values := blocks u32 data (trigram_count_at data + 4) (trigram_count data) }
  else none

theorem read_trigram_section_eq_ok {version : UInt16} (hversion : 6 ≤ version) {result : Option TrigramIndex × Nat} :
    read_trigram_section data version (trigram_at data) = .ok result ↔
      ext_at data ≤ data.length ∧ result = (trigram_column data, ext_at data) := by
  have hkeys : trigram_at data + 4 + key_count data * 8 = trigram_offsets_at data := rfl
  have hoffsets : trigram_offsets_at data + (key_count data + 1) * 4 = trigram_count_at data := rfl
  have hvalues : trigram_count_at data + 4 + trigram_count data * 4 = ext_at data := rfl
  have htkc : (read_u32 data (trigram_at data)).toNat = key_count data := rfl
  have hvc : (read_u32 data (trigram_count_at data)).toNat = trigram_count data := rfl
  unfold read_trigram_section
  simp only [htkc, hkeys, hoffsets, hvc, hvalues, hversion, if_true]
  by_cases hheader : data.length < trigram_at data + 4
  · have hroom : ¬ ext_at data ≤ data.length := by omega
    simp [hheader, hroom]
  by_cases hcount : data.length < trigram_count_at data + 4
  · have hroom : ¬ ext_at data ≤ data.length := by omega
    simp [hheader, hcount, hroom]
  by_cases hstop : data.length < ext_at data
  · simp [hheader, hcount, hstop]
  have hroom := Nat.not_lt.mp hstop
  simp only [hheader, hcount, hstop, hroom, if_false, true_and]
  unfold trigram_column
  by_cases hzero : 0 < key_count data
  · have hkeySlice := @slice?_inside UInt8 data (trigram_at data + 4) (trigram_offsets_at data) (by omega) (by omega)
    have hoffsetSlice := @slice?_inside UInt8 data (trigram_offsets_at data) (trigram_count_at data) (by omega) (by omega)
    have hvalueSlice := @slice?_inside UInt8 data (trigram_count_at data + 4) (ext_at data) (by omega) hroom
    have hkeyBlocks := @aligned_vec_slice UInt64 data _ u64 (trigram_at data + 4) (key_count data) hkeySlice
    have hoffsetBlocks := @aligned_vec_slice UInt32 data _ u32 (trigram_offsets_at data) (key_count data + 1) hoffsetSlice
    have hvalueBlocks := @aligned_vec_slice UInt32 data _ u32 (trigram_count_at data + 4) (trigram_count data) hvalueSlice
    simp only [hzero, if_true, hkeySlice, hoffsetSlice, hvalueSlice, ok_or_some, ok_bind, hkeyBlocks,
      hoffsetBlocks, hvalueBlocks, pure_eq_ok, Except.ok.injEq]
    exact eq_comm
  · simp only [hzero, if_false, pure_eq_ok, Except.ok.injEq]
    exact eq_comm

/-- The header is accepted for the versions 11, 12 and 13. -/
theorem parse_compact_header_eq_ok {epoch : UInt64} {body_offset : Nat} {version : UInt16} :
    parse_compact_header data = .ok (epoch, body_offset, version) ↔
      26 ≤ data.length ∧ slice? data 0 8 = some COMPACT_MAGIC ∧ 11 ≤ header_version data ∧
        header_version data ≤ COMPACT_VERSION ∧ epoch = ((slice? data 18 26).map u64.from_bytes).getD 0 ∧
        body_offset = 26 ∧ version = header_version data := by
  unfold parse_compact_header
  rw [← header_version]
  dsimp only
  generalize header_version data = found
  split_ifs with hshort hmagic hold hnew hthird hlen
  · have hroom : ¬ 26 ≤ data.length := by omega
    simp [hroom]
  · simp [hmagic]
  · simp [UInt16.not_le.mpr hold]
  · simp [UInt16.not_le.mpr hnew]
  · have hroom : ¬ 26 ≤ data.length := by omega
    simp [hroom]
  · simp [Nat.not_lt.mp hlen, not_not.mp hmagic, UInt16.not_lt.mp hold, UInt16.not_lt.mp hnew, eq_comm]
  · -- a version that passed the floor is above 3
    exact absurd (UInt16.le_trans (by decide) (UInt16.not_lt.mp hold)) hthird

/-- What a framed buffer parses to. -/
def columns (data : List UInt8) : ParsedCompactBody where
  source_epoch := ((slice? data 18 26).map u64.from_bytes).getD 0
  records_bytes := (data.drop 26).take (record_count data * RECORD_BYTES)
  names_bytes := (data.drop (names_at data)).take (names_len data)
  children := children_column data
  trigram_loaded := trigram_column data
  ext_names_loaded := some (read_ext_names_table data (ext_at data)).1
  bloom_loaded := some (bloom_column data)
  trie_loaded := some (trie_column data)
  frs_to_compact_loaded := some (counted data u32 (frs_at data))

theorem le_read_ext_entries (data : List UInt8) (count pos : Nat) : pos ≤ (read_ext_entries data count pos).2 := by
  induction count generalizing pos with
  | zero => simp [read_ext_entries]
  | succ count ih =>
    rw [read_ext_entries]
    split
    next lo hi _ _ =>
      dsimp only
      split
      · exact Nat.le_add_right pos 2
      · have hnext := ih (pos + 2 + (u16.from_bytes [lo, hi]).toNat)
        omega
    next => simp

theorem ext_at_le_bloom_at (data : List UInt8) : ext_at data ≤ bloom_at data := by
  unfold bloom_at
  split
  · have hentries := le_read_ext_entries data (read_u32 data (ext_at data)).toNat (ext_at data + 4)
    rw [read_ext_names_table]
    omega
  · simp

/-- The sections stand behind each other. -/
theorem positions_le (data : List UInt8) :
    26 ≤ names_at data ∧ names_at data ≤ child_offsets_at data ∧ child_offsets_at data + 4 ≤ child_values_at data ∧
      child_values_at data ≤ trigram_at data ∧ trigram_at data + 4 ≤ ext_at data ∧ bloom_at data + 16 ≤ trie_at data ∧
      trie_at data ≤ frs_at data ∧ frs_at data ≤ layout_end data := by
  obtain ⟨hnodes, hnames, hoffsets, hindices⟩ := trie_ends data
  have hnodesEnd := le_counted_end data node_pod.size (trie_at data)
  have hnamesEnd := le_counted_end data 1 (trie_names_at data)
  have hoffsetsEnd := le_counted_end data u32.size (trie_offsets_at data)
  have hindicesEnd := le_counted_end data u32.size (trie_indices_at data)
  have hlast := le_counted_end data 4 (frs_at data)
  rw [← layout_end] at hlast
  refine ⟨Nat.le_add_right _ _, Nat.le_add_right _ _, ?_, Nat.le_add_right _ _, ?_, Nat.le_add_right _ _, by omega, by omega⟩
  · rw [child_values_at]
    omega
  · rw [ext_at, trigram_count_at, trigram_offsets_at]
    omega

theorem read_frs_section_eq_ok {result : List UInt32 × Nat} :
    read_frs_section data (frs_at data) = .ok result ↔
      layout_end data ≤ data.length ∧ result = (counted data u32 (frs_at data), layout_end data) :=
  read_counted_eq_ok

/-- The parser accepts exactly the framed buffers. -/
theorem parse_compact_body_eq_ok {parsed : ParsedCompactBody} :
    parse_compact_body data = .ok parsed ↔ Framed data ∧ parsed = columns data := by
  have hrc : (read_u32 data 10).toNat = record_count data := rfl
  have hnl : (read_u32 data 14).toNat = names_len data := rfl
  have hre : 26 + record_count data * RECORD_BYTES = names_at data := rfl
  have hne : names_at data + names_len data = child_offsets_at data := rfl
  have hce : child_offsets_at data + (record_count data + 1) * 4 = child_values_at data := rfl
  obtain ⟨hrecords, hnames, hoffsets, hchildren, htrigram, hbloom, htrie, hfrs⟩ := positions_le data
  have hext := ext_at_le_bloom_at data
  unfold parse_compact_body
  cases hheader : parse_compact_header data with
  | error message =>
    have hnot : ¬ Framed data := by
      intro hframed
      have hfits := hframed.fits
      cases hheader.symm.trans (parse_compact_header_eq_ok.mpr
        ⟨by omega, hframed.magic, hframed.oldest, hframed.newest, rfl, rfl, rfl⟩)
    simp [hnot, bind, Except.bind]
  | ok header =>
    obtain ⟨epoch, body_offset, version⟩ := header
    obtain ⟨-, hmagic, hold, hnew, rfl, rfl, rfl⟩ := parse_compact_header_eq_ok.mp hheader
    have hatLeast : ∀ {least : UInt16}, least ≤ 11 → header_version data ≥ least := fun hleast => UInt16.le_trans hleast hold
    have h5 := @hatLeast 5 (by decide)
    have h7 := @hatLeast 7 (by decide)
    have h9 := @hatLeast 9 (by decide)
    have h10 := @hatLeast 10 (by decide)
    have hsection := fun result => @read_trigram_section_eq_ok data (header_version data) (hatLeast (by decide)) result
    have hafter : (if data.length ≥ ext_at data + 4 then
        ((some (read_ext_names_table data (ext_at data)).1 : Option (List Str)), (read_ext_names_table data (ext_at data)).2)
        else (none, ext_at data)).2 = bloom_at data := by
      unfold bloom_at
      split <;> simp
    simp only [ok_bind, h5, h7, h9, h10, if_true, true_and, hrc, hnl, hre, hne, hce]
    by_cases hshort : data.length < child_values_at data
    · have hnot : ¬ Framed data := by
        intro hframed
        have hfits := hframed.fits
        omega
      simp [hshort, hnot]
    have hrecordSlice := @slice?_inside UInt8 data 26 (names_at data) hrecords (by omega)
    have hnameSlice := @slice?_inside UInt8 data (names_at data) (child_offsets_at data) hnames (by omega)
    simp only [hshort, if_false, hrecordSlice, hnameSlice, ok_or_some, ok_bind, bind_eq_ok, read_children_section_eq_ok,
      hsection, pure_eq_ok, Except.ok.injEq, and_assoc, exists_and_left, exists_eq_left, hafter, read_bloom_section_eq_ok,
      read_trie_section_eq_ok, read_frs_section_eq_ok]
    have hrecordLen : names_at data - 26 = record_count data * RECORD_BYTES := by omega
    have hnameLen : child_offsets_at data - names_at data = names_len data := by omega
    rw [hrecordLen, hnameLen]
    constructor
    · rintro ⟨-, -, -, hhashes, hpos, hbits, -, htrie', hfits, rfl⟩
      have hroom : data.length ≥ ext_at data + 4 := by omega
      rw [if_pos hroom]
      exact ⟨⟨hmagic, hold, hnew, hfits, hhashes, hpos, hbits, htrie'⟩, rfl⟩
    · rintro ⟨hframed, rfl⟩
      have hfits := hframed.fits
      have hroom : data.length ≥ ext_at data + 4 := by omega
      rw [if_pos hroom]
      exact ⟨by omega, by omega, by omega, hframed.hashes, hframed.words_pos, hframed.words, by omega, hframed.trie,
        hfits, rfl⟩

end readers

end uffs.compact_cache
