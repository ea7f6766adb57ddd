import Uffs.Cache.Format

open uffs.lib uffs.lib.bytes uffs.mft uffs.text uffs.trigram uffs.bloom uffs.path_trie uffs.compact

namespace uffs.compact_cache

@[simp] theorem ok_bind {ε α β : Type} (value : α) (next : α → Except ε β) : (Except.ok value >>= next) = next value :=
  rfl

theorem pure_eq_ok {ε α : Type} (value : α) : (pure value : Except ε α) = Except.ok value := rfl

@[simp] theorem push_u32_length (value : Nat) : (push_u32 value).length = 4 := u32.length_to_bytes _

variable {data : List UInt8}

theorem read_u32_at {offset : Nat} {value : UInt32} (h : At data offset (u32.to_bytes value)) :
    read_u32 data offset = value := by
  have hslice := h.slice
  rw [u32.length_to_bytes] at hslice
  have hsize : u32.size = 4 := rfl
  rw [hsize] at hslice
  unfold read_u32
  rw [hslice]
  exact u32.from_to_bytes value

theorem read_u32_push {offset count : Nat} (h : At data offset (push_u32 count)) (hcount : count < UInt32.size) :
    (read_u32 data offset).toNat = count := by
  rw [read_u32_at h, len_to_u32_toNat hcount]

/-- A counted array reads back. -/
theorem read_counted_at {α : Type} {pod : Pod α} {cursor : Nat} {values : List α}
    (h : At data cursor (push_u32 values.length ++ cast_slice pod values)) (hcount : values.length < UInt32.size)
    (truncated_count truncated slice_message : String) :
    read_counted pod data cursor truncated_count truncated slice_message =
      .ok (values, cursor + 4 + values.length * pod.size) := by
  have hlen := h.le_length
  have hread := read_u32_push h.left hcount
  have hslice := h.right.slice
  rw [push_u32_length, length_cast_slice] at hslice
  rw [List.length_append, push_u32_length, length_cast_slice] at hlen
  have hroom : ¬ data.length < cursor + 4 := by omega
  have hstop : ¬ data.length < cursor + 4 + values.length * pod.size := by omega
  unfold read_counted
  simp only [hread, hroom, hstop, hslice, if_false, ok_or, ok_bind, aligned_vec_cast_slice, pure_eq_ok]
  by_cases hzero : values.length = 0
  · rw [if_pos hzero, List.length_eq_zero_iff.mp hzero]
  · rw [if_neg hzero]

theorem read_trie_names_at {data names : List UInt8} {cursor : Nat}
    (h : At data cursor (push_u32 names.length ++ names)) (hcount : names.length < UInt32.size) :
    read_trie_names data cursor = .ok (names, cursor + 4 + names.length) := by
  have hlen := h.le_length
  have hread := read_u32_push h.left hcount
  have hslice := h.right.slice
  rw [push_u32_length] at hslice
  rw [List.length_append, push_u32_length] at hlen
  have hroom : ¬ data.length < cursor + 4 := by omega
  have hstop : ¬ data.length < cursor + 4 + names.length := by omega
  unfold read_trie_names
  simp only [hread, hroom, hstop, hslice, if_false, ok_or, ok_bind, pure_eq_ok]

/-- The filter passes its own checks. -/
def BloomValid (bloom : Bloom) : Prop := Bloom.from_raw_parts bloom.nbits bloom.k_hashes bloom.bits = some bloom

/-- The trie passes its own checks. -/
def TrieValid (trie : PathTrie) : Prop :=
  PathTrie.from_raw_parts trie.nodes trie.names trie.child_offsets trie.child_indices = some trie

theorem push_bloom_section_length (bloom : Bloom) :
    (push_bloom_section bloom).length = 16 + bloom.bits.length * 8 := by
  have h64 : (u64.to_bytes bloom.nbits).length = 8 := u64.length_to_bytes _
  have h32 : (u32.to_bytes bloom.k_hashes.toUInt32).length = 4 := u32.length_to_bytes _
  have hsize : u64.size = 8 := rfl
  simp only [push_bloom_section, List.length_append, h64, h32, push_u32_length, length_cast_slice, hsize]

theorem read_bloom_section_at {offset : Nat} {bloom : Bloom} (h : At data offset (push_bloom_section bloom))
    (hvalid : BloomValid bloom) (hwords : bloom.bits.length < UInt32.size) :
    read_bloom_section data offset = .ok (bloom, offset + 16 + bloom.bits.length * 8) := by
  have h64 : (u64.to_bytes bloom.nbits).length = 8 := u64.length_to_bytes _
  have h32 : (u32.to_bytes bloom.k_hashes.toUInt32).length = 4 := u32.length_to_bytes _
  have hsize : u64.size = 8 := rfl
  have hlen := h.le_length
  rw [push_bloom_section_length] at hlen
  have hnbits := h.left.left.left.slice
  rw [h64] at hnbits
  have hk := h.left.left.right
  rw [h64] at hk
  have hcount := h.left.right
  rw [List.length_append, h64, h32] at hcount
  have hbits := h.right.slice
  rw [List.length_append, List.length_append, h64, h32, push_u32_length, length_cast_slice, hsize] at hbits
  have hkNat : bloom.k_hashes.toUInt32.toNat = bloom.k_hashes.toNat := UInt8.toNat_toUInt32 _
  have hkLt := bloom.k_hashes.toNat_lt_size
  have hkSize : UInt8.size = 256 := rfl
  have hheader : ¬ data.length < offset + 16 := by omega
  have hkRange : ¬ bloom.k_hashes.toUInt32.toNat ≥ 256 := by omega
  have hstop : ¬ data.length < offset + 16 + bloom.bits.length * 8 := by omega
  have hkBack : bloom.k_hashes.toUInt32.toUInt8 = bloom.k_hashes := UInt8.toUInt8_toUInt32 _
  unfold read_bloom_section
  simp only [hheader, hnbits, read_u32_at hk, hkRange, read_u32_push hcount hwords, hstop, hbits, hkBack, if_false,
    ok_or, ok_bind, aligned_vec_cast_slice, Option.map_some, u64.from_to_bytes]
  rw [hvalid]
  rfl

/-- The 32-bit counts of the trie section. -/
structure TrieFits (trie : PathTrie) : Prop where
  nodes : trie.nodes.length < UInt32.size
  names : trie.names.length < UInt32.size
  child_offsets : trie.child_offsets.length < UInt32.size
  child_indices : trie.child_indices.length < UInt32.size

theorem push_trie_section_length (trie : PathTrie) :
    (push_trie_section trie).length = 16 + trie.nodes.length * 12 + trie.names.length +
      trie.child_offsets.length * 4 + trie.child_indices.length * 4 := by
  have hnode : node_pod.size = 12 := rfl
  have hword : u32.size = 4 := rfl
  simp only [push_trie_section, List.length_append, push_u32_length, length_cast_slice, hnode, hword]
  omega

theorem read_trie_section_at {offset : Nat} {trie : PathTrie} (h : At data offset (push_trie_section trie))
    (hvalid : TrieValid trie) (hfits : TrieFits trie) :
    read_trie_section data offset = .ok (trie, offset + (push_trie_section trie).length) := by
  have hnodes := read_counted_at h.left.left.left hfits.nodes "truncated trie node_count" "truncated trie nodes"
    "trie nodes slice"
  have hnames := read_trie_names_at h.left.left.right hfits.names
  have hoffsets := read_counted_at h.left.right hfits.child_offsets "truncated trie offsets_count"
    "truncated trie offsets" "trie offsets slice"
  have hindices := read_counted_at h.right hfits.child_indices "truncated trie indices_count" "truncated trie indices"
    "trie indices slice"
  have hnode : node_pod.size = 12 := rfl
  have hword : u32.size = 4 := rfl
  simp only [List.length_append, push_u32_length, length_cast_slice, hnode, hword, ← Nat.add_assoc]
    at hnodes hnames hoffsets hindices
  unfold TrieValid at hvalid
  unfold read_trie_section
  rw [push_trie_section_length, hnodes]
  simp only [ok_bind, hnames, hoffsets, hindices, hvalid, ok_or, pure_eq_ok]
  congr 2
  omega

/-- Two bytes of a 16-bit length. -/
theorem u16_to_bytes_eq (value : UInt16) : ∃ lo hi, u16.to_bytes value = [lo, hi] :=
  List.length_eq_two.mp (u16.length_to_bytes value)

theorem ext_name_entry_eq {name : Str} (hname : (as_bytes name).length < UInt16.size) :
    ext_name_entry name = u16.to_bytes (len_to_u16 (as_bytes name).length) ++ as_bytes name := by
  have hslice : slice? (as_bytes name) 0 (as_bytes name).length = some (as_bytes name) := by
    have hwhole := (At.whole (as_bytes name)).slice
    rwa [Nat.zero_add] at hwhole
  unfold ext_name_entry
  dsimp only
  rw [len_to_u16_toNat hname, hslice]
  rfl

/-- What one entry of the table looks like to both readers. -/
theorem ext_entry_at {pos : Nat} {name : Str} (hname : (as_bytes name).length < UInt16.size)
    (h : At data pos (ext_name_entry name)) :
    ∃ lo hi, data[pos]? = some lo ∧ data[pos + 1]? = some hi ∧
      (u16.from_bytes [lo, hi]).toNat = (as_bytes name).length ∧
      slice? data (pos + 2) (pos + 2 + (as_bytes name).length) = some (as_bytes name) ∧
      pos + 2 + (as_bytes name).length ≤ data.length := by
  rw [ext_name_entry_eq hname] at h
  obtain ⟨lo, hi, hbytes⟩ := u16_to_bytes_eq (len_to_u16 (as_bytes name).length)
  have hback := u16.from_to_bytes (len_to_u16 (as_bytes name).length)
  rw [hbytes] at h hback
  have hlow := h.left.getElem? (Nat.zero_lt_two)
  have hhigh := h.left.getElem? (Nat.one_lt_two)
  have hslice := h.right.slice
  have hlen := h.le_length
  simp only [List.length_append, List.length_cons, List.length_nil] at hslice hlen
  refine ⟨lo, hi, hlow, hhigh, ?_, hslice, by omega⟩
  rw [hback, len_to_u16_toNat hname]

/-- Both readers of the extension table walk it to its end. -/
theorem ext_entries_at {pos : Nat} {ext_names : List Str} (h : At data pos (ext_names.flatMap ext_name_entry))
    (hnames : ∀ name ∈ ext_names, (as_bytes name).length < UInt16.size) :
    read_ext_entries data ext_names.length pos =
        (ext_names, pos + (ext_names.flatMap ext_name_entry).length) ∧
      skip_ext_entries data ext_names.length pos = .ok (pos + (ext_names.flatMap ext_name_entry).length) := by
  induction ext_names generalizing pos with
  | nil => exact ⟨rfl, rfl⟩
  | cons name ext_names ih =>
    have hname := hnames name List.mem_cons_self
    obtain ⟨lo, hi, hlow, hhigh, hlen, hslice, hroom⟩ := ext_entry_at hname h.left
    have hentry : (ext_name_entry name).length = 2 + (as_bytes name).length := by
      rw [ext_name_entry_eq hname, List.length_append, u16.length_to_bytes]
      rfl
    have hrest := h.right
    rw [hentry, ← Nat.add_assoc] at hrest
    obtain ⟨hread, hskip⟩ := ih hrest fun other hother => hnames other (List.mem_cons_of_mem _ hother)
    have htotal : pos + 2 + (as_bytes name).length + (ext_names.flatMap ext_name_entry).length =
        pos + ((name :: ext_names).flatMap ext_name_entry).length := by
      rw [List.flatMap_cons, List.length_append, hentry]
      omega
    have hfits : ¬ data.length < pos + 2 + (as_bytes name).length := by omega
    constructor
    · rw [List.length_cons, read_ext_entries, hlow, hhigh]
      simp only [hlen, hslice, hread, from_utf8_as_bytes, Option.getD_some, htotal]
    · rw [List.length_cons, skip_ext_entries]
      simp only [hlow, hhigh, ok_or, ok_bind, hlen, hfits, if_false, hskip, htotal]

/-- Shape of the children table: an offset for each row and the total, which counts the values. -/
structure ChildrenShape (rc : Nat) (children : ChildrenIndex) : Prop where
  offsets : children.offsets.length = rc + 1
  total : ∃ total : UInt32, children.offsets[rc]? = some total ∧ total.toNat = children.values.length

theorem read_children_section_at {cs rc : Nat} {children : ChildrenIndex}
    (h : At data cs (cast_slice u32 children.offsets ++ cast_slice u32 children.values)) (hshape : ChildrenShape rc children) :
    read_children_section data rc cs = .ok (children, cs + (rc + 1) * 4 + children.values.length * 4) := by
  obtain ⟨total, hget, htotal⟩ := hshape.total
  have hword : u32.size = 4 := rfl
  have hlen := h.le_length
  have hoffsets := h.left.slice
  have hvalues := h.right.slice
  simp only [List.length_append, length_cast_slice, hshape.offsets, hword] at hlen hoffsets hvalues
  have hcp : read_u32 (cast_slice u32 children.offsets) (rc * 4) = total := read_u32_at (at_cast_slice hget)
  have hroom : ¬ data.length < cs + (rc + 1) * 4 + children.values.length * 4 := by omega
  unfold read_children_section
  simp only [hoffsets, hcp, htotal, hroom, hvalues, ok_or, ok_bind, if_false, aligned_vec_cast_slice, pure_eq_ok]

/-- The count the parked reader takes from the end of the offsets. -/
theorem read_children_total_at {cs rc : Nat} {children : ChildrenIndex} (h : At data cs (cast_slice u32 children.offsets))
    (hshape : ChildrenShape rc children) : (read_u32 data (cs + (rc + 1) * 4 - 4)).toNat = children.values.length := by
  obtain ⟨total, hget, htotal⟩ := hshape.total
  have hword : u32.size = 4 := rfl
  have hentry := h.nested (at_cast_slice hget)
  rw [hword] at hentry
  have hpos : cs + (rc + 1) * 4 - 4 = cs + rc * 4 := by omega
  rw [hpos, read_u32_at hentry, htotal]

/-- Counts of the trigram section. -/
structure TrigramFits (trigram : TrigramIndex) : Prop where
  offsets : trigram.offsets.length = trigram.keys.length + 1
  keys : trigram.keys.length < UInt32.size
  values : trigram.values.length < UInt32.size

variable {trigram : TrigramIndex}

theorem push_trigram_section_length (hfits : TrigramFits trigram) :
    (push_trigram_section trigram).length =
      4 + trigram.keys.length * 8 + (trigram.keys.length + 1) * 4 + 4 + trigram.values.length * 4 := by
  have hlong : u64.size = 8 := rfl
  have hword : u32.size = 4 := rfl
  simp only [push_trigram_section, List.length_append, push_u32_length, length_cast_slice, hlong, hword, hfits.offsets]

/-- Where the counts of the trigram section stand. -/
theorem trigram_counts_at {pe : Nat} (h : At data pe (push_trigram_section trigram)) (hfits : TrigramFits trigram) :
    (read_u32 data pe).toNat = trigram.keys.length ∧
      (read_u32 data (pe + 4 + trigram.keys.length * 8 + (trigram.keys.length + 1) * 4)).toNat =
        trigram.values.length := by
  have hlong : u64.size = 8 := rfl
  have hword : u32.size = 4 := rfl
  refine ⟨read_u32_push h.left.left.left.left hfits.keys, ?_⟩
  have hvalues := h.left.right
  simp only [List.length_append, push_u32_length, length_cast_slice, hlong, hword, hfits.offsets, ← Nat.add_assoc]
    at hvalues
  exact read_u32_push hvalues hfits.values

theorem read_trigram_section_at {data : List UInt8} {pe : Nat} {version : UInt16}
    (h : At data pe (push_trigram_section trigram)) (hfits : TrigramFits trigram) (hversion : version ≥ 6) :
    read_trigram_section data version pe =
      .ok (if trigram.keys.length > 0 then some trigram else none, pe + (push_trigram_section trigram).length) := by
  have hlong : u64.size = 8 := rfl
  have hword : u32.size = 4 := rfl
  obtain ⟨hkeyCount, hvalueCount⟩ := trigram_counts_at h hfits
  have hlen := h.le_length
  have hkeys := h.left.left.left.right.slice
  have hoffsets := h.left.left.right.slice
  have hvalues := h.right.slice
  simp only [List.length_append, push_u32_length, length_cast_slice, hlong, hword, hfits.offsets, ← Nat.add_assoc]
    at hkeys hoffsets hvalues
  rw [push_trigram_section_length hfits] at hlen ⊢
  have hheader : ¬ data.length < pe + 4 := by omega
  have hroom : ¬ data.length < pe + 4 + trigram.keys.length * 8 + (trigram.keys.length + 1) * 4 + 4 := by omega
  have hstop : ¬ data.length <
      pe + 4 + trigram.keys.length * 8 + (trigram.keys.length + 1) * 4 + 4 + trigram.values.length * 4 := by omega
  unfold read_trigram_section
  simp only [hheader, hkeyCount, hversion, hroom, hvalueCount, hstop, if_false, if_true, ← Nat.add_assoc]
  split
  · simp only [hkeys, hoffsets, hvalues, ok_or, ok_bind, aligned_vec_cast_slice, pure_eq_ok]
  · rfl

end uffs.compact_cache
