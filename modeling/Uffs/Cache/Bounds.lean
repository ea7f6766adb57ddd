import Uffs.Compact.TrigramBuild
import Uffs.Compact.Rows
import Uffs.Cache.Layout

open uffs.lib uffs.lib.bytes uffs.mft uffs.text uffs.trigram uffs.bloom uffs.compact

namespace uffs.compact_cache

/-- What the search code takes for granted when it indexes with the values of an index. -/
structure InBounds (index : DriveCompactIndex) : Prop where
  names : ∀ rec ∈ index.records, rec.name_offset.toNat + rec.name_len.toNat ≤ index.names.length
  children : ∀ child ∈ index.children.values, child.toNat < index.records.length
  trigrams : ∀ posting ∈ index.trigram.values, posting.toNat < index.records.length
  extensions : ∀ posting ∈ index.ext_index.values, posting.toNat < index.records.length
  child_offsets : index.children.offsets.Pairwise (· ≤ ·)
  trigram_offsets : index.trigram.offsets.Pairwise (· ≤ ·)
  extension_offsets : index.ext_index.offsets.Pairwise (· ≤ ·)
  trie_offsets : ∀ trie, index.path_trie = some trie → trie.child_offsets.Pairwise (· ≤ ·)

/-- The sections of a framed buffer that are taken over as they stand hold values in range. The
extension table is not among them, nor is a trigram section without keys: both are built anew. -/
structure Consistent (data : List UInt8) : Prop where
  names : ∀ rec ∈ blocks record_pod data 26 (record_count data),
    rec.name_offset.toNat + rec.name_len.toNat ≤ names_len data
  children : ∀ child ∈ blocks u32 data (child_values_at data) (child_count data), child.toNat < record_count data
  child_offsets : (blocks u32 data (child_offsets_at data) (record_count data + 1)).Pairwise (· ≤ ·)
  trigrams : 0 < key_count data → ∀ posting ∈ blocks u32 data (trigram_count_at data + 4) (trigram_count data),
    posting.toNat < record_count data
  trigram_offsets : 0 < key_count data →
    (blocks u32 data (trigram_offsets_at data) (key_count data + 1)).Pairwise (· ≤ ·)
  trie_offsets : (counted data u32 (trie_offsets_at data)).Pairwise (· ≤ ·)

theorem ExtensionIndex.build_bounds (records : List CompactRecord) :
    (∀ posting ∈ (ExtensionIndex.build records).values, posting.toNat < records.length) ∧
      (ExtensionIndex.build records).offsets.Pairwise (· ≤ ·) :=
  ⟨csr.build_values_lt len_to_u32_toNat_le _ records, (csr.offsets_pairwise 0 _).1⟩

section assembled

variable {data : List UInt8} (hframed : Framed data) (env : Env) (letter : Char) (fold : CaseFold)

include hframed

theorem assembled_records :
    (assemble_compact_index env letter fold (columns data)).records = blocks record_pod data 26 (record_count data) := by
  obtain ⟨hrecords, hnames, hoffsets, hchildren, htrigram, hbloom, htrie, hfrs⟩ := positions_le data
  have hext := ext_at_le_bloom_at data
  have hfits := hframed.fits
  have hend : names_at data = 26 + record_count data * record_pod.size := rfl
  have hslice := @slice?_inside UInt8 data 26 (26 + record_count data * record_pod.size) (by omega) (by omega)
  rw [Nat.add_sub_cancel_left] at hslice
  exact aligned_vec_slice hslice

theorem assembled_names_length :
    (assemble_compact_index env letter fold (columns data)).names.length = names_len data := by
  obtain ⟨hrecords, hnames, hoffsets, hchildren, htrigram, hbloom, htrie, hfrs⟩ := positions_le data
  have hext := ext_at_le_bloom_at data
  have hfits := hframed.fits
  have hend : child_offsets_at data = names_at data + names_len data := rfl
  have hcolumn : (assemble_compact_index env letter fold (columns data)).names =
      (data.drop (names_at data)).take (names_len data) := rfl
  rw [hcolumn, List.length_take, List.length_drop]
  omega

/-- What is loaded from a framed buffer is in bounds exactly when the buffer's own sections are. -/
theorem assembled_inBounds_iff :
    InBounds (assemble_compact_index env letter fold (columns data)) ↔ Consistent data := by
  have hrecords := assembled_records hframed env letter fold
  have hnames := assembled_names_length hframed env letter fold
  have hlength : (assemble_compact_index env letter fold (columns data)).records.length = record_count data := by
    rw [hrecords, blocks_length]
  have hchildOffsets : (assemble_compact_index env letter fold (columns data)).children.offsets =
      blocks u32 data (child_offsets_at data) (record_count data + 1) := rfl
  have hchildValues : (assemble_compact_index env letter fold (columns data)).children.values =
      blocks u32 data (child_values_at data) (child_count data) := rfl
  have htrigram : (assemble_compact_index env letter fold (columns data)).trigram =
      (trigram_column data).getD (TrigramIndex.build (assemble_compact_index env letter fold (columns data)).records
        (assemble_compact_index env letter fold (columns data)).names fold) := by
    rw [assemble_compact_index, columns]
  have hextension : (assemble_compact_index env letter fold (columns data)).ext_index =
      ExtensionIndex.build (assemble_compact_index env letter fold (columns data)).records := rfl
  have htrie : (assemble_compact_index env letter fold (columns data)).path_trie = some (trie_column data) := rfl
  have htrieOffsets : (trie_column data).child_offsets = counted data u32 (trie_offsets_at data) := by rw [trie_column]
  generalize assemble_compact_index env letter fold (columns data) = index at *
  have hloaded : 0 < key_count data →
      index.trigram.offsets = blocks u32 data (trigram_offsets_at data) (key_count data + 1) ∧
        index.trigram.values = blocks u32 data (trigram_count_at data + 4) (trigram_count data) := by
    intro hkeys
    rw [htrigram, trigram_column, if_pos hkeys, Option.getD_some]
    simp only [and_self]
  have hrebuilt : ¬ 0 < key_count data → index.trigram = TrigramIndex.build index.records index.names fold := by
    intro hkeys
    rw [htrigram, trigram_column, if_neg hkeys, Option.getD_none]
  have hbuilt := TrigramIndex.build_bounds index.records index.names fold
  have hext := ExtensionIndex.build_bounds index.records
  rw [← hextension] at hext
  constructor
  · intro h
    constructor
    · rw [← hrecords, ← hnames]
      exact h.names
    · rw [← hchildValues, ← hlength]
      exact h.children
    · rw [← hchildOffsets]
      exact h.child_offsets
    · intro hkeys
      rw [← (hloaded hkeys).2, ← hlength]
      exact h.trigrams
    · intro hkeys
      rw [← (hloaded hkeys).1]
      exact h.trigram_offsets
    · rw [← htrieOffsets]
      exact h.trie_offsets _ htrie
  · intro h
    have htrigrams : (∀ posting ∈ index.trigram.values, posting.toNat < index.records.length) ∧
        index.trigram.offsets.Pairwise (· ≤ ·) := by
      by_cases hkeys : 0 < key_count data
      · rw [(hloaded hkeys).1, (hloaded hkeys).2, hlength]
        exact ⟨h.trigrams hkeys, h.trigram_offsets hkeys⟩
      · rw [hrebuilt hkeys]
        exact hbuilt
    constructor
    · rw [hrecords, hnames]
      exact h.names
    · rw [hchildValues, hlength]
      exact h.children
    · exact htrigrams.1
    · exact hext.1
    · rw [hchildOffsets]
      exact h.child_offsets
    · exact htrigrams.2
    · exact hext.2
    · intro trie hsome
      rw [← Option.some.inj (htrie.symm.trans hsome), htrieOffsets]
      exact h.trie_offsets

end assembled

theorem deserialize_compact_eq_ok {env : Env} {fold : CaseFold} {data : List UInt8} {letter : Char} {index : DriveCompactIndex} :
    deserialize_compact env fold data letter = .ok index ↔
      Framed data ∧ index = assemble_compact_index env letter fold (columns data) := by
  unfold deserialize_compact
  rw [bind_eq_ok]
  simp only [parse_compact_body_eq_ok, and_assoc, exists_and_left, exists_eq_left, pure_eq_ok, Except.ok.injEq]
  rw [eq_comm]

/-- The oldest version that the notes on the format call readable: those before it carry record
numbers without the sequence number and are to be built anew. -/
def OLDEST_READABLE : UInt16 := 13

/-- Bytes are rejected or give an index in bounds, and old versions are rejected. -/
def RejectedOrInBounds (env : Env) (fold : CaseFold) (data : List UInt8) (letter : Char) : Prop :=
  (∀ index, deserialize_compact env fold data letter = .ok index → InBounds index) ∧
    (header_version data < OLDEST_READABLE → ∃ message, deserialize_compact env fold data letter = .error message)

/-- The loader is safe on just those bytes whose parts, if they fit together at all, are consistent and
of the oldest readable version: it checks the lengths of the parts, but neither what they refer to nor
that the version is not an old one. -/
theorem rejected_or_in_bounds_iff (env : Env) (fold : CaseFold) (data : List UInt8) (letter : Char) :
    RejectedOrInBounds env fold data letter ↔
      (Framed data → header_version data = OLDEST_READABLE ∧ Consistent data) := by
  constructor
  · intro h hframed
    have hload := (@deserialize_compact_eq_ok env fold data letter _).mpr ⟨hframed, rfl⟩
    have hbounds := h.1 _ hload
    refine ⟨?_, (assembled_inBounds_iff hframed env letter fold).mp hbounds⟩
    apply UInt16.le_antisymm hframed.newest
    apply UInt16.not_lt.mp
    intro hold
    obtain ⟨message, herror⟩ := h.2 hold
    cases hload.symm.trans herror
  · intro h
    constructor
    · intro index hload
      obtain ⟨hframed, rfl⟩ := deserialize_compact_eq_ok.mp hload
      exact (assembled_inBounds_iff hframed env letter fold).mpr (h hframed).2
    · intro hold
      cases hload : deserialize_compact env fold data letter with
      | error message => exact ⟨message, rfl⟩
      | ok index =>
        obtain ⟨hframed, -⟩ := deserialize_compact_eq_ok.mp hload
        rw [(h hframed).1] at hold
        cases UInt16.lt_irrefl _ hold

/-- One record of all zeros but for the length of its name, an empty blob of names. -/
def one_record_cache (version name_len : UInt8) : List UInt8 :=
  COMPACT_MAGIC ++ [version, 0] ++ [1, 0, 0, 0] ++ [0, 0, 0, 0] ++ List.replicate 8 0 ++
    (List.replicate 80 0 ++ [name_len] ++ List.replicate 7 0) ++ List.replicate 8 0 ++ List.replicate 12 0 ++ [0, 0, 0, 0] ++
    ([64, 0, 0, 0, 0, 0, 0, 0] ++ [1, 0, 0, 0] ++ [1, 0, 0, 0] ++ List.replicate 8 0) ++
    (List.replicate 8 0 ++ [1, 0, 0, 0] ++ List.replicate 4 0 ++ List.replicate 4 0) ++ List.replicate 4 0

theorem one_record_cache_framed : Framed (one_record_cache 12 0) ∧ Framed (one_record_cache 13 1) := by
  constructor
  · refine ⟨?_, ?_, ?_, ?_, ?_, ?_, ?_, ⟨?_, ?_, ?_⟩⟩ <;> decide +kernel
  · refine ⟨?_, ?_, ?_, ?_, ?_, ?_, ?_, ⟨?_, ?_, ?_⟩⟩ <;> decide +kernel

/-- A cache of version 12 is loaded, and so is one whose record names a byte that is not there. -/
theorem stale_and_hostile_cache_loaded :
    ¬ RejectedOrInBounds sample_env ⟨[]⟩ (one_record_cache 12 0) 'C' ∧
      ¬ RejectedOrInBounds sample_env ⟨[]⟩ (one_record_cache 13 1) 'C' := by
  obtain ⟨hstale, hhostile⟩ := one_record_cache_framed
  constructor
  · intro h
    have hload := (@deserialize_compact_eq_ok sample_env ⟨[]⟩ _ 'C' _).mpr ⟨hstale, rfl⟩
    obtain ⟨message, herror⟩ := h.2 (by decide +kernel)
    cases hload.symm.trans herror
  · intro h
    have hload := (@deserialize_compact_eq_ok sample_env ⟨[]⟩ _ 'C' _).mpr ⟨hhostile, rfl⟩
    have hconsistent := (assembled_inBounds_iff hhostile sample_env 'C' ⟨[]⟩).mp (h.1 _ hload)
    have hbad : ¬ ∀ rec ∈ blocks record_pod (one_record_cache 13 1) 26 (record_count (one_record_cache 13 1)),
        rec.name_offset.toNat + rec.name_len.toNat ≤ names_len (one_record_cache 13 1) := by decide +kernel
    exact hbad hconsistent.names

end uffs.compact_cache
