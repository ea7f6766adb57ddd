import Uffs.Cache.RoundTrip
import Uffs.Usn.OverlayRun

open uffs.lib uffs.mft uffs.bloom uffs.path_trie uffs.compact

namespace uffs.compact_cache

theorem sameSize_build_bloom (env : Env) (index : DriveCompactIndex) :
    SameSize (Bloom.with_size_and_k (env.bloom_sizing (max (index.records.length + index.ext_names.length) 1)).1
      (env.bloom_sizing (max (index.records.length + index.ext_names.length) 1)).2) (index.build_bloom env) := by
  unfold DriveCompactIndex.build_bloom
  refine foldl_invariant ?_ fun s ext _ hs => ?_
  · refine foldl_invariant (SameSize.refl _) fun s record _ hs => ?_
    split
    · exact hs
    · exact hs.trans (sameSize_insert s env _)
  · split
    · exact hs
    · exact hs.trans (sameSize_insert s env _)

/-- A filter of realistic size passes the checks of the reader. -/
theorem bloomValid_of_sameSize {bloom : Bloom} {nbits : UInt64} {k_hashes : UInt8}
    (hsame : SameSize (Bloom.with_size_and_k nbits k_hashes) bloom) (hwords : bloom.bits.length < UInt32.size) :
    BloomValid bloom := by
  have hbits : bloom.bits.length = (align_nbits nbits / 64).toNat := by
    rw [hsame.words, Bloom.with_size_and_k, List.length_replicate]
  have hnbits : bloom.nbits = align_nbits nbits := hsame.nbits
  have hk : bloom.k_hashes = clamp_k k_hashes := hsame.k_hashes
  have hdiv : (align_nbits nbits / 64).toNat = (align_nbits nbits).toNat / 64 := UInt64.toNat_div _ _
  have hmod : (align_nbits nbits % 64).toNat = (align_nbits nbits).toNat % 64 := UInt64.toNat_mod _ _
  obtain ⟨haligned, hpos⟩ : (align_nbits nbits).toNat % 64 = 0 ∧ 0 < (align_nbits nbits).toNat := by
    cases align_nbits_cases nbits with
    | inl h => exact h
    | inr h =>
      rw [hbits, hdiv, h] at hwords
      exact absurd hwords (by decide)
  have hcheck : ¬ (bloom.nbits = 0 ∨ bloom.nbits % 64 ≠ 0) := by
    rw [hnbits, not_or, not_not]
    refine ⟨fun hzero => ?_, UInt64.toNat.inj (hmod.trans haligned)⟩
    rw [hzero] at hpos
    exact absurd hpos (by decide)
  unfold BloomValid Bloom.from_raw_parts
  rw [if_neg hcheck, if_neg (by rw [hnbits, hbits]; exact fun h => h rfl), hk, clamp_k_clamp_k, ← hk]

/-- The names of the collected directories lie inside the blob of the trie. -/
def NodesFit (nodes : List TrieNode) (names : List UInt8) : Prop :=
  ∀ node ∈ nodes, node.name_offset.toNat + node.name_len.toNat ≤ names.length

theorem collect_dirs_fit {names : List UInt8} {records : List CompactRecord} {record_idx : Nat} {acc : Collected}
    (hrecords : ∀ rec ∈ records, RowFits names rec) (hacc : NodesFit acc.nodes acc.names) :
    NodesFit (collect_dirs names record_idx records acc).nodes (collect_dirs names record_idx records acc).names := by
  induction records generalizing record_idx acc with
  | nil => exact hacc
  | cons record records ih =>
    have hrest : ∀ rec ∈ records, RowFits names rec := fun rec hrec => hrecords rec (List.mem_cons_of_mem _ hrec)
    rw [collect_dirs]
    split
    · refine ih hrest fun node hnode => ?_
      rw [List.length_append]
      cases List.mem_append.mp hnode with
      | inl hold =>
        have hfit := hacc node hold
        omega
      | inr hnew =>
        obtain rfl := List.mem_singleton.mp hnew
        have hoffset := len_to_u32_toNat_le acc.names.length
        have hname : (record.name_bytes names).length = record.name_len.toNat ∨ record.name_len.toNat = 0 := by
          by_cases hlive : record.Live
          · left
            have hrange := hrecords record List.mem_cons_self hlive
            unfold CompactRecord.InRange at hrange
            unfold CompactRecord.name_bytes CompactRecord.name_range slice?
            rw [if_pos ⟨Nat.le_add_right _ _, hrange⟩, Option.getD_some, List.length_take, List.length_drop]
            omega
          · right
            rw [not_not.mp hlive]
            rfl
        dsimp only
        omega
    · exact ih hrest hacc

/-- A freshly built trie passes the checks of the reader. -/
theorem trieValid_build {records : List CompactRecord} {names : List UInt8}
    (hrecords : ∀ rec ∈ records, RowFits names rec) : TrieValid (PathTrie.build records names) := by
  have hfit := @collect_dirs_fit names records 0 { record_to_trie := [], nodes := [], names := [] } hrecords
    (fun node hnode => absurd hnode List.not_mem_nil)
  generalize hacc : collect_dirs names 0 records { record_to_trie := [], nodes := [], names := [] } = acc at hfit
  obtain ⟨hoffsets, htotal⟩ := csr.build_shape node_emit len_to_u32
    (acc.nodes.map (resolve_parent acc.record_to_trie)).length (acc.nodes.map (resolve_parent acc.record_to_trie))
  unfold TrieValid PathTrie.from_raw_parts PathTrie.build build_children_csr
  rw [hacc, if_neg (by rw [hoffsets]; exact fun h => h rfl), if_neg (by rw [htotal]; exact fun h => h rfl), if_pos]
  rw [List.all_eq_true]
  intro node hnode
  obtain ⟨source, hsource, rfl⟩ := List.mem_map.mp hnode
  exact decide_eq_true (hfit source hsource)

end uffs.compact_cache
