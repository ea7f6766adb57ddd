import Uffs.Cache.Layout
import Uffs.Cache.Valid
import Uffs.Usn.Search

open uffs.lib uffs.lib.bytes uffs.mft uffs.text uffs.trigram uffs.bloom uffs.path_trie uffs.compact uffs.usn

namespace uffs.compact_cache

theorem childrenShape_build (records : List CompactRecord) :
    ChildrenShape records.length (ChildrenIndex.build records) := by
  obtain ⟨hoffsets, htotal⟩ := csr.build_shape child_emit len_to_u32 records.length records
  have hlast : (ChildrenIndex.build records).offsets[records.length]? =
      some ((ChildrenIndex.build records).offsets.getLastD 0) := by
    rw [List.getLastD_eq_getLast?, List.getLast?_eq_getElem?, ChildrenIndex.build, hoffsets, Nat.add_sub_cancel]
    rw [List.getElem?_eq_getElem (by rw [hoffsets]; exact Nat.lt_succ_self _), Option.getD_some]
  exact ⟨hoffsets, _, hlast, htotal⟩

theorem bloom_build (env : Env) (letter : Char) (fold : CaseFold) (index : MftIndex) :
    ∃ bloom nbits k_hashes, (build_compact_index env letter fold index).bloom = some bloom ∧
      SameSize (Bloom.with_size_and_k nbits k_hashes) bloom := by
  unfold build_compact_index
  exact ⟨_, _, _, rfl, sameSize_build_bloom env _⟩

theorem path_trie_build (env : Env) (letter : Char) (fold : CaseFold) (index : MftIndex) :
    (build_compact_index env letter fold index).path_trie =
      some (PathTrie.build (build_compact_index env letter fold index).records
        (build_compact_index env letter fold index).names) := rfl

/-- An index without an overlay, in any state of a run, can be written and read. -/
theorem cacheable_of_reachable {env : Env} {letter : Char} {fold : CaseFold} {index : MftIndex}
    (hwf : WellFormed index) {drive : DriveCompactIndex}
    (hreach : Reachable env (build_compact_index env letter fold index) Roomy drive) (hdelta : drive.delta = none)
    (hwords : (bloom_section env drive).bits.length < UInt32.size) :
    Cacheable env drive ∧ drive.bloom ≠ none ∧ drive.path_trie ≠ none ∧
      (drive.trigram.keys = [] → TrigramIndex.build drive.records drive.names drive.fold = drive.trigram) := by
  obtain ⟨-, base, base_names, hinv⟩ := hreach.overlayInv hwf fun _ h => h
  obtain ⟨hcore, rfl⟩ := hinv.2 hdelta
  obtain ⟨hbloom, htrie⟩ := hreach.filters
  obtain ⟨bloom, nbits, k_hashes, hbuilt, hsame⟩ := bloom_build env letter fold index
  have hsection : bloom_section env drive = bloom := by
    rw [bloom_section, hbloom, hbuilt, Option.getD_some]
  have htrieSection : trie_section drive = PathTrie.build (build_compact_index env letter fold index).records
      (build_compact_index env letter fold index).names := by
    rw [trie_section, htrie, path_trie_build, Option.getD_some]
  obtain ⟨htrigramOffsets, htrigramValues⟩ := TrigramIndex.build_shape base drive.names drive.fold
  refine ⟨⟨?_, ?_, ?_, ?_, ?_⟩, ?_, ?_, fun hkeys => ?_⟩
  · rw [hinv.1.children, hcore.length_eq]
    exact childrenShape_build base
  · rw [hinv.1.trigram]
    exact htrigramOffsets
  · rw [hinv.1.trigram]
    exact htrigramValues
  · rw [hsection] at hwords ⊢
    exact bloomValid_of_sameSize hsame hwords
  · rw [htrieSection]
    exact trieValid_build (overlayInv_build hwf env letter fold).1.fits
  · rw [hbloom, hbuilt]
    exact Option.some_ne_none bloom
  · rw [htrie, path_trie_build]
    exact Option.some_ne_none _
  · -- Without keys both tables are the empty one: the keys do not depend on path lengths.
    have hmap : ∀ rec : CompactRecord, record_trigrams drive.names drive.fold rec.core =
        record_trigrams drive.names drive.fold rec := fun rec => rfl
    have hsorted : sorted_keys base drive.names drive.fold = sorted_keys drive.records drive.names drive.fold := by
      rw [← sorted_keys_map hmap, hcore, sorted_keys_map hmap]
    have hbase : base = [] ∨ sorted_keys base drive.names drive.fold = [] := by
      by_cases hnil : base = []
      · exact Or.inl hnil
      · right
        rw [hinv.1.trigram, TrigramIndex.build_keys hnil, keys_of] at hkeys
        exact List.map_eq_nil_iff.mp hkeys
    have hrecords : drive.records = [] ∨ sorted_keys drive.records drive.names drive.fold = [] := by
      cases hbase with
      | inl hnil =>
        left
        have hlen := hcore.length_eq
        rw [hnil, List.length_nil] at hlen
        exact List.length_eq_zero_iff.mp hlen
      | inr hnone => exact Or.inr (hsorted ▸ hnone)
    rw [hinv.1.trigram, TrigramIndex.build_of_keys_nil hrecords, TrigramIndex.build_of_keys_nil hbase]

/-- Save and load: an index without an overlay comes back as it was saved, the streaming writer
emits the bytes of the buffered one, and the parked reader agrees with the full one on the
filters and the epoch, whenever every count fits its field. -/
theorem cache_round_trip (env : Env) (letter : Char) (fold : CaseFold) {index : MftIndex} (hwf : WellFormed index)
    {drive : DriveCompactIndex} (hreach : Reachable env (build_compact_index env letter fold index) Roomy drive)
    (hdelta : drive.delta = none) (hfits : CacheFits env drive) :
    (serialize_compact_to_writer env drive).flatten = serialize_compact env drive ∧
      ∃ loaded parked,
        deserialize_compact env drive.fold (serialize_compact env drive) drive.letter = .ok loaded ∧
        Restores drive loaded ∧
        deserialize_parked_body drive.fold (serialize_compact env drive) drive.letter = .ok parked ∧
        loaded.bloom = some parked.bloom ∧ loaded.path_trie = some parked.path_trie ∧
        loaded.source_epoch = parked.source_epoch := by
  obtain ⟨hcacheable, hbloom, htrie, hempty⟩ := cacheable_of_reachable hwf hreach hdelta hfits.bloom
  obtain ⟨loaded, hloaded, hrestores⟩ := deserialize_serialize hcacheable hfits hbloom htrie hempty drive.letter
  obtain ⟨bloom, hbloomSome⟩ := Option.ne_none_iff_exists'.mp hbloom
  obtain ⟨trie, htrieSome⟩ := Option.ne_none_iff_exists'.mp htrie
  refine ⟨flatten_serialize_to_writer env drive, loaded, _, hloaded, hrestores,
    parked_serialize hcacheable hfits drive.fold drive.letter, ?_, ?_, hrestores.source_epoch⟩
  · rw [hrestores.bloom, hbloomSome, bloom_section, hbloomSome, Option.getD_some]
  · rw [hrestores.path_trie, htrieSome, trie_section, htrieSome, Option.getD_some]

/-- Nothing is lost between saving and loading: the loaded index is the saved one. -/
theorem reload_eq_self {env : Env} {letter : Char} {fold : CaseFold} {index : MftIndex} (hwf : WellFormed index)
    {drive loaded : DriveCompactIndex}
    (hreach : Reachable env (build_compact_index env letter fold index) Roomy drive) (hdelta : drive.delta = none)
    (hfits : CacheFits env drive)
    (hload : deserialize_compact env drive.fold (serialize_compact env drive) drive.letter = .ok loaded) :
    loaded = drive := by
  obtain ⟨hcacheable, hbloom, htrie, hempty⟩ := cacheable_of_reachable hwf hreach hdelta hfits.bloom
  obtain ⟨other, hother, hrestores⟩ := deserialize_serialize hcacheable hfits hbloom htrie hempty drive.letter
  cases Except.ok.inj (hload.symm.trans hother)
  obtain ⟨hletter, hfold, hloadedDelta, hext⟩ := deserialize_compact_frame hload
  obtain ⟨-, base, base_names, hinv⟩ := hreach.overlayInv hwf fun _ h => h
  have hext' : loaded.ext_index = drive.ext_index := by
    rw [hext, hrestores.records, hinv.1.ext_index, SameCore.ext_index_eq (hinv.2 hdelta).1]
  obtain ⟨hrecords, hnames, hchildren, htrigram, hextNames, hbloomEq, htrieEq, hmap, hepoch⟩ := hrestores
  cases loaded
  cases drive
  simp only at *
  subst hletter hfold hloadedDelta hext' hrecords hnames hchildren htrigram hextNames hbloomEq htrieEq hmap hepoch hdelta
  rfl

theorem dirs_mft_cacheFits : CacheFits sample_env (sample_index dirs_mft) := by
  have hroomy := @roomy_build dirs_mft (by decide) sample_env 'C' ⟨[]⟩
  have hkeys : (sample_index dirs_mft).trigram = TrigramIndex.empty :=
    TrigramIndex.build_of_keys_nil (Or.inr (sorted_keys_eq_nil hroomy.lt_size (by decide)))
  refine ⟨by decide, by decide, ?_, by decide, by decide, by decide, ⟨by decide, by decide, by decide, by decide⟩, by decide⟩
  rw [hkeys]
  decide

theorem cache_round_trip_dirs :
    WellFormed dirs_mft ∧
      CacheFits sample_env (build_compact_index sample_env 'C' ⟨[]⟩ dirs_mft) ∧
      ((serialize_compact_to_writer sample_env (build_compact_index sample_env 'C' ⟨[]⟩ dirs_mft)).flatten =
          serialize_compact sample_env (build_compact_index sample_env 'C' ⟨[]⟩ dirs_mft) ∧
        ∃ loaded parked,
          deserialize_compact sample_env (build_compact_index sample_env 'C' ⟨[]⟩ dirs_mft).fold
            (serialize_compact sample_env (build_compact_index sample_env 'C' ⟨[]⟩ dirs_mft))
            (build_compact_index sample_env 'C' ⟨[]⟩ dirs_mft).letter = .ok loaded ∧
          Restores (build_compact_index sample_env 'C' ⟨[]⟩ dirs_mft) loaded ∧
          deserialize_parked_body (build_compact_index sample_env 'C' ⟨[]⟩ dirs_mft).fold
            (serialize_compact sample_env (build_compact_index sample_env 'C' ⟨[]⟩ dirs_mft))
            (build_compact_index sample_env 'C' ⟨[]⟩ dirs_mft).letter = .ok parked ∧
          loaded.bloom = some parked.bloom ∧ loaded.path_trie = some parked.path_trie ∧
          loaded.source_epoch = parked.source_epoch) := by
  have hroomy := @roomy_build dirs_mft (by decide) sample_env 'C' ⟨[]⟩
  exact ⟨dirs_mft_wellFormed, dirs_mft_cacheFits,
    cache_round_trip sample_env 'C' ⟨[]⟩ dirs_mft_wellFormed (Reachable.start hroomy) rfl dirs_mft_cacheFits⟩

/-- A volume whose only extension name has `n` letters. -/
def long_ext_mft (n : Nat) : MftIndex := ext_mft [List.replicate n 'a']

/-- The index of a volume without records holds no row. -/
theorem ext_mft_records (names : List Str) :
    (sample_index (ext_mft names)).records = [] := by
  have hlen := (build_compact_index_columns sample_env 'C' ⟨[]⟩ (ext_mft names)).1.length_eq
  exact List.length_eq_zero_iff.mp hlen

/-- The table holds no name of 65536 bytes. -/
theorem read_ext_entries_short (data : List UInt8) (count pos : Nat) :
    ∀ name ∈ (read_ext_entries data count pos).1, (as_bytes name).length < UInt16.size := by
  induction count generalizing pos with
  | zero => exact List.forall_mem_nil _
  | succ count ih =>
    rw [read_ext_entries]
    split
    next lo hi _ _ =>
      dsimp only
      split
      · exact List.forall_mem_nil _
      next block hblock =>
        refine List.forall_mem_cons.mpr ⟨?_, ih _⟩
        have hlen := slice?_length hblock
        cases htext : from_utf8 block with
        | none => exact Nat.zero_lt_succ _
        | some text =>
          rw [Option.getD_some, as_bytes_of_from_utf8 htext, hlen, Nat.add_sub_cancel_left]
          exact (u16.from_bytes [lo, hi]).toNat_lt
    next => exact List.forall_mem_nil _

theorem deserialize_compact_ext_names {env : Env} {fold : CaseFold} {data : List UInt8} {letter : Char} {loaded : DriveCompactIndex}
    (h : deserialize_compact env fold data letter = .ok loaded) : ∀ name ∈ loaded.ext_names, (as_bytes name).length < UInt16.size := by
  unfold deserialize_compact at h
  cases hparsed : parse_compact_body data with
  | error message =>
    rw [hparsed] at h
    cases h
  | ok parsed =>
    rw [hparsed] at h
    cases h
    have hnames : parsed.ext_names_loaded = some (read_ext_names_table data (ext_at data)).1 := by
      rw [(parse_compact_body_eq_ok.mp hparsed).2, columns]
    intro name hname
    simp only [assemble_compact_index, hnames, Option.getD_some, read_ext_names_table] at hname
    exact read_ext_entries_short _ _ _ name hname

/-- An extension name of 65536 bytes comes back with its last byte missing. -/
theorem cache_not_restored_long_ext :
    WellFormed (long_ext_mft 65536) ∧
      (build_compact_index sample_env 'C' ⟨[]⟩ (long_ext_mft 65536)).delta = none ∧
      ¬ ∃ loaded,
        deserialize_compact sample_env (build_compact_index sample_env 'C' ⟨[]⟩ (long_ext_mft 65536)).fold
          (serialize_compact sample_env (build_compact_index sample_env 'C' ⟨[]⟩ (long_ext_mft 65536))) 'C' = .ok loaded ∧
        Restores (build_compact_index sample_env 'C' ⟨[]⟩ (long_ext_mft 65536)) loaded := by
  refine ⟨ext_mft_wellFormed _, rfl, ?_⟩
  rintro ⟨loaded, hloaded, hrestores⟩
  have hshort := deserialize_compact_ext_names hloaded
  rw [hrestores.ext_names] at hshort
  have hname : (as_bytes (List.replicate 65536 'a')).length < 65536 := hshort _ (List.mem_singleton_self _)
  have hlong := length_le_as_bytes (List.replicate 65536 'a')
  rw [List.length_replicate] at hlong
  omega

end uffs.compact_cache
