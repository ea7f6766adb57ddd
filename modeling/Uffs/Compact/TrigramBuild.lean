import Mathlib.Algebra.BigOperators.Group.List.Basic
import Uffs.Compact.TrigramCount

open uffs.lib uffs.mft uffs.text uffs.compact

namespace uffs.trigram

variable {keys : List UInt64} {key : UInt64} {names : List UInt8} {fold : CaseFold} {records : List CompactRecord}
  {b : Nat}

theorem idxOf?_eq_some_of_nodup (hnodup : keys.Nodup) : keys.idxOf? key = some b ↔ keys[b]? = some key := by
  rw [List.idxOf?_eq_some_iff]
  constructor
  · rintro ⟨hb, hkey, -⟩
    rw [List.getElem?_eq_getElem hb, hkey]
  · intro hget
    obtain ⟨hb, hkey⟩ := List.getElem?_eq_some_iff.mp hget
    refine ⟨hb, hkey, fun j hj hjkey => ?_⟩
    exact absurd ((List.Nodup.getElem_inj_iff hnodup).mp (hjkey.trans hkey.symm)) (Nat.ne_of_lt hj)

/-- The lookup table inverts the key column. -/
theorem tri_lut_eq_some (hnodup : keys.Nodup) (hsmall : keys.length < UInt32.size) :
    tri_lut keys key = some b ↔ keys[b]? = some key := by
  have hvalue : ∀ i, keys.idxOf? key = some i → (len_to_u32 i).toNat = i := fun i hi => by
    have hlt : i < keys.length := (List.getElem?_eq_some_iff.mp ((idxOf?_eq_some_of_nodup hnodup).mp hi)).1
    exact len_to_u32_toNat (by omega)
  rw [← idxOf?_eq_some_of_nodup hnodup, tri_lut]
  cases hfind : keys.idxOf? key with
  | none => simp
  | some i => simp [hvalue i hfind]

/-- Cursors of the next chunk: each moves by the chunk's counter of its key. -/
theorem advance_offsets_getElem? (hnodup : keys.Nodup) (hsmall : keys.length < UInt32.size) (accumulated : List UInt32)
    (chunk_map : CountMap) (hkey : keys[b]? = some key) :
    (advance_offsets keys accumulated chunk_map)[b]? =
      accumulated[b]?.map (· + (chunk_map.lookup key).getD 0) := by
  obtain ⟨step, hmissing, hfound, hadvance⟩ : ∃ step : List UInt32 → (Sigma fun _ : UInt64 => UInt32) → List UInt32,
      (∀ acc e, tri_lut keys e.1 = none → step acc e = acc) ∧
      (∀ acc e ki, tri_lut keys e.1 = some ki → step acc e = acc.modify ki (· + e.2)) ∧
      advance_offsets keys accumulated chunk_map = chunk_map.entries.foldl step accumulated := by
    refine ⟨_, fun acc e h => ?_, fun acc e ki h => ?_, rfl⟩
    · simp only [h]
    · simp only [h]
  have hrun : ∀ (entries : List (Sigma fun _ : UInt64 => UInt32)) (acc : List UInt32), entries.NodupKeys →
      (entries.foldl step acc)[b]? = acc[b]?.map (· + (entries.dlookup key).getD 0) := by
    intro entries
    induction entries with
    | nil => intro acc _; simp
    | cons e entries ih =>
      intro acc hnd
      obtain ⟨hfresh, hnd'⟩ := List.nodupKeys_cons.mp hnd
      rw [List.foldl_cons, ih _ hnd']
      by_cases hek : key = e.1
      · subst hek
        have hlut : tri_lut keys e.1 = some b := (tri_lut_eq_some hnodup hsmall).mpr hkey
        obtain ⟨k, c⟩ := e
        rw [hfound _ _ _ hlut]
        simp only [List.dlookup_eq_none.mpr hfresh, List.getElem?_modify_eq, List.dlookup_cons_eq,
          Option.getD_some, Option.getD_none]
        cases acc[b]? with
        | none => rfl
        | some v => simp
      · rw [List.dlookup_cons_ne entries e hek]
        cases hlut : tri_lut keys e.1 with
        | none => rw [hmissing _ _ hlut]
        | some ki =>
          rw [hfound _ _ _ hlut]
          have hne : ki ≠ b := fun h => by
            have hat := (tri_lut_eq_some hnodup hsmall).mp hlut
            rw [h, hkey] at hat
            exact hek (Option.some.inj hat)
          simp only [List.getElem?_modify, if_neg hne, Option.map_eq_map, Option.map_id']
  rw [hadvance]
  exact hrun chunk_map.entries accumulated chunk_map.nodupKeys

theorem advance_offsets_length (keys : List UInt64) (accumulated : List UInt32) (chunk_map : CountMap) :
    (advance_offsets keys accumulated chunk_map).length = accumulated.length := by
  unfold advance_offsets
  induction chunk_map.entries generalizing accumulated with
  | nil => rfl
  | cons e entries ih =>
    rw [List.foldl_cons, ih]
    split
    · rfl
    · rw [List.length_modify]

section

variable (hnodup : keys.Nodup) (hsmall : keys.length < UInt32.size)

include hnodup hsmall

theorem mem_record_rows {rec : CompactRecord} (hkey : keys[b]? = some key) :
    b ∈ record_rows keys names fold rec ↔ key ∈ record_trigrams names fold rec := by
  simp only [record_rows, List.mem_filterMap, tri_lut_eq_some hnodup hsmall, hkey, Option.some.injEq]
  constructor
  · rintro ⟨k, hk, rfl⟩
    exact hk
  · intro hk
    exact ⟨key, hk, rfl⟩

theorem record_rows_nodup (names : List UInt8) (fold : CaseFold) (rec : CompactRecord) :
    (record_rows keys names fold rec).Nodup := by
  refine (record_trigrams_nodup names fold rec).filterMap fun a b c ha hb => ?_
  rw [Option.mem_def, tri_lut_eq_some hnodup hsmall] at ha hb
  exact Option.some.inj (ha.symm.trans hb)

/-- Row `b` of the scatter is the list of records that have key number `b`. -/
theorem bucket_record_rows (hkey : keys[b]? = some key) :
    csr.bucket (record_rows keys names fold) len_to_u32 b 0 records = posting_list records names fold key := by
  refine csr.bucket_congr len_to_u32 0 fun rec _ => ?_
  rw [mem_record_rows hnodup hsmall hkey]
  split
  next h => simp [h]
  next h => simp [h]

theorem bucket_record_rows_length (names : List UInt8) (fold : CaseFold) (records : List CompactRecord) (base : Nat) (hkey : keys[b]? = some key) :
    (csr.bucket (record_rows keys names fold) len_to_u32 b base records).length =
      frequency records names fold key := by
  rw [csr.bucket_length_eq_countP, frequency]
  refine List.countP_congr fun rec _ => ?_
  simp only [decide_eq_true_eq]
  exact mem_record_rows hnodup hsmall hkey

/-- Scattering chunk by chunk fills every row with the records of all chunks, in order. -/
theorem scatter_chunks_filled {size : Nat → Nat} (htotal : csr.start size keys.length < UInt32.size) {fuel : Nat}
    (hfuel : records.length ≤ fuel) {accumulated values : List UInt32} {base : Nat} {rows : Nat → List UInt32}
    (hlength : accumulated.length = keys.length) (hroom : ∀ b < keys.length,
      (rows b).length + (csr.bucket (record_rows keys names fold) len_to_u32 b base records).length ≤ size b)
    (hfilled : csr.Filled size keys.length { write_pos := accumulated, values := values } rows) :
    ∃ write_pos, csr.Filled size keys.length
      { write_pos := write_pos
        values := scatter_chunks keys names fold accumulated base
          ((chunksAux CHUNK_SIZE fuel records).map fun chunk => (chunk, chunk_count names fold chunk)) values }
      fun b => rows b ++ csr.bucket (record_rows keys names fold) len_to_u32 b base records := by
  induction fuel generalizing records accumulated values base rows with
  | zero =>
    obtain rfl : records = [] := List.length_eq_zero_iff.mp (Nat.le_zero.mp hfuel)
    exact ⟨accumulated, hfilled.congr fun b _ => by simp [csr.bucket]⟩
  | succ fuel ih =>
    cases records with
    | nil => exact ⟨accumulated, hfilled.congr fun b _ => by simp [csr.bucket]⟩
    | cons first others =>
      generalize hrecords : first :: others = records at *
      have hchunks : chunksAux CHUNK_SIZE (fuel + 1) records =
          records.take CHUNK_SIZE :: chunksAux CHUNK_SIZE fuel (records.drop CHUNK_SIZE) := by
        rw [← hrecords, chunksAux]
      have hsplit : ∀ b, csr.bucket (record_rows keys names fold) len_to_u32 b base records =
          csr.bucket (record_rows keys names fold) len_to_u32 b base (records.take CHUNK_SIZE) ++
          csr.bucket (record_rows keys names fold) len_to_u32 b (base + (records.take CHUNK_SIZE).length)
            (records.drop CHUNK_SIZE) := fun b => by
        rw [← csr.bucket_append, List.take_append_drop]
      have hroomHere : ∀ b < keys.length, (rows b).length +
          (csr.bucket (record_rows keys names fold) len_to_u32 b base (records.take CHUNK_SIZE)).length ≤ size b :=
        fun b hb => by
          have hspace := hroom b hb
          rw [hsplit b, List.length_append] at hspace
          omega
      have hchunk := hfilled.scatter len_to_u32 base htotal
        (fun rec _ => record_rows_nodup hnodup hsmall names fold rec) hroomHere
      -- The precomputed cursors of the next chunk stand where this chunk's cursors stopped.
      have hnext := hchunk.with_cursors
        (advance_offsets keys accumulated (chunk_count names fold (records.take CHUNK_SIZE)))
        (by rw [advance_offsets_length, hlength]) fun b hb => by
          obtain ⟨key, hkey⟩ : ∃ key, keys[b]? = some key := ⟨keys[b], List.getElem?_eq_getElem hb⟩
          obtain ⟨p, hget, hp⟩ := hfilled.cursor b hb
          have hcount := (counts_chunk_count (records.take CHUNK_SIZE) names fold (by
            rw [List.length_take]
            have hsize : CHUNK_SIZE < UInt32.size := by decide
            omega)).lookup_toNat key
          have hbucket := bucket_record_rows_length hnodup hsmall names fold (records.take CHUNK_SIZE) base hkey
          have hend := csr.start_add_le size hb
          have hspace := hroomHere b hb
          have hsize : UInt32.size = 2 ^ 32 := rfl
          refine ⟨p + ((chunk_count names fold (records.take CHUNK_SIZE)).lookup key).getD 0, ?_, ?_⟩
          · rw [advance_offsets_getElem? hnodup hsmall _ _ hkey]
            simpa using hget
          · rw [UInt32.toNat_add, hcount, hp, List.length_append, hbucket]
            exact (Nat.mod_eq_of_lt (by omega)).trans (by omega)
      by_cases hlast : records.drop CHUNK_SIZE = []
      · refine ⟨advance_offsets keys accumulated (chunk_count names fold (records.take CHUNK_SIZE)), ?_⟩
        have hend : chunksAux CHUNK_SIZE fuel (records.drop CHUNK_SIZE) = [] := by
          rw [hlast]
          cases fuel <;> rfl
        rw [hchunks, hend]
        exact hnext.congr fun b _ => by rw [hsplit b, hlast]; simp [csr.bucket]
      · have hfull : (records.take CHUNK_SIZE).length = CHUNK_SIZE := by
          rw [List.length_take]
          apply Nat.min_eq_left
          by_contra hshort
          exact hlast (List.drop_eq_nil_of_le (by omega))
        rw [hfull] at hsplit
        have hfuel' : (records.drop CHUNK_SIZE).length ≤ fuel := by
          have hpos : 0 < CHUNK_SIZE := by decide
          rw [List.length_drop]
          omega
        obtain ⟨write_pos, hrest⟩ := @ih (records.drop CHUNK_SIZE) hfuel' _ _ (base + CHUNK_SIZE) _
          (by rw [advance_offsets_length, hlength]) (fun b hb => by
            have hspace := hroom b hb
            rw [hsplit b, List.length_append] at hspace
            rw [List.length_append]
            omega) hnext
        refine ⟨write_pos, ?_⟩
        rw [hchunks]
        exact hrest.congr fun b _ => by rw [hsplit b, List.append_assoc]

end

/-- Each chunk beside its own counts. -/
theorem zip_chunk_counts (records : List CompactRecord) (names : List UInt8) (fold : CaseFold) :
    (chunks CHUNK_SIZE records).zip ((chunks CHUNK_SIZE records).map (chunk_count names fold)) =
      (chunksAux CHUNK_SIZE records.length records).map fun chunk => (chunk, chunk_count names fold chunk) := by
  rw [← chunks]
  generalize chunks CHUNK_SIZE records = parts
  induction parts with
  | nil => simp
  | cons part parts ih => simp [ih]

theorem TrigramIndex.build_keys (hne : records ≠ []) (names : List UInt8) (fold : CaseFold) :
    (TrigramIndex.build records names fold).keys = keys_of records names fold := by
  have hempty : records.isEmpty = false := by simpa using hne
  rw [TrigramIndex.build, hempty]
  rfl

section

variable (hrecords : records.length < UInt32.size)

include hrecords

/-- A lookup in the base finds exactly the kept keys, with all the records that have them. -/
theorem TrigramIndex.get_posting_build (hfits : Fits records names fold) (key : UInt64) :
    (TrigramIndex.build records names fold).get_posting key =
      if Kept records names fold key then some (posting_list records names fold key) else none := by
  by_cases hne : records = []
  · subst hne
    rfl
  have hkeys := TrigramIndex.build_keys hne names fold
  have hnodup := keys_of_nodup records names fold
  have htotal : csr.start (row_size records names fold) (keys_of records names fold).length < UInt32.size := by
    have hsum := csr.start_length_eq_sum ((sorted_keys records names fold).map fun e => e.2.toNat)
    rw [List.length_map] at hsum
    rw [keys_of, List.length_map]
    exact hsum ▸ hfits
  have hsmall : (keys_of records names fold).length < UInt32.size := by
    refine lt_of_le_of_lt ?_ hfits
    have hpos : ∀ n ∈ (sorted_keys records names fold).map fun e => e.2.toNat, 1 ≤ n := fun n hn => by
      obtain ⟨⟨k, c⟩, hmem, rfl⟩ := List.mem_map.mp hn
      obtain ⟨⟨hfreq, -⟩, hcnt⟩ := (mem_sorted_keys hrecords).mp hmem
      exact Nat.succ_le_of_lt (hcnt.symm ▸ hfreq)
    simpa [keys_of] using List.length_le_sum_of_one_le _ hpos
  split
  next hkept =>
    obtain ⟨b, hget⟩ := List.getElem?_of_mem ((mem_keys_of hrecords).mpr hkept)
    have hb : b < (keys_of records names fold).length := (List.getElem?_eq_some_iff.mp hget).1
    have hcounts : ((sorted_keys records names fold).map (·.2)).length = (keys_of records names fold).length := by
      rw [keys_of, List.length_map, List.length_map]
    have hoffset : ∀ i ≤ (keys_of records names fold).length, ∃ p,
        (csr.offsets 0 ((sorted_keys records names fold).map (·.2)))[i]? = some p ∧
          p.toNat = csr.start (row_size records names fold) i := fun i hi => by
      obtain ⟨p, hp, hpNat⟩ := @csr.offsets_getElem? 0 ((sorted_keys records names fold).map (·.2))
        (row_size records names fold) i (fun j c hj => by
          rw [List.getElem?_map, Option.map_eq_some_iff] at hj
          obtain ⟨e, he, rfl⟩ := hj
          rw [row_size, List.getElem?_map, he]
          rfl) (by simpa [hcounts] using htotal) (by simpa [hcounts] using hi)
      exact ⟨p, hp, by simpa using hpNat⟩
    have hoffsets : (csr.offsets 0 ((sorted_keys records names fold).map (·.2))).length =
        (keys_of records names fold).length + 1 := by
      rw [csr.offsets_length, hcounts]
    obtain ⟨total, hlast, htotalNat⟩ := hoffset _ (Nat.le_refl _)
    have hrunning : (csr.offsets 0 ((sorted_keys records names fold).map (·.2))).getLastD 0 = total := by
      rw [List.getLastD_eq_getLast?, List.getLast?_eq_getElem?, hoffsets]
      simp [hlast]
    -- The scatter starts with every cursor at the start of its row.
    have hstart : csr.Filled (row_size records names fold) (keys_of records names fold).length
        { write_pos := (csr.offsets 0 ((sorted_keys records names fold).map (·.2))).take
            (keys_of records names fold).length
          values := List.replicate total.toNat (0 : UInt32) } (fun _ => []) := by
      refine csr.filled_nil (fun i hi => ?_) (by simpa using htotalNat) fun i hi p hp => ?_
      · simpa only [List.getElem?_take_of_lt hi] using hoffset i (Nat.le_of_lt hi)
      · rw [List.getElem?_eq_none (by simp; omega)] at hp
        cases hp
    have hrow : ∀ i < (keys_of records names fold).length,
        (csr.bucket (record_rows (keys_of records names fold) names fold) len_to_u32 i 0 records).length =
          row_size records names fold i := fun i hi => by
      have hkey := List.getElem?_eq_getElem hi
      rw [bucket_record_rows_length hnodup hsmall names fold records 0 hkey, row_size_eq hrecords hkey]
    obtain ⟨write_pos, hfilled⟩ := scatter_chunks_filled hnodup hsmall htotal (Nat.le_refl records.length)
      (by rw [List.length_take, hoffsets]; omega) (fun i hi => by simpa using (hrow i hi).le) hstart
    have hslice := hfilled.slice? hb (by simpa using hrow b hb)
    simp only [List.nil_append, bucket_record_rows hnodup hsmall hget] at hslice
    obtain ⟨p, hp, hpNat⟩ := hoffset b (Nat.le_of_lt hb)
    obtain ⟨q, hq, hqNat⟩ := hoffset (b + 1) hb
    have hidx : (keys_of records names fold).idxOf? key = some b := (idxOf?_eq_some_of_nodup hnodup).mpr hget
    have hempty : records.isEmpty = false := by simpa using hne
    have hmany : ¬ (keys_of records names fold).length + 1 ≤ 1 := by omega
    rw [get_posting, hkeys, hidx]
    simp only [TrigramIndex.build, hempty, Bool.false_eq_true, if_false, hp, hq, hrunning, Option.bind_eq_bind,
      Option.bind_some, scatter_postings, hoffsets, hmany, Nat.add_sub_cancel, List.zip_map_right, hpNat, hqNat]
    rw [← List.zip_map_right, zip_chunk_counts]
    exact hslice
  next hpruned =>
    have hnone : (TrigramIndex.build records names fold).keys.idxOf? key = none := by
      rw [hkeys, List.idxOf?_eq_none_iff, mem_keys_of hrecords]
      exact hpruned
    simp [get_posting, hnone]

/-- A pruned key has no row, whatever the size of the table. -/
theorem TrigramIndex.get_posting_build_of_not_kept (hpruned : ¬ Kept records names fold key) :
    (TrigramIndex.build records names fold).get_posting key = none := by
  by_cases hne : records = []
  · subst hne
    rfl
  have hkey : (TrigramIndex.build records names fold).keys.idxOf? key = none := by
    rw [List.idxOf?_eq_none_iff, TrigramIndex.build_keys hne, mem_keys_of hrecords]
    exact hpruned
  simp [TrigramIndex.get_posting, hkey]

theorem sorted_keys_eq_nil (h : ∀ rec ∈ records, record_trigrams names fold rec = []) : sorted_keys records names fold = [] := by
  rw [List.eq_nil_iff_forall_not_mem]
  rintro ⟨key, cnt⟩ hmem
  obtain ⟨⟨hpos, -⟩, -⟩ := (mem_sorted_keys hrecords).mp hmem
  obtain ⟨rec, hrec, hkey⟩ := List.countP_pos_iff.mp hpos
  rw [h rec hrec] at hkey
  simp at hkey

end

/-- The kept counts add up to the same in any order. -/
theorem fits_of_kept {records : List CompactRecord} {names : List UInt8} {fold : CaseFold}
    (h : (((global_counts ((chunks CHUNK_SIZE records).map (chunk_count names fold))).entries.filter
      fun e => e.2.toNat ≤ freq_cap records.length).map fun e => e.2.toNat).sum < UInt32.size) : Fits records names fold := by
  unfold Fits sorted_keys
  rw [((List.mergeSort_perm _ _).map _).sum_eq, List.map_map]
  exact h

theorem scatter_chunks_length (keys : List UInt64) (names : List UInt8) (fold : CaseFold)
    (accumulated : List UInt32) (record_offset : Nat) (parts : List (List CompactRecord × CountMap))
    (values : List UInt32) :
    (scatter_chunks keys names fold accumulated record_offset parts values).length = values.length := by
  induction parts generalizing accumulated record_offset values with
  | nil => rfl
  | cons part parts ih => rw [scatter_chunks, ih, csr.scatter_values_length]

/-- Shape of a built table, whatever its size. -/
theorem TrigramIndex.build_shape (records : List CompactRecord) (names : List UInt8) (fold : CaseFold) :
    (TrigramIndex.build records names fold).offsets.length = (TrigramIndex.build records names fold).keys.length + 1 ∧
      (TrigramIndex.build records names fold).values.length < UInt32.size := by
  unfold TrigramIndex.build
  split
  · exact ⟨rfl, by decide⟩
  · dsimp only
    refine ⟨?_, ?_⟩
    · rw [csr.offsets_length, List.length_map, List.length_map]
    · unfold scatter_postings
      split
      · decide
      · rw [scatter_chunks_length, List.length_replicate]
        exact UInt32.toNat_lt_size _

/-- A table without keys is the empty table. -/
theorem TrigramIndex.build_of_keys_nil {records : List CompactRecord} {names : List UInt8} {fold : CaseFold}
    (h : records = [] ∨ sorted_keys records names fold = []) :
    TrigramIndex.build records names fold = TrigramIndex.empty := by
  by_cases hnil : records = []
  · subst hnil
    rfl
  · have hkeys := h.resolve_left hnil
    have hempty : records.isEmpty = false := by simpa using hnil
    rw [TrigramIndex.build, hempty]
    simp only [hkeys, List.map_nil, csr.offsets]
    rfl

theorem forall_scatter_chunks {P : UInt32 → Prop} {keys : List UInt64} {names : List UInt8} {fold : CaseFold} {n base : Nat}
    (hvalues : ∀ i < n, P (len_to_u32 i)) {fuel : Nat} {records : List CompactRecord} (hrecords : base + records.length ≤ n)
    {accumulated values : List UInt32} (hstate : ∀ v ∈ values, P v) :
    ∀ v ∈ scatter_chunks keys names fold accumulated base
      ((chunksAux CHUNK_SIZE fuel records).map fun chunk => (chunk, chunk_count names fold chunk)) values, P v := by
  induction fuel generalizing records accumulated values base with
  | zero => exact hstate
  | succ fuel ih =>
    cases records with
    | nil => exact hstate
    | cons first others =>
      rw [chunksAux, List.map_cons, scatter_chunks]
      by_cases hlast : (first :: others).length ≤ CHUNK_SIZE
      · rw [List.drop_of_length_le hlast]
        have hrest : chunksAux CHUNK_SIZE fuel ([] : List CompactRecord) = [] := by cases fuel <;> simp [chunksAux]
        rw [hrest, List.map_nil, scatter_chunks, List.take_of_length_le hlast]
        apply csr.forall_scatter
        · intro i _ hi
          exact hvalues i (by omega)
        · exact hstate
      · apply ih
        · rw [List.length_drop]
          omega
        · apply csr.forall_scatter
          · intro i _ hi
            rw [List.length_take] at hi
            exact hvalues i (by omega)
          · exact hstate

/-- Postings of a built table are numbers of records, and its offsets never descend. -/
theorem TrigramIndex.build_bounds (records : List CompactRecord) (names : List UInt8) (fold : CaseFold) :
    (∀ v ∈ (TrigramIndex.build records names fold).values, v.toNat < records.length) ∧
      (TrigramIndex.build records names fold).offsets.Pairwise (· ≤ ·) := by
  unfold TrigramIndex.build
  split
  · simp [TrigramIndex.empty]
  next hne =>
    have hpos : 0 < records.length := by
      rw [List.isEmpty_iff] at hne
      exact List.length_pos_iff.mpr hne
    refine ⟨?_, (csr.offsets_pairwise 0 _).1⟩
    dsimp only
    unfold scatter_postings
    split
    · simp
    · rw [zip_chunk_counts]
      refine @forall_scatter_chunks (fun v => v.toNat < records.length) _ _ _ records.length 0 ?_ _ _ (by omega) _ _ ?_
      · intro i hi
        exact lt_of_le_of_lt (len_to_u32_toNat_le i) hi
      · intro v hv
        simpa [List.eq_of_mem_replicate hv] using hpos

end uffs.trigram
