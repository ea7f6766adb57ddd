import Uffs.Compact.Trigram

open uffs.lib uffs.mft uffs.text uffs.compact

namespace uffs.trigram

/-- Number of records whose name has the key. -/
def frequency (records : List CompactRecord) (names : List UInt8) (fold : CaseFold) (key : UInt64) : Nat :=
  records.countP fun rec => key ∈ record_trigrams names fold rec

/-- The records whose name has the key, as one ascending list of slots. -/
def posting_list (records : List CompactRecord) (names : List UInt8) (fold : CaseFold) (key : UInt64) : List UInt32 :=
  csr.bucket (fun rec => if key ∈ record_trigrams names fold rec then [0] else []) len_to_u32 0 0 records

/-- The key survives pruning. -/
def Kept (records : List CompactRecord) (names : List UInt8) (fold : CaseFold) (key : UInt64) : Prop :=
  0 < frequency records names fold key ∧ frequency records names fold key ≤ freq_cap records.length

instance (records : List CompactRecord) (names : List UInt8) (fold : CaseFold) (key : UInt64) :
    Decidable (Kept records names fold key) := inferInstanceAs (Decidable (_ ∧ _))

/-- The kept postings fit the 32-bit offsets of the table. -/
def Fits (records : List CompactRecord) (names : List UInt8) (fold : CaseFold) : Prop :=
  ((sorted_keys records names fold).map fun e => e.2.toNat).sum < UInt32.size

/-- `counts` holds exactly the keys of positive `total`, each with its value. -/
def Counts (counts : CountMap) (total : UInt64 → Nat) : Prop :=
  ∀ key, ((counts.lookup key).map UInt32.toNat).getD 0 = total key ∧ (counts.lookup key = none ↔ total key = 0)

theorem counts_empty : Counts ∅ fun _ => 0 := fun key => by simp [AList.lookup_empty]

variable {counts : CountMap} {records : List CompactRecord} {names : List UInt8} {fold : CaseFold}
  {total : UInt64 → Nat}

theorem Counts.congr {total' : UInt64 → Nat} (hcounts : Counts counts total) (h : ∀ key, total key = total' key) :
    Counts counts total' := by
  rwa [← funext h]

theorem Counts.lookup_toNat (hcounts : Counts counts total) (key : UInt64) :
    ((counts.lookup key).getD 0).toNat = total key := by
  rw [← (hcounts key).1]
  cases counts.lookup key <;> rfl

theorem Counts.add (hcounts : Counts counts total) (key : UInt64) (cnt : UInt32)
    (hpos : 0 < cnt.toNat) (hroom : total key + cnt.toNat < UInt32.size) :
    Counts (counts.add key cnt) fun k => total k + if k = key then cnt.toNat else 0 := by
  intro k
  by_cases hk : k = key
  · subst hk
    have hold := hcounts.lookup_toNat k
    have hsum : ((counts.lookup k).getD 0 + cnt).toNat = total k + cnt.toNat := by
      rw [UInt32.toNat_add, hold]
      exact Nat.mod_eq_of_lt hroom
    simp only [CountMap.add, AList.lookup_insert, Option.map_some, Option.getD_some, hsum, if_pos]
    refine ⟨trivial, ?_⟩
    constructor
    · intro h
      cases h
    · intro h
      omega
  · simp only [CountMap.add, AList.lookup_insert_ne hk, if_neg hk, Nat.add_zero]
    exact hcounts k

/-- One record adds one to each of its keys. -/
theorem Counts.add_record (hcounts : Counts counts total) {keys : List UInt64} (hnodup : keys.Nodup)
    (hroom : ∀ key ∈ keys, total key + 1 < UInt32.size) :
    Counts (keys.foldl (fun m key => m.add key 1) counts) fun k => total k + if k ∈ keys then 1 else 0 := by
  induction keys generalizing counts total with
  | nil => simpa using hcounts
  | cons first keys ih =>
    obtain ⟨hfresh, hnodup'⟩ := List.nodup_cons.mp hnodup
    have hstep : Counts (counts.add first 1) fun k => total k + if k = first then 1 else 0 :=
      hcounts.add first 1 (by decide) (hroom first (by simp))
    have hrest := ih hstep hnodup' fun k hk => by
      have hne : k ≠ first := fun h => hfresh (h ▸ hk)
      simpa [hne] using hroom k (by simp [hk])
    refine hrest.congr fun k => ?_
    by_cases hk : k = first
    · subst hk
      simp [hfresh]
    · simp [hk]

section

variable (rec : CompactRecord) (records) (names) (fold) (key : UInt64)

theorem frequency_cons : frequency (rec :: records) names fold key =
      frequency records names fold key + if key ∈ record_trigrams names fold rec then 1 else 0 := by
  simp [frequency, List.countP_cons]

theorem frequency_append (left right : List CompactRecord) (names : List UInt8) (fold : CaseFold) (key : UInt64) :
    frequency (left ++ right) names fold key = frequency left names fold key + frequency right names fold key := by
  simp [frequency, List.countP_append]

theorem frequency_le_length : frequency records names fold key ≤ records.length :=
  List.countP_le_length

end

/-- Pass 1 over one chunk counts the records of each key. -/
theorem counts_chunk_count (chunk : List CompactRecord) (names : List UInt8) (fold : CaseFold)
    (hroom : chunk.length < UInt32.size) :
    Counts (chunk_count names fold chunk) (frequency chunk names fold) := by
  have hrun : ∀ (rest : List CompactRecord) (counts : CountMap) (total : UInt64 → Nat),
      Counts counts total → (∀ key, total key + rest.length < UInt32.size) →
      Counts (rest.foldl (fun counts rec => (record_trigrams names fold rec).foldl (fun m key => m.add key 1) counts)
        counts) fun key => total key + frequency rest names fold key := by
    intro rest
    induction rest with
    | nil => intro counts total hcounts _; simpa [frequency] using hcounts
    | cons rec rest ih =>
      intro counts total hcounts hspace
      simp only [List.length_cons] at hspace
      have hstep := hcounts.add_record (record_trigrams_nodup names fold rec) fun key _ => by
        have := hspace key
        omega
      have hnext := ih _ _ hstep fun key => by
        have := hspace key
        split <;> omega
      refine hnext.congr fun key => ?_
      rw [frequency_cons]
      omega
  have hall := hrun chunk ∅ (fun _ => 0) counts_empty (by simpa using hroom)
  exact hall.congr fun key => Nat.zero_add _

/-- Merging one map into another adds the counters key by key. -/
theorem Counts.merge {left right : CountMap} {f g : UInt64 → Nat} (hleft : Counts left f) (hright : Counts right g)
    (hroom : ∀ key, f key + g key < UInt32.size) :
    Counts (right.entries.foldl (fun m e => m.add e.1 e.2) left) fun key => f key + g key := by
  have hrun : ∀ (entries : List (Sigma fun _ : UInt64 => UInt32)) (m : CountMap) (t : UInt64 → Nat),
      entries.NodupKeys → (∀ e ∈ entries, 0 < e.2.toNat ∧ t e.1 + e.2.toNat < UInt32.size) → Counts m t →
      Counts (entries.foldl (fun m e => m.add e.1 e.2) m)
        fun key => t key + ((entries.dlookup key).map UInt32.toNat).getD 0 := by
    intro entries
    induction entries with
    | nil => intro m t _ _ hm; simpa using hm
    | cons e entries ih =>
      intro m t hnd he hm
      obtain ⟨hfresh, hnd'⟩ := List.nodupKeys_cons.mp hnd
      obtain ⟨hpos, hspace⟩ := he e (by simp)
      have hnext := ih (m.add e.1 e.2) _ hnd' (fun e' he' => by
        have hne : e'.1 ≠ e.1 := fun h => hfresh (h ▸ List.mem_keys_of_mem he')
        simpa [hne] using he e' (by simp [he'])) (hm.add e.1 e.2 hpos hspace)
      refine hnext.congr fun key => ?_
      by_cases hkey : key = e.1
      · subst hkey
        obtain ⟨k, c⟩ := e
        simp [List.dlookup_eq_none.mpr hfresh]
      · simp [hkey, List.dlookup_cons_ne entries e hkey]
  have hentries : ∀ e ∈ right.entries, 0 < e.2.toNat ∧ f e.1 + e.2.toNat < UInt32.size := by
    intro e he
    have hlookup : right.lookup e.1 = some e.2 := AList.mem_lookup_iff.mpr he
    obtain ⟨hvalue, hnone⟩ := hright e.1
    rw [hlookup] at hvalue hnone
    have hg : e.2.toNat = g e.1 := by simpa using hvalue
    have hne : g e.1 ≠ 0 := fun h => by simpa using hnone.mpr h
    have := hroom e.1
    omega
  exact (hrun right.entries left f right.nodupKeys hentries hleft).congr fun key => by
    rw [← (hright key).1]
    rfl

/-- The merged counters are the frequencies over all records. -/
theorem counts_global (names : List UInt8) (fold : CaseFold) (hrecords : records.length < UInt32.size) :
    Counts (global_counts ((chunks CHUNK_SIZE records).map (chunk_count names fold)))
      (frequency records names fold) := by
  have hrun : ∀ (parts : List (List CompactRecord)) (m : CountMap) (seen : List CompactRecord),
      (seen ++ parts.flatten).length < UInt32.size → Counts m (frequency seen names fold) →
      Counts ((parts.map (chunk_count names fold)).foldl
        (fun total chunk_map => chunk_map.entries.foldl (fun m e => m.add e.1 e.2) total) m)
        (frequency (seen ++ parts.flatten) names fold) := by
    intro parts
    induction parts with
    | nil => intro m seen _ hm; simpa using hm
    | cons part parts ih =>
      intro m seen hspace hm
      rw [List.flatten_cons, ← List.append_assoc] at hspace ⊢
      have hpart : part.length < UInt32.size := by
        simp only [List.length_append] at hspace
        omega
      refine ih _ (seen ++ part) hspace ?_
      have hmerge := hm.merge (counts_chunk_count part names fold hpart) fun key => by
        have hseen := frequency_le_length seen names fold key
        have hhere := frequency_le_length part names fold key
        simp only [List.length_append] at hspace
        omega
      exact hmerge.congr fun key => (frequency_append seen part names fold key).symm
  have hflat : (chunks CHUNK_SIZE records).flatten = records := flatten_chunks records (by decide)
  have hall := hrun (chunks CHUNK_SIZE records) ∅ [] (by simpa [hflat] using hrecords)
    (counts_empty.congr fun key => rfl)
  rw [List.nil_append, hflat] at hall
  exact hall

/-- The kept keys with their frequencies. -/
theorem mem_sorted_keys {key : UInt64} {cnt : UInt32} (hrecords : records.length < UInt32.size) :
    (key, cnt) ∈ sorted_keys records names fold ↔
      Kept records names fold key ∧ cnt.toNat = frequency records names fold key := by
  have hcounts := counts_global names fold hrecords
  have hentry : (key, cnt) ∈ sorted_keys records names fold ↔
      (global_counts ((chunks CHUNK_SIZE records).map (chunk_count names fold))).lookup key = some cnt ∧
        cnt.toNat ≤ freq_cap records.length := by
    rw [← Option.mem_def, AList.mem_lookup_iff]
    simp only [sorted_keys, List.mem_mergeSort, List.mem_map, List.mem_filter, decide_eq_true_eq]
    constructor
    · rintro ⟨⟨k, c⟩, ⟨hmem, hcap⟩, heq⟩
      obtain ⟨rfl, rfl⟩ := Prod.mk.inj heq
      exact ⟨hmem, hcap⟩
    · rintro ⟨hmem, hcap⟩
      exact ⟨⟨key, cnt⟩, ⟨hmem, hcap⟩, rfl⟩
  obtain ⟨hvalue, hnone⟩ := hcounts key
  rw [hentry, Kept]
  constructor
  · rintro ⟨hlookup, hcap⟩
    rw [hlookup] at hvalue hnone
    have hcnt : cnt.toNat = frequency records names fold key := by simpa using hvalue
    have hne : frequency records names fold key ≠ 0 := fun h => by simpa using hnone.mpr h
    exact ⟨⟨Nat.pos_of_ne_zero hne, hcnt ▸ hcap⟩, hcnt⟩
  · rintro ⟨⟨hpos, hcap⟩, hcnt⟩
    have hsome : (global_counts ((chunks CHUNK_SIZE records).map (chunk_count names fold))).lookup key ≠ none :=
      fun h => by
        have := hnone.mp h
        omega
    obtain ⟨c, hc⟩ := Option.ne_none_iff_exists'.mp hsome
    rw [hc] at hvalue
    have hcc : c = cnt := UInt32.toNat.inj (by simpa [hcnt] using hvalue)
    exact ⟨hcc ▸ hc, hcnt ▸ hcap⟩

/-- The key column of the table. -/
def keys_of (records : List CompactRecord) (names : List UInt8) (fold : CaseFold) : List UInt64 :=
  (sorted_keys records names fold).map (·.1)

theorem keys_of_nodup (records : List CompactRecord) (names : List UInt8) (fold : CaseFold) :
    (keys_of records names fold).Nodup := by
  have hperm := (List.mergeSort_perm
    (((global_counts ((chunks CHUNK_SIZE records).map (chunk_count names fold))).entries.filter
      fun e => e.2.toNat ≤ freq_cap records.length).map fun e => (e.1, e.2))
    (fun a b => decide (a.1 ≤ b.1))).map (·.1)
  refine hperm.nodup_iff.mpr ?_
  rw [List.map_map]
  have hsub := (List.filter_sublist (p := fun e => decide (e.2.toNat ≤ freq_cap records.length))
    (l := (global_counts ((chunks CHUNK_SIZE records).map (chunk_count names fold))).entries)).map Sigma.fst
  exact (AList.keys_nodup _).sublist hsub

theorem mem_keys_of {key : UInt64} (hrecords : records.length < UInt32.size) :
    key ∈ keys_of records names fold ↔ Kept records names fold key := by
  simp only [keys_of, List.mem_map]
  constructor
  · rintro ⟨⟨k, c⟩, hmem, rfl⟩
    exact ((mem_sorted_keys hrecords).mp hmem).1
  · intro hkept
    have hroom : frequency records names fold key < UInt32.size :=
      lt_of_le_of_lt (frequency_le_length records names fold key) hrecords
    refine ⟨(key, UInt32.ofNat (frequency records names fold key)), ?_, rfl⟩
    refine (mem_sorted_keys hrecords).mpr ⟨hkept, ?_⟩
    rw [UInt32.toNat_ofNat']
    exact Nat.mod_eq_of_lt hroom

/-- Size of row `b` of the table. -/
def row_size (records : List CompactRecord) (names : List UInt8) (fold : CaseFold) (b : Nat) : Nat :=
  ((sorted_keys records names fold).map fun e => e.2.toNat)[b]?.getD 0

theorem row_size_eq {b : Nat} {key : UInt64} (hrecords : records.length < UInt32.size)
    (hkey : (keys_of records names fold)[b]? = some key) :
    row_size records names fold b = frequency records names fold key := by
  rw [keys_of, List.getElem?_map, Option.map_eq_some_iff] at hkey
  obtain ⟨⟨k, c⟩, hget, rfl⟩ := hkey
  have hcnt := ((mem_sorted_keys hrecords).mp (List.mem_of_getElem? hget)).2
  rw [row_size, List.getElem?_map, hget, ← hcnt]
  rfl

theorem mem_posting_list {key : UInt64} {c : UInt32} (hrecords : records.length < UInt32.size) :
    c ∈ posting_list records names fold key ↔
      ∃ rec, records[c.toNat]? = some rec ∧ key ∈ record_trigrams names fold rec := by
  rw [posting_list, csr.mem_bucket]
  constructor
  · rintro ⟨k, rec, hget, hkey, hc⟩
    have hk := (List.getElem?_eq_some_iff.mp hget).1
    refine ⟨rec, ?_, ?_⟩
    · rw [hc, Nat.zero_add, len_to_u32_toNat (by omega)]
      exact hget
    · by_contra hnot
      rw [if_neg hnot] at hkey
      cases hkey
  · rintro ⟨rec, hget, hkey⟩
    refine ⟨c.toNat, rec, hget, ?_, ?_⟩
    · rw [if_pos hkey]
      exact List.mem_singleton_self 0
    · rw [Nat.zero_add, len_to_u32_of_toNat]

theorem posting_list_ascending (names : List UInt8) (fold : CaseFold) (key : UInt64)
    (hrecords : records.length < UInt32.size) : postings.Ascending (posting_list records names fold key) := by
  apply csr.bucket_pairwise
  intro i j _ hij hj
  exact len_to_u32_lt hij (by omega)

theorem sorted_keys_map {f : CompactRecord → CompactRecord}
    (hf : ∀ rec, record_trigrams names fold (f rec) = record_trigrams names fold rec) (records : List CompactRecord) :
    sorted_keys (records.map f) names fold = sorted_keys records names fold := by
  have hchunk : ∀ chunk, chunk_count names fold (chunk.map f) = chunk_count names fold chunk := by
    intro chunk
    simp only [chunk_count, List.foldl_map, hf]
  have hcounts : (chunks CHUNK_SIZE (records.map f)).map (chunk_count names fold) =
      (chunks CHUNK_SIZE records).map (chunk_count names fold) := by
    rw [chunks_map, List.map_map]
    apply List.map_congr_left
    intro chunk _
    exact hchunk chunk
  rw [sorted_keys, sorted_keys, hcounts, List.length_map]

end uffs.trigram
