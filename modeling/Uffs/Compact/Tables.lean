import Uffs.Lib.Csr
import Uffs.Lib.Postings
import Uffs.Compact.Record

open uffs.lib uffs.mft

namespace uffs.compact

/-- Parent to children table. -/
abbrev ChildrenIndex := csr.Csr

/-- Extension id to records table. -/
abbrev ExtensionIndex := csr.Csr

/-- The row a record is counted in. The children table reads `parent_idx` of every record,
including those without a name. -/
def child_emit (rec : CompactRecord) : List Nat :=
  if rec.parent_idx ≠ NO_ENTRY then [rec.parent_idx.toNat] else []

def ChildrenIndex.build (records : List CompactRecord) : ChildrenIndex :=
  csr.build child_emit len_to_u32 records.length records

/-- The extension table skips records without a name. -/
def ext_emit (rec : CompactRecord) : List Nat :=
  if rec.name_len = 0 then [] else [rec.extension_id.toNat]

def ExtensionIndex.build (records : List CompactRecord) : ExtensionIndex :=
  let max_id := (records.map fun rec => rec.extension_id.toNat).foldl max 0
  csr.build ext_emit len_to_u32 (max_id + 1) records

variable {records : List CompactRecord}

theorem slots_ascending {emit : CompactRecord → List Nat} (b : Nat) (hrecords : records.length < UInt32.size) :
    postings.Ascending (csr.bucket emit len_to_u32 b 0 records) :=
  csr.bucket_pairwise fun i j _ hij hj => len_to_u32_lt hij (by omega)

theorem mem_slots {emit : CompactRecord → List Nat} {b : Nat} {c : UInt32} (hrecords : records.length < UInt32.size) :
    c ∈ csr.bucket emit len_to_u32 b 0 records ↔ ∃ rec, records[c.toNat]? = some rec ∧ b ∈ emit rec := by
  rw [csr.mem_bucket]
  constructor
  · rintro ⟨k, rec, hget, hmem, rfl⟩
    have hk : k < records.length := (List.getElem?_eq_some_iff.mp hget).1
    refine ⟨rec, ?_, hmem⟩
    rwa [Nat.zero_add, len_to_u32_toNat (by omega)]
  · rintro ⟨rec, hget, hmem⟩
    exact ⟨c.toNat, rec, hget, hmem, by rw [Nat.zero_add, len_to_u32_of_toNat]⟩

theorem ChildrenIndex.build_get (hrecords : records.length < UInt32.size) (p : Nat) : (ChildrenIndex.build records).get p =
      if p < records.length then csr.bucket child_emit len_to_u32 p 0 records else [] := by
  have hone : ∀ rec, (child_emit rec).length ≤ 1 := fun rec => by
    unfold child_emit
    split <;> simp
  refine csr.build_get (fun rec _ => ?_) hrecords
    (lt_of_le_of_lt (csr.start_rowSize_le_length records.length hone) hrecords)
  unfold child_emit
  split <;> simp

theorem le_foldl_max (values : List Nat) (base : Nat) :
    base ≤ values.foldl max base ∧ ∀ value ∈ values, value ≤ values.foldl max base := by
  induction values generalizing base with
  | nil => simp
  | cons first values ih =>
    obtain ⟨hbase, hvalues⟩ := ih (max base first)
    rw [List.foldl_cons]
    refine ⟨by omega, fun value hvalue => ?_⟩
    cases List.mem_cons.mp hvalue with
    | inl h => omega
    | inr h => exact hvalues value h

section

variable (hrecords : records.length < UInt32.size)

include hrecords

theorem ExtensionIndex.build_get (e : Nat) :
    (ExtensionIndex.build records).get e = csr.bucket ext_emit len_to_u32 e 0 records := by
  have hone : ∀ rec, (ext_emit rec).length ≤ 1 := fun rec => by
    unfold ext_emit
    split <;> simp
  have hnodup : ∀ rec ∈ records, (ext_emit rec).Nodup := fun rec _ => by
    unfold ext_emit
    split <;> simp
  rw [build, csr.build_get hnodup hrecords
    (lt_of_le_of_lt (csr.start_rowSize_le_length _ hone) hrecords)]
  split
  · rfl
  next hbig =>
    -- An id above the largest one in use has no records.
    symm
    apply List.eq_nil_iff_forall_not_mem.mpr
    intro c hc
    obtain ⟨rec, hget, hmem⟩ := (mem_slots hrecords).mp hc
    have hid : e = rec.extension_id.toNat := by
      unfold ext_emit at hmem
      split at hmem <;> simp_all
    have hle := (le_foldl_max (records.map fun rec => rec.extension_id.toNat) 0).2 rec.extension_id.toNat
      (List.mem_map_of_mem (List.mem_of_getElem? hget))
    exact hbig (Nat.lt_succ_of_le (hid ▸ hle))

/-- A base row of the children table lists the records that name the parent, live or not. -/
theorem ChildrenIndex.mem_build_get {p : Nat} {c : UInt32} :
    c ∈ (ChildrenIndex.build records).get p ↔ p < records.length ∧
      ∃ rec, records[c.toNat]? = some rec ∧ rec.parent_idx ≠ NO_ENTRY ∧ rec.parent_idx.toNat = p := by
  have hemit : ∀ rec : CompactRecord, p ∈ child_emit rec ↔
      rec.parent_idx ≠ NO_ENTRY ∧ rec.parent_idx.toNat = p := fun rec => by
    unfold child_emit
    split <;> simp_all [eq_comm]
  rw [build_get hrecords]
  split
  next h => simp only [mem_slots hrecords, hemit, h, true_and]
  next h => simp [h]

theorem ExtensionIndex.mem_build_get {e : Nat} {c : UInt32} :
    c ∈ (ExtensionIndex.build records).get e ↔
      ∃ rec, records[c.toNat]? = some rec ∧ rec.Live ∧ rec.extension_id.toNat = e := by
  have hemit : ∀ rec : CompactRecord, e ∈ ext_emit rec ↔ rec.Live ∧ rec.extension_id.toNat = e := fun rec => by
    unfold ext_emit CompactRecord.Live
    split <;> simp_all [eq_comm]
  rw [build_get hrecords]
  simp only [mem_slots hrecords, hemit]

theorem ChildrenIndex.build_get_ascending (p : Nat) : postings.Ascending ((ChildrenIndex.build records).get p) := by
  rw [build_get hrecords]
  split
  · exact slots_ascending p hrecords
  · exact List.Pairwise.nil

theorem ExtensionIndex.build_get_ascending (e : Nat) : postings.Ascending ((ExtensionIndex.build records).get e) := by
  rw [build_get hrecords]
  exact slots_ascending e hrecords

end

end uffs.compact
