import Mathlib.Data.Finset.Insert
import Uffs.Lib.Postings
import Uffs.Mft.Convert

open uffs.lib uffs.mft

namespace uffs.compact

/-- Mutable overlay over the immutable base tables. A map entry that is absent reads as the
empty posting list, so each hash map is the function its lookups compute. -/
structure IndexDelta where
  trigram : UInt64 → List UInt32 := fun _ => []
  ext : UInt16 → List UInt32 := fun _ => []
  children : UInt32 → List UInt32 := fun _ => []
  tombstones : Finset UInt32 := ∅
  touched_records : UInt32 := 0

/-- `sorted_insert` into the posting list of one key. -/
def insert_at {κ : Type} [DecidableEq κ] (map : κ → List UInt32) (key : κ) (idx : UInt32) : κ → List UInt32 :=
  Function.update map key (postings.insert (map key) idx)

def IndexDelta.add_record (self : IndexDelta) (idx : UInt32) (trigrams : List UInt64) (ext_id : UInt16)
    (parent_idx : UInt32) : IndexDelta where
  trigram := trigrams.foldl (fun map key => insert_at map key idx) self.trigram
  ext := insert_at self.ext ext_id idx
  children := if parent_idx ≠ NO_ENTRY then insert_at self.children parent_idx idx else self.children
  tombstones := self.tombstones
  touched_records := saturating_add self.touched_records 1

def IndexDelta.tombstone (self : IndexDelta) (idx : UInt32) : IndexDelta :=
  if idx ∈ self.tombstones then self
  else { self with
    tombstones := insert idx self.tombstones
    touched_records := saturating_add self.touched_records 1 }

def IndexDelta.is_tombstoned (self : IndexDelta) (idx : UInt32) : Bool :=
  idx ∈ self.tombstones

/-- Union merge that keeps the values passing `is_valid`. -/
def merge_filter (base delta : List UInt32) (is_valid : UInt32 → Bool) : List UInt32 :=
  (postings.union base delta).filter is_valid

/-- Union merge of a base posting list with its overlay. -/
def merge_postings (base delta : List UInt32) : List UInt32 :=
  if delta.isEmpty then base
  else if base.isEmpty then delta
  else postings.union base delta

theorem merge_postings_eq_union (base delta : List UInt32) : merge_postings base delta = postings.union base delta := by
  rw [merge_postings]
  split
  next h => rw [List.isEmpty_iff.mp h, postings.union_nil]
  next =>
    split
    next h => rw [List.isEmpty_iff.mp h, postings.nil_union]
    next => rfl

section insert_at

variable {κ : Type} [DecidableEq κ] {map : κ → List UInt32}

theorem mem_insert_at {key k : κ} {idx c : UInt32} : c ∈ insert_at map key idx k ↔ (k = key ∧ c = idx) ∨ c ∈ map k := by
  by_cases hk : k = key
  · subst hk
    simp [insert_at]
  · simp [insert_at, hk]

theorem insert_at_ascending (hmap : ∀ k, postings.Ascending (map k)) (key : κ) (idx : UInt32) (k : κ) :
    postings.Ascending (insert_at map key idx k) := by
  by_cases hk : k = key
  · subst hk
    simpa [insert_at] using postings.insert_ascending (hmap k) idx
  · simpa [insert_at, hk] using hmap k

theorem mem_foldl_insert_at {keys : List κ} {k : κ} {idx c : UInt32} :
    c ∈ keys.foldl (fun map key => insert_at map key idx) map k ↔ (k ∈ keys ∧ c = idx) ∨ c ∈ map k := by
  induction keys generalizing map with
  | nil => simp
  | cons key keys ih =>
    rw [List.foldl_cons, ih, mem_insert_at, List.mem_cons]
    tauto

theorem foldl_insert_at_ascending (hmap : ∀ k, postings.Ascending (map k)) (keys : List κ) (idx : UInt32) (k : κ) :
    postings.Ascending (keys.foldl (fun map key => insert_at map key idx) map k) := by
  induction keys generalizing map with
  | nil => exact hmap k
  | cons key keys ih => exact ih (insert_at_ascending hmap key idx)

end insert_at

/-- Every posting list of the overlay is sorted and free of duplicates. -/
structure IndexDelta.Sorted (delta : IndexDelta) : Prop where
  trigram_ascending : ∀ key, postings.Ascending (delta.trigram key)
  ext_ascending : ∀ key, postings.Ascending (delta.ext key)
  children_ascending : ∀ key, postings.Ascending (delta.children key)

theorem IndexDelta.sorted_empty : IndexDelta.Sorted {} :=
  ⟨fun _ => List.Pairwise.nil, fun _ => List.Pairwise.nil, fun _ => List.Pairwise.nil⟩

theorem IndexDelta.Sorted.add_record {self : IndexDelta} (hsorted : self.Sorted) (idx : UInt32)
    (trigrams : List UInt64) (ext_id : UInt16) (parent_idx : UInt32) :
    (self.add_record idx trigrams ext_id parent_idx).Sorted := by
  refine ⟨foldl_insert_at_ascending hsorted.trigram_ascending trigrams idx, insert_at_ascending hsorted.ext_ascending ext_id idx, ?_⟩
  intro key
  unfold IndexDelta.add_record
  split
  · exact insert_at_ascending hsorted.children_ascending parent_idx idx key
  · exact hsorted.children_ascending key

theorem IndexDelta.tombstone_postings (self : IndexDelta) (idx : UInt32) :
    (self.tombstone idx).trigram = self.trigram ∧ (self.tombstone idx).ext = self.ext ∧
      (self.tombstone idx).children = self.children := by
  unfold tombstone
  split <;> exact ⟨rfl, rfl, rfl⟩

theorem IndexDelta.Sorted.tombstone {self : IndexDelta} (hsorted : self.Sorted) (idx : UInt32) :
    (self.tombstone idx).Sorted := by
  obtain ⟨htrigram, hext, hchildren⟩ := self.tombstone_postings idx
  exact ⟨htrigram ▸ hsorted.trigram_ascending, hext ▸ hsorted.ext_ascending, hchildren ▸ hsorted.children_ascending⟩

theorem IndexDelta.mem_tombstones_tombstone {self : IndexDelta} {idx c : UInt32} :
    c ∈ (self.tombstone idx).tombstones ↔ c = idx ∨ c ∈ self.tombstones := by
  unfold IndexDelta.tombstone
  split
  next h =>
    constructor
    · exact Or.inr
    · rintro (rfl | hc)
      · exact h
      · exact hc
  next => exact Finset.mem_insert

end uffs.compact
