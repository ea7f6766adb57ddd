import Mathlib.Data.List.Perm.Lattice

namespace uffs.lib

/-! Hash maps as lists of entries with distinct keys, walked in any order. -/

/-- The order in which a hash map, a hash set or a heap is walked: any, but each entry once. -/
structure WalkOrder where
  visit : {α : Type} → List α → List α
  perm : ∀ {α : Type} (entries : List α), (visit entries).Perm entries

/-- A walk that meets the entries as they were put in. -/
def WalkOrder.forward : WalkOrder where
  visit := id
  perm entries := List.Perm.refl entries

@[simp] theorem WalkOrder.mem_visit (walk : WalkOrder) {α : Type} {entries : List α} {x : α} :
    x ∈ walk.visit entries ↔ x ∈ entries := (walk.perm entries).mem_iff

section entries

variable {κ α : Type}

/-- No key stands twice. -/
def NodupKeys (entries : List (κ × α)) : Prop := (entries.map Prod.fst).Nodup

theorem NodupKeys.nil : NodupKeys ([] : List (κ × α)) := List.nodup_nil

theorem NodupKeys.nodup {entries : List (κ × α)} (h : NodupKeys entries) : entries.Nodup := List.Nodup.of_map _ h

theorem NodupKeys.perm {entries other : List (κ × α)} (h : NodupKeys entries) (hperm : other.Perm entries) :
    NodupKeys other := ((hperm.map Prod.fst).nodup_iff).mpr h

variable [DecidableEq κ]

/-- The value of a key, updated; `fresh` where there is none. -/
@[grind] def upsert (key : κ) (fresh : α) (f : α → α) : List (κ × α) → List (κ × α)
  | [] => [(key, fresh)]
  | (k, v) :: rest => if k = key then (k, f v) :: rest else (k, v) :: upsert key fresh f rest

theorem lookup_cons_of_ne {key k : κ} (hne : key ≠ k) (v : α) (entries : List (κ × α)) :
    List.lookup key ((k, v) :: entries) = entries.lookup key := by
  simp only [List.lookup_cons, beq_false_of_ne hne]

theorem lookup_upsert_self (key : κ) (fresh : α) (f : α → α) (entries : List (κ × α)) :
    (upsert key fresh f entries).lookup key = some (((entries.lookup key).map f).getD fresh) := by
  induction entries with
  | nil => simp [upsert]
  | cons entry rest ih =>
    obtain ⟨k, v⟩ := entry
    by_cases hk : k = key
    · subst hk
      simp [upsert]
    · simp [upsert, hk, lookup_cons_of_ne (Ne.symm hk), ih]

theorem lookup_upsert_of_ne {key other : κ} (hne : other ≠ key) (fresh : α) (f : α → α) (entries : List (κ × α)) :
    (upsert key fresh f entries).lookup other = entries.lookup other := by
  induction entries with
  | nil => simp [upsert, lookup_cons_of_ne hne]
  | cons entry rest ih =>
    obtain ⟨k, v⟩ := entry
    by_cases hk : k = key
    · subst hk
      simp [upsert, lookup_cons_of_ne hne]
    · by_cases ho : other = k
      · subst ho
        simp [upsert, hk]
      · simp [upsert, hk, lookup_cons_of_ne ho, ih]

theorem mem_keys_upsert {key other : κ} {fresh : α} {f : α → α} {entries : List (κ × α)} :
    other ∈ (upsert key fresh f entries).map Prod.fst ↔ other = key ∨ other ∈ entries.map Prod.fst := by
  induction entries with
  | nil => simp [upsert]
  | cons entry rest ih =>
    obtain ⟨k, v⟩ := entry
    by_cases hk : k = key
    · subst hk
      simp [upsert]
    · simp only [upsert, if_neg hk, List.map_cons, List.mem_cons, ih]
      tauto

theorem mem_upsert {key : κ} {fresh : α} {f : α → α} {entries : List (κ × α)}
    {entry : κ × α} (h : entry ∈ upsert key fresh f entries) :
    entry = (key, fresh) ∨ ∃ old ∈ entries, entry.1 = old.1 ∧ (entry.2 = old.2 ∨ old.1 = key ∧ entry.2 = f old.2) := by
  induction entries with
  | nil => exact Or.inl (List.mem_singleton.mp h)
  | cons head rest ih =>
    simp only [upsert] at h
    split at h
    · next hkey =>
      rcases List.mem_cons.mp h with rfl | hlater
      · exact Or.inr ⟨head, List.mem_cons_self, rfl, Or.inr ⟨hkey, rfl⟩⟩
      · exact Or.inr ⟨entry, List.mem_cons_of_mem _ hlater, rfl, Or.inl rfl⟩
    · rcases List.mem_cons.mp h with rfl | hlater
      · exact Or.inr ⟨head, List.mem_cons_self, rfl, Or.inl rfl⟩
      · rcases ih hlater with hfresh | ⟨old, hold, found⟩
        · exact Or.inl hfresh
        · exact Or.inr ⟨old, List.mem_cons_of_mem _ hold, found⟩

theorem NodupKeys.upsert {entries : List (κ × α)} (h : NodupKeys entries) (key : κ) (fresh : α) (f : α → α) :
    NodupKeys (lib.upsert key fresh f entries) := by
  induction entries with
  | nil => exact List.nodup_singleton key
  | cons entry rest ih =>
    obtain ⟨k, v⟩ := entry
    obtain ⟨hfresh, hrest⟩ := List.nodup_cons.mp h
    by_cases hk : k = key
    · simp only [lib.upsert, if_pos hk]
      exact List.nodup_cons.mpr ⟨hfresh, hrest⟩
    · simp only [lib.upsert, if_neg hk]
      refine List.nodup_cons.mpr ⟨fun hmem => ?_, ih hrest⟩
      exact (mem_keys_upsert.mp hmem).elim hk hfresh

theorem mem_of_lookup {entries : List (κ × α)} {key : κ} {value : α} (h : entries.lookup key = some value) :
    (key, value) ∈ entries := by
  induction entries with
  | nil => cases h
  | cons entry rest ih =>
    obtain ⟨k, v⟩ := entry
    by_cases hk : key = k
    · subst hk
      simp only [List.lookup_cons_self, Option.some.injEq] at h
      exact h ▸ List.mem_cons_self
    · rw [lookup_cons_of_ne hk] at h
      exact List.mem_cons_of_mem _ (ih h)

theorem NodupKeys.lookup_eq_some_iff {entries : List (κ × α)} (h : NodupKeys entries) {key : κ} {value : α} :
    entries.lookup key = some value ↔ (key, value) ∈ entries := by
  refine ⟨mem_of_lookup, fun hmem => ?_⟩
  induction entries with
  | nil => cases hmem
  | cons entry rest ih =>
    obtain ⟨k, v⟩ := entry
    obtain ⟨hfresh, hrest⟩ := List.nodup_cons.mp h
    rcases List.mem_cons.mp hmem with heq | hlater
    · cases heq
      exact List.lookup_cons_self
    · have hne : key ≠ k := by
        rintro rfl
        exact hfresh (List.mem_map.mpr ⟨_, hlater, rfl⟩)
      rw [lookup_cons_of_ne hne]
      exact ih hrest hlater

/-- Two maps with the same values are one map, up to the order of the entries. -/
theorem NodupKeys.perm_of_lookup {entries other : List (κ × α)} (h : NodupKeys entries) (hother : NodupKeys other)
    (hsame : ∀ key, entries.lookup key = other.lookup key) : entries.Perm other := by
  refine (List.perm_ext_iff_of_nodup h.nodup hother.nodup).mpr fun ⟨key, value⟩ => ?_
  rw [← h.lookup_eq_some_iff, ← hother.lookup_eq_some_iff, hsame key]

end entries

end uffs.lib
