import Uffs.Lib.KeyMap
import Mathlib.Data.List.Induction

namespace uffs.lib

/-! Maps that keep one value for all items with a key. -/

section grouping

variable {α κ σ : Type} [DecidableEq κ]

/-- The items of a key; an item without a key is in no group. -/
def with_key (key : α → Option κ) (items : List α) (k : κ) : List α := items.filter fun x => key x = some k

@[simp] theorem with_key_append (key : α → Option κ) (xs ys : List α) (k : κ) :
    with_key key (xs ++ ys) k = with_key key xs k ++ with_key key ys k := List.filter_append xs ys

theorem with_key_singleton {key : α → Option κ} {x : α} {k : κ} (h : key x = some k) : with_key key [x] k = [x] :=
  List.filter_cons_of_pos (by simpa using h)

theorem with_key_singleton_of_ne {key : α → Option κ} {x : α} {k : κ} (h : key x ≠ some k) : with_key key [x] k = [] :=
  List.filter_cons_of_neg (by simpa using h)

theorem mem_with_key {key : α → Option κ} {items : List α} {k : κ} {x : α} :
    x ∈ with_key key items k ↔ x ∈ items ∧ key x = some k := by simp [with_key]

/-- Each key that occurs has one entry, and its value is one for the items of the key. -/
structure Grouped (key : α → Option κ) (holds : List α → σ → Prop) (items : List α) (entries : List (κ × σ)) : Prop where
  nodup : NodupKeys entries
  absent : ∀ k, entries.lookup k = none → with_key key items k = []
  present : ∀ k v, entries.lookup k = some v → with_key key items k ≠ [] ∧ holds (with_key key items k) v

variable {key : α → Option κ} {holds : List α → σ → Prop} {items xs ys : List α} {entries a b : List (κ × σ)}

theorem Grouped.nil : Grouped key holds [] [] where
  nodup := NodupKeys.nil
  absent _ _ := rfl
  present _ _ h := by cases h

section

variable (h : Grouped key holds items entries)

include h

theorem Grouped.of_mem {k : κ} {v : σ} (hmem : (k, v) ∈ entries) :
    with_key key items k ≠ [] ∧ holds (with_key key items k) v :=
  h.present k v (h.nodup.lookup_eq_some_iff.mpr hmem)

theorem Grouped.lookup_isSome {k : κ} (hne : with_key key items k ≠ []) : ∃ v, entries.lookup k = some v := by
  cases hlook : entries.lookup k with
  | none => exact absurd (h.absent k hlook) hne
  | some v => exact ⟨v, rfl⟩

theorem Grouped.skip {x : α} (hx : key x = none) : Grouped key holds (items ++ [x]) entries := by
  have hsame : ∀ k, with_key key (items ++ [x]) k = with_key key items k := by
    intro k
    rw [with_key_append, with_key_singleton_of_ne (by simp [hx]), List.append_nil]
  exact ⟨h.nodup, fun k => hsame k ▸ h.absent k, fun k v => hsame k ▸ h.present k v⟩

theorem Grouped.feed {x : α} {k : κ} (hx : key x = some k) {fresh : σ} {f : σ → σ} (hfresh : holds [x] fresh)
    (hf : ∀ items v, holds items v → holds (items ++ [x]) (f v)) :
    Grouped key holds (items ++ [x]) (upsert k fresh f entries) := by
  have hother : ∀ {other}, other ≠ k → with_key key (items ++ [x]) other = with_key key items other := by
    intro other hne
    have hnot : key x ≠ some other := by simp [hx, Ne.symm hne]
    rw [with_key_append, with_key_singleton_of_ne hnot, List.append_nil]
  have hself : with_key key (items ++ [x]) k = with_key key items k ++ [x] := by
    rw [with_key_append, with_key_singleton hx]
  refine ⟨h.nodup.upsert k fresh f, fun other hnone => ?_, fun other v hsome => ?_⟩
  · by_cases ho : other = k
    · rw [ho, lookup_upsert_self] at hnone
      cases hnone
    · rw [lookup_upsert_of_ne ho] at hnone
      rw [hother ho]
      exact h.absent other hnone
  · by_cases ho : other = k
    · subst ho
      rw [lookup_upsert_self, Option.some.injEq] at hsome
      rw [hself]
      refine ⟨by simp, ?_⟩
      cases hlook : entries.lookup other with
      | none =>
        rw [hlook] at hsome
        rw [h.absent other hlook, List.nil_append]
        exact hsome ▸ hfresh
      | some old =>
        rw [hlook] at hsome
        exact hsome ▸ hf _ old (h.present other old hlook).2
    · rw [lookup_upsert_of_ne ho] at hsome
      rw [hother ho]
      exact h.present other v hsome

end

theorem NodupKeys.lookup_perm (h : NodupKeys a) (hperm : b.Perm a) (k : κ) : b.lookup k = a.lookup k := by
  refine Option.ext fun v => ?_
  rw [(h.perm hperm).lookup_eq_some_iff, h.lookup_eq_some_iff, hperm.mem_iff]

/-- The values of a key on two sides, joined. -/
def join_values (join : σ → σ → σ) : Option σ → Option σ → Option σ
  | some v, some w => some (join v w)
  | some v, none => some v
  | none, other => other

/-- The entries of one map put into another, key by key. -/
def merge_entries (join : σ → σ → σ) (entries others : List (κ × σ)) : List (κ × σ) :=
  others.foldl (fun merged entry => upsert entry.1 entry.2 (join · entry.2) merged) entries

theorem NodupKeys.merge_entries {join : σ → σ → σ} (h : NodupKeys a) (others : List (κ × σ)) :
    NodupKeys (lib.merge_entries join a others) := by
  induction others generalizing a with
  | nil => exact h
  | cons entry rest ih => exact ih (h.upsert _ _ _)

theorem lookup_merge_entries {join : σ → σ → σ} (hb : NodupKeys b) (k : κ) :
    (merge_entries join a b).lookup k = join_values join (a.lookup k) (b.lookup k) := by
  induction b generalizing a with
  | nil => cases h : a.lookup k <;> simp [merge_entries, join_values, h]
  | cons entry rest ih =>
    obtain ⟨other, w⟩ := entry
    obtain ⟨hfresh, hrest⟩ := List.nodup_cons.mp hb
    rw [merge_entries, List.foldl_cons, ← merge_entries, ih hrest]
    by_cases hk : k = other
    · subst hk
      have hnone : rest.lookup k = none := by
        cases hlook : rest.lookup k with
        | none => rfl
        | some v => exact absurd (List.mem_map_of_mem (mem_of_lookup hlook)) hfresh
      rw [lookup_upsert_self, hnone, List.lookup_cons_self]
      cases a.lookup k <;> rfl
    · rw [lookup_upsert_of_ne hk, lookup_cons_of_ne hk]

/-- Merged maps keep what they say, whatever the order in which the entries of one are walked. -/
theorem Grouped.merge (ha : Grouped key holds xs a) (hb : Grouped key holds ys b) {walked : List (κ × σ)}
    (hwalk : walked.Perm b) {join : σ → σ → σ}
    (hjoin : ∀ xs ys v w, holds xs v → holds ys w → holds (xs ++ ys) (join v w)) :
    Grouped key holds (xs ++ ys) (merge_entries join a walked) := by
  have hlook : ∀ k, (merge_entries join a walked).lookup k = join_values join (a.lookup k) (b.lookup k) := by
    intro k
    rw [lookup_merge_entries (hb.nodup.perm hwalk), hb.nodup.lookup_perm hwalk]
  refine ⟨ha.nodup.merge_entries walked, fun k hnone => ?_, fun k v hsome => ?_⟩
  · rw [hlook] at hnone
    cases hl : a.lookup k with
    | some v => cases hr : b.lookup k <;> simp [hl, hr, join_values] at hnone
    | none =>
      rw [hl, join_values] at hnone
      rw [with_key_append, ha.absent k hl, hb.absent k hnone, List.nil_append]
  · rw [hlook] at hsome
    rw [with_key_append]
    cases hl : a.lookup k with
    | none =>
      rw [hl, join_values] at hsome
      rw [ha.absent k hl, List.nil_append]
      exact hb.present k v hsome
    | some left =>
      obtain ⟨hne, hleft⟩ := ha.present k left hl
      refine ⟨by simp [hne], ?_⟩
      cases hr : b.lookup k with
      | none =>
        rw [hl, hr, join_values, Option.some.injEq] at hsome
        rw [hb.absent k hr, List.append_nil]
        exact hsome ▸ hleft
      | some right =>
        rw [hl, hr, join_values, Option.some.injEq] at hsome
        exact hsome ▸ hjoin _ _ _ _ hleft (hb.present k right hr).2

/-- Where the items of a key fix its value, maps over the same items are one map, up to the order of the entries. -/
theorem Grouped.perm_of_unique (ha : Grouped key holds xs a) (hb : Grouped key holds ys b) (hperm : xs.Perm ys)
    (hunique : ∀ {items items' v w}, items.Perm items' → holds items v → holds items' w → v = w) : a.Perm b := by
  refine ha.nodup.perm_of_lookup hb.nodup fun k => ?_
  have hgroup : (with_key key xs k).Perm (with_key key ys k) := hperm.filter _
  cases hl : a.lookup k with
  | none =>
    rw [ha.absent k hl] at hgroup
    cases hr : b.lookup k with
    | none => rfl
    | some w => exact absurd hgroup.symm.eq_nil (hb.present k w hr).1
  | some v =>
    obtain ⟨hne, hv⟩ := ha.present k v hl
    obtain ⟨w, hw⟩ := hb.lookup_isSome fun hempty => hne (hempty ▸ hgroup).eq_nil
    rw [hw, hunique hgroup hv (hb.present k w hw).2]

/-- The first key stays the first. -/
theorem head_upsert (k : κ) (fresh : σ) (f : σ → σ) (entry : κ × σ) (rest : List (κ × σ)) :
    ∃ v others, upsert k fresh f (entry :: rest) = (entry.1, v) :: others := by
  obtain ⟨first, v⟩ := entry
  simp only [upsert]
  split
  · exact ⟨f v, rest, rfl⟩
  · exact ⟨v, _, rfl⟩

/-- An item put to the value of its key. -/
def feed_entries (key : α → Option κ) (f : σ → α → σ) (init : σ) (entries : List (κ × σ)) (x : α) : List (κ × σ) :=
  match key x with
  | none => entries
  | some k => upsert k (f init x) (f · x) entries

/-- Fed one after the other, each key folds its own items. -/
theorem grouped_foldl (key : α → Option κ) (f : σ → α → σ) (init : σ) (items : List α) :
    Grouped key (fun items v => v = items.foldl f init) items (items.foldl (feed_entries key f init) []) := by
  induction items using List.reverseRecOn with
  | nil => exact Grouped.nil
  | append_singleton items x ih =>
    rw [List.foldl_append, List.foldl_cons, List.foldl_nil, feed_entries]
    cases hkey : key x with
    | none => exact ih.skip hkey
    | some k =>
      refine ih.feed hkey rfl fun items v hv => ?_
      rw [hv, List.foldl_append]
      rfl

/-- The key of the first item stays in front. -/
theorem head_foldl (key : α → Option κ) (f : σ → α → σ) (init : σ) (k : κ) (v : σ) (others : List (κ × σ)) (items : List α) :
    ∃ v' others', items.foldl (feed_entries key f init) ((k, v) :: others) = (k, v') :: others' := by
  induction items generalizing v others with
  | nil => exact ⟨v, others, rfl⟩
  | cons x rest ih =>
    rw [List.foldl_cons, feed_entries]
    split
    · exact ih v others
    · next other hkey =>
      obtain ⟨v', others', hhead⟩ := head_upsert other (f init x) (f · x) (k, v) others
      rw [hhead]
      exact ih v' others'

/-- The items of one key in front, then the others. -/
theorem foldl_front {key : α → Option κ} {f : σ → α → σ} {init : σ} {k : κ} {front rest : List α} (hne : front ≠ [])
    (hfront : ∀ x ∈ front, key x = some k) (hrest : ∀ x ∈ rest, key x ≠ some k) :
    ∃ others, (front ++ rest).foldl (feed_entries key f init) [] = (k, front.foldl f init) :: others := by
  obtain ⟨x, later, rfl⟩ := List.exists_cons_of_ne_nil hne
  obtain ⟨v, others, hhead⟩ := head_foldl key f init k (f init x) [] (later ++ rest)
  have hfold : (x :: later ++ rest).foldl (feed_entries key f init) [] = (k, v) :: others := by
    rw [List.cons_append, List.foldl_cons, feed_entries, hfront x List.mem_cons_self]
    exact hhead
  have hvalue := ((hfold ▸ grouped_foldl key f init (x :: later ++ rest)).of_mem List.mem_cons_self).2
  have hitems : with_key key (x :: later ++ rest) k = x :: later := by
    rw [with_key_append, with_key, with_key, List.filter_eq_self.mpr fun y hy => decide_eq_true (hfront y hy),
      List.filter_eq_nil_iff.mpr fun y hy => by simpa using hrest y hy, List.append_nil]
  rw [hitems] at hvalue
  exact ⟨others, hvalue ▸ hfold⟩

end grouping

end uffs.lib
