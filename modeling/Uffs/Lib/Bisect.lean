import Mathlib.Data.List.Pairwise
import Mathlib.Order.Basic

namespace uffs.lib

variable {α : Type}

/-- The loop of `slice::binary_search_by`: the window is `base .. base + size`, and each round
halves it. -/
def bisect (f : α → Ordering) (xs : List α) : Nat → Nat → Nat → Nat
  | 0, base, _ => base
  | fuel + 1, base, size =>
    if size ≤ 1 then base
    else
      let half := size / 2
      let mid := base + half
      match xs[mid]? with
      | none => base
      | some x => bisect f xs fuel (if f x = Ordering.gt then base else mid) (size - half)

/-- `slice::binary_search_by(f).ok()`: a position where the comparison says equal. -/
def binary_search_by (f : α → Ordering) (xs : List α) : Option Nat :=
  match xs[bisect f xs xs.length 0 xs.length]? with
  | none => none
  | some x => if f x = Ordering.eq then some (bisect f xs xs.length 0 xs.length) else none

/-- The element `binary_search_by` finds. -/
def binary_search_get (f : α → Ordering) (xs : List α) : Option α :=
  (binary_search_by f xs).bind fun idx => xs[idx]?

variable {f : α → Ordering}

/-- Whatever the order of the slice, what is found compares equal. -/
theorem binary_search_by_sound {xs : List α} {pos : Nat} (h : binary_search_by f xs = some pos) :
    ∃ x, xs[pos]? = some x ∧ f x = Ordering.eq := by
  rw [binary_search_by] at h
  split at h
  next => cases h
  next x hget =>
    split at h
    next heq => exact ⟨x, Option.some.inj h ▸ hget, heq⟩
    next => cases h

theorem binary_search_get_sound {xs : List α} {x : α} (h : binary_search_get f xs = some x) :
    x ∈ xs ∧ f x = Ordering.eq := by
  obtain ⟨pos, hfound, hget⟩ := Option.bind_eq_some_iff.mp h
  obtain ⟨y, hget', heq⟩ := binary_search_by_sound hfound
  obtain rfl := Option.some.inj (hget.symm.trans hget')
  exact ⟨List.mem_of_getElem? hget, heq⟩

/-- The comparison never falls from greater, nor to less: all the less come first, then the equal,
then the greater. -/
def Partitioned (f : α → Ordering) (xs : List α) : Prop :=
  xs.Pairwise fun x y => (f x = Ordering.gt → f y = Ordering.gt) ∧ (f y = Ordering.lt → f x = Ordering.lt)

/-- The window keeps the last position whose element does not compare greater. -/
theorem bisect_eq_last {xs : List α} {last : Nat}
    (hbelow : ∀ j x, 0 < j → j ≤ last → xs[j]? = some x → f x ≠ Ordering.gt)
    (habove : ∀ j x, last < j → xs[j]? = some x → f x = Ordering.gt) :
    ∀ (fuel base size : Nat), size ≤ fuel → base ≤ last → last < base + size → base + size ≤ xs.length →
      bisect f xs fuel base size = last := by
  intro fuel
  induction fuel with
  | zero =>
    intro base size hsize hbase hend _
    omega
  | succ fuel ih =>
    intro base size hsize hbase hend hlen
    rw [bisect]
    by_cases hone : size ≤ 1
    · rw [if_pos hone]
      omega
    · rw [if_neg hone]
      have hmid : base + size / 2 < xs.length := by omega
      simp only [List.getElem?_eq_getElem hmid]
      by_cases hgt : f xs[base + size / 2] = Ordering.gt
      · rw [if_pos hgt]
        have hbefore : last < base + size / 2 := by
          by_contra hnot
          exact hbelow _ _ (by omega) (by omega) (List.getElem?_eq_getElem hmid) hgt
        exact ih base _ (by omega) hbase (by omega) (by omega)
      · rw [if_neg hgt]
        have hafter : base + size / 2 ≤ last := by
          by_contra hnot
          exact hgt (habove _ _ (by omega) (List.getElem?_eq_getElem hmid))
        exact ih (base + size / 2) _ (by omega) hafter (by omega) (by omega)

/-- In a partitioned slice with a single equal element, the search finds it. -/
theorem binary_search_get_complete {xs : List α} (hparts : Partitioned f xs) {pos : Nat} {x : α}
    (hget : xs[pos]? = some x) (heq : f x = Ordering.eq)
    (hone : ∀ j y, xs[j]? = some y → f y = Ordering.eq → j = pos) : binary_search_get f xs = some x := by
  obtain ⟨hpos, hx⟩ := List.getElem?_eq_some_iff.mp hget
  have hpair := List.pairwise_iff_getElem.mp hparts
  have hbelow : ∀ j y, j ≤ pos → xs[j]? = some y → f y ≠ Ordering.gt := by
    intro j y hle hy hgt
    obtain ⟨hj, hyj⟩ := List.getElem?_eq_some_iff.mp hy
    rcases Nat.lt_or_eq_of_le hle with hlt | rfl
    · have h := (hpair j pos hj hpos hlt).1 (by rw [hyj, hgt])
      rw [hx, heq] at h
      cases h
    · cases hy.symm.trans hget
      rw [heq] at hgt
      cases hgt
  have habove : ∀ j y, pos < j → xs[j]? = some y → f y = Ordering.gt := by
    intro j y hlt hy
    obtain ⟨hj, hyj⟩ := List.getElem?_eq_some_iff.mp hy
    have h := (hpair pos j hpos hj hlt).2
    rw [hyj, hx] at h
    match hord : f y with
    | .lt =>
      rw [heq] at h
      cases h hord
    | .eq => exact absurd (hone j y hy hord) (by omega)
    | .gt => rfl
  have hfound : bisect f xs xs.length 0 xs.length = pos :=
    bisect_eq_last (fun j y _ => hbelow j y) habove _ _ _ (Nat.le_refl _) (Nat.zero_le _) (by omega) (by omega)
  rw [binary_search_get, binary_search_by, hfound]
  simp only [hget, heq, if_true, Option.bind_some]

end uffs.lib
