import Mathlib.Data.List.Nodup

namespace uffs.lib

/-! Positions in a list and in a selection of it. -/

variable {α : Type} {p : α → Bool} {list : List α} {x : α}

/-- A selection moves nothing to the back. -/
theorem exists_getElem?_of_filter {n : Nat} (h : (list.filter p)[n]? = some x) : ∃ m, n ≤ m ∧ list[m]? = some x := by
  induction list generalizing n with
  | nil => cases h
  | cons head rest ih =>
    by_cases hp : p head = true
    · rw [List.filter_cons_of_pos hp] at h
      cases n with
      | zero => exact ⟨0, Nat.le_refl _, h⟩
      | succ n =>
        obtain ⟨m, hle, hm⟩ := ih h
        exact ⟨m + 1, Nat.succ_le_succ hle, hm⟩
    · rw [List.filter_cons_of_neg hp] at h
      obtain ⟨m, hle, hm⟩ := ih h
      exact ⟨m + 1, Nat.le_succ_of_le hle, hm⟩

theorem getElem?_inj_of_nodup {n m : Nat} (hnodup : list.Nodup) (hn : list[n]? = some x) (hm : list[m]? = some x) :
    n = m := by
  obtain ⟨hn', hx⟩ := List.getElem?_eq_some_iff.mp hn
  obtain ⟨hm', hx'⟩ := List.getElem?_eq_some_iff.mp hm
  exact (List.Nodup.getElem_inj_iff hnodup).mp (hx.trans hx'.symm)

/-- An entry keeps its position in a selection exactly when all before it are selected. -/
theorem getElem?_filter_iff {n : Nat} (hnodup : list.Nodup) (h : (list.filter p)[n]? = some x) :
    list[n]? = some x ↔ ∀ before rest, list = before ++ x :: rest → ∀ y ∈ before, p y = true := by
  constructor
  · intro hx before rest hlist y hy
    subst hlist
    have hpos : n = before.length := by
      refine getElem?_inj_of_nodup hnodup hx ?_
      rw [List.getElem?_append_right (Nat.le_refl _), Nat.sub_self, List.getElem?_cons_zero]
    rw [List.filter_append] at h
    have hall : (before.filter p).length = before.length := by
      refine Nat.le_antisymm (List.length_filter_le p before) (Nat.le_of_not_lt fun hshort => ?_)
      rw [hpos, List.getElem?_append_right (Nat.le_of_lt hshort)] at h
      obtain ⟨m, hle, hm⟩ := exists_getElem?_of_filter h
      have hagain : (before ++ x :: rest)[before.length + m]? = some x := by
        rw [List.getElem?_append_right (Nat.le_add_right _ _), Nat.add_sub_cancel_left]
        exact hm
      have heq := getElem?_inj_of_nodup hnodup hx hagain
      omega
    exact List.length_filter_eq_length_iff.mp hall y hy
  · intro hbefore
    obtain ⟨m, -, hm⟩ := exists_getElem?_of_filter h
    obtain ⟨hlt, rfl⟩ := List.getElem?_eq_some_iff.mp hm
    have hlist : list = list.take m ++ list[m] :: list.drop (m + 1) := by
      rw [List.getElem_cons_drop, List.take_append_drop]
    have hkept : (list.filter p)[m]? = some list[m] := by
      have hselected := List.mem_of_getElem? h
      have hp := (List.mem_filter.mp hselected).2
      have hfirst : (list.take m).filter p = list.take m := List.filter_eq_self.mpr (hbefore _ _ hlist)
      conv_lhs => rw [hlist, List.filter_append, hfirst, List.filter_cons_of_pos hp]
      have hlen : (list.take m).length = m := List.length_take_of_le (Nat.le_of_lt hlt)
      rw [List.getElem?_append_right (Nat.le_of_eq hlen), hlen, Nat.sub_self, List.getElem?_cons_zero]
    rw [getElem?_inj_of_nodup (hnodup.filter p) h hkept]
    exact hm

end uffs.lib
