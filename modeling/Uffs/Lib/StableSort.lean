import Mathlib.Data.List.Nodup

namespace uffs.lib

/-! Which elements a stable sort puts in front of one. -/

variable {α : Type} {le : α → α → Bool}

theorem zipIdx_nodup (list : List α) : list.zipIdx.Nodup := by
  apply List.Nodup.of_map Prod.snd
  rw [List.zipIdx_map_snd]
  exact List.nodup_range'

/-- What holds of an element of the sorted list when something else holds of all in front of it, is told from
the list as it was: in front come the elements that stood before it and are not greater, and those that
stood behind it and are smaller. -/
theorem forall_mergeSort_split (trans : ∀ a b c, le a b → le b c → le a c) (total : ∀ a b, le a b || le b a) {P Q : α → Prop}
    {list : List α} :
    (∀ before x after, list.mergeSort le = before ++ x :: after → (∀ e ∈ before, P e) → Q x) ↔
      ∀ before x after, list = before ++ x :: after → (∀ e ∈ before, le e x → P e) → (∀ e ∈ after, ¬ le x e → P e) → Q x := by
  have hmap : (list.zipIdx.mergeSort (List.zipIdxLE le)).map (·.1) = list.mergeSort le := List.mergeSort_zipIdx
  have hmem : ∀ {e j}, (e, j) ∈ list.zipIdx.mergeSort (List.zipIdxLE le) ↔ list[j]? = some e := by
    intro e j
    rw [List.mem_mergeSort, List.mem_zipIdx_iff_getElem?]
  have hsorted := List.pairwise_mergeSort (List.zipIdxLE_trans trans) (List.zipIdxLE_total total) list.zipIdx
  have hnodup : (list.zipIdx.mergeSort (List.zipIdxLE le)).Nodup :=
    (List.mergeSort_perm _ _).nodup_iff.mpr (zipIdx_nodup list)
  generalize list.zipIdx.mergeSort (List.zipIdxLE le) = sorted at hmap hmem hsorted hnodup
  constructor
  · intro h before x after hlist hbefore hafter
    have hx : (x, before.length) ∈ sorted := hmem.mpr (by simp [hlist])
    obtain ⟨front, back, rfl⟩ := List.append_of_mem hx
    apply h (front.map (·.1)) x (back.map (·.1))
    · rw [← hmap, List.map_append, List.map_cons]
    · intro e he
      obtain ⟨⟨e, j⟩, hej, rfl⟩ := List.mem_map.mp he
      have hle : List.zipIdxLE le (e, j) (x, before.length) := (List.pairwise_append.mp hsorted).2.2 _ hej _ List.mem_cons_self
      have hne : j ≠ before.length := by
        rintro rfl
        have hget : list[before.length]? = some e := hmem.mp (List.mem_append_left _ hej)
        obtain rfl : x = e := by simpa [hlist] using hget
        exact (List.nodup_append.mp hnodup).2.2 _ hej _ List.mem_cons_self rfl
      have hget : list[j]? = some e := hmem.mp (List.mem_append_left _ hej)
      rw [hlist] at hget
      simp only [List.zipIdxLE] at hle
      rcases Nat.lt_or_gt_of_ne hne with hlt | hgt
      · rw [List.getElem?_append_left hlt] at hget
        exact hbefore e (List.mem_of_getElem? hget) (by grind)
      · rw [List.getElem?_append_right (Nat.le_of_lt hgt), List.getElem?_cons, if_neg (by omega)] at hget
        exact hafter e (List.mem_of_getElem? hget) (by grind)
  · intro h before x after hsplit hfront
    rw [← hmap] at hsplit
    obtain ⟨front, rest, rfl, rfl, hrest⟩ := List.map_eq_append_iff.mp hsplit
    obtain ⟨⟨x, i⟩, back, rfl, rfl, rfl⟩ := List.map_eq_cons_iff.mp hrest
    have hget : list[i]? = some x := hmem.mp (List.mem_append_right _ List.mem_cons_self)
    have hlater : ∀ {e j}, (e, j) ∈ back → List.zipIdxLE le (x, i) (e, j) := fun hej =>
      (List.pairwise_cons.mp (List.pairwise_append.mp hsorted).2.1).1 _ hej
    have hplace : ∀ {e j}, list[j]? = some e → j ≠ i → ¬ List.zipIdxLE le (x, i) (e, j) → P e := by
      intro e j hej hne hnot
      rcases List.mem_append.mp (hmem.mpr hej) with hmem | hmem
      · exact hfront e (List.mem_map_of_mem hmem)
      · rcases List.mem_cons.mp hmem with heq | hmem
        · exact absurd (congrArg Prod.snd heq) hne
        · exact absurd (hlater hmem) hnot
    obtain ⟨hi, hx⟩ := List.getElem?_eq_some_iff.mp hget
    refine h (list.take i) x (list.drop (i + 1)) (by rw [← hx]; simp) (fun e he hle => ?_) fun e he hnot => ?_
    · obtain ⟨j, hj, rfl⟩ := List.mem_take_iff_getElem.mp he
      refine hplace (List.getElem?_eq_getElem (by omega)) (by omega) ?_
      simp only [List.zipIdxLE]
      grind
    · obtain ⟨j, hj, rfl⟩ := List.mem_drop_iff_getElem.mp he
      refine hplace (List.getElem?_eq_getElem (by omega)) (by omega) ?_
      simp only [List.zipIdxLE]
      grind

end uffs.lib
