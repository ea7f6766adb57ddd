import Mathlib.Algebra.Order.Ring.Nat
import Mathlib.Data.List.TakeWhile

/-! Strictly ascending lists as finite sets: ordered insertion, union, intersection. -/

namespace uffs.lib.postings

variable {α : Type} [LinearOrder α]

/-- A posting list is strictly ascending, hence free of duplicates. -/
abbrev Ascending (list : List α) : Prop := list.Pairwise (· < ·)

theorem Ascending.eq_of_mem_iff {xs ys : List α} (hxs : Ascending xs) (hys : Ascending ys)
    (hmem : ∀ a, a ∈ xs ↔ a ∈ ys) : xs = ys := by
  induction xs generalizing ys with
  | nil => exact (List.eq_nil_iff_forall_not_mem.mpr fun a ha => by simpa using (hmem a).mpr ha).symm
  | cons x xs ih =>
    cases ys with
    | nil => simpa using (hmem x).mp (by simp)
    | cons y ys =>
      obtain ⟨hx, hxs'⟩ := List.pairwise_cons.mp hxs
      obtain ⟨hy, hys'⟩ := List.pairwise_cons.mp hys
      have hxy : x = y := by
        rcases List.mem_cons.mp ((hmem x).mp (by simp)) with h | h
        · exact h
        · rcases List.mem_cons.mp ((hmem y).mpr (by simp)) with h' | h'
          · exact h'.symm
          · exact absurd (hy x h) (not_lt_of_gt (hx y h'))
      subst hxy
      refine congrArg (x :: ·) (ih hxs' hys' fun a => ?_)
      constructor
      · intro ha
        rcases List.mem_cons.mp ((hmem a).mp (by simp [ha])) with h | h
        · exact absurd (hx a ha) (by simp [h])
        · exact h
      · intro ha
        rcases List.mem_cons.mp ((hmem a).mpr (by simp [ha])) with h | h
        · exact absurd (hy a ha) (by simp [h])
        · exact h

/-- Insertion at the position a binary search reports; a present value is left alone. -/
def insert (list : List α) (value : α) : List α :=
  if value ∈ list then list
  else list.takeWhile (· < value) ++ value :: list.dropWhile (· < value)

@[simp] theorem mem_insert {list : List α} {value a : α} :
    a ∈ insert list value ↔ a = value ∨ a ∈ list := by
  unfold insert
  split
  next h => grind
  next h =>
    have hsplit := List.takeWhile_append_dropWhile (p := (· < value)) (l := list)
    rw [List.mem_append, List.mem_cons]
    conv_rhs => rw [← hsplit, List.mem_append]
    tauto

theorem lt_of_mem_dropWhile {list : List α} {value a : α} (hlist : Ascending list)
    (hvalue : value ∉ list) (ha : a ∈ list.dropWhile (· < value)) : value < a := by
  induction list with
  | nil => simp at ha
  | cons x xs ih =>
    obtain ⟨hx, hxs⟩ := List.pairwise_cons.mp hlist
    rw [List.mem_cons, not_or] at hvalue
    by_cases hlt : x < value
    · exact ih hxs hvalue.2 (by simpa [List.dropWhile_cons, hlt] using ha)
    · have hxv : value < x := lt_of_le_of_ne (not_lt.mp hlt) hvalue.1
      rw [List.dropWhile_cons_of_neg (by simpa using hlt)] at ha
      rcases List.mem_cons.mp ha with rfl | ha
      · exact hxv
      · exact hxv.trans (hx a ha)

/-- A value that is missing goes between what is below it and what is above. -/
theorem insert_split {list : List α} (hlist : Ascending list) {value : α} (h : value ∉ list) :
    ∃ front back, list = front ++ back ∧ insert list value = front ++ value :: back ∧ (∀ a ∈ front, a < value) ∧
      ∀ a ∈ back, value < a :=
  ⟨_, _, (List.takeWhile_append_dropWhile (p := (· < value))).symm, if_neg h, fun a ha => by simpa using List.mem_takeWhile_imp ha,
    fun a ha => lt_of_mem_dropWhile hlist h ha⟩

theorem insert_ascending {list : List α} (hlist : Ascending list) (value : α) :
    Ascending (insert list value) := by
  by_cases h : value ∈ list
  · rwa [insert, if_pos h]
  · obtain ⟨front, back, rfl, hinsert, hbefore, hafter⟩ := insert_split hlist h
    obtain ⟨hfront, hback, hcross⟩ := List.pairwise_append.mp hlist
    rw [hinsert]
    refine List.pairwise_append.mpr ⟨hfront, List.pairwise_cons.mpr ⟨hafter, hback⟩, ?_⟩
    intro a ha b hb
    rcases List.mem_cons.mp hb with rfl | hb
    · exact hbefore a ha
    · exact hcross a ha b hb

/-- Two-cursor union: the smaller head is emitted, equal heads are emitted once. -/
def union : List α → List α → List α
  | [], right => right
  | a :: left, right => head a (union left) right
where
  head (a : α) (rest : List α → List α) : List α → List α
    | [] => a :: rest []
    | b :: right =>
      if a < b then a :: rest (b :: right)
      else if b < a then b :: head a rest right
      else a :: rest right

@[simp] theorem union_nil (left : List α) : union left [] = left := by
  induction left with
  | nil => rfl
  | cons a left ih => simp [union, union.head, ih]

@[simp] theorem nil_union (right : List α) : union [] right = right := rfl

theorem union_cons_cons (a b : α) (left right : List α) :
    union (a :: left) (b :: right) =
      if a < b then a :: union left (b :: right)
      else if b < a then b :: union (a :: left) right
      else a :: union left right := rfl

@[simp] theorem mem_union {left right : List α} {x : α} : x ∈ union left right ↔ x ∈ left ∨ x ∈ right := by
  induction left generalizing right with
  | nil => simp
  | cons a left ihLeft =>
    induction right with
    | nil => simp
    | cons b right ihRight =>
      rw [union_cons_cons]
      split
      next h => simp only [List.mem_cons, ihLeft]; tauto
      next h =>
        split
        next h' => simp only [List.mem_cons, ihRight]; tauto
        next h' =>
          have hab : a = b := le_antisymm (not_lt.mp h') (not_lt.mp h)
          simp only [List.mem_cons, ihLeft, hab]
          tauto

theorem union_ascending {left right : List α} (hleft : Ascending left) (hright : Ascending right) :
    Ascending (union left right) := by
  induction left generalizing right with
  | nil => simpa using hright
  | cons a left ihLeft =>
    induction right with
    | nil => simpa using hleft
    | cons b right ihRight =>
      obtain ⟨ha, hleft'⟩ := List.pairwise_cons.mp hleft
      obtain ⟨hb, hright'⟩ := List.pairwise_cons.mp hright
      rw [union_cons_cons]
      split
      next hab =>
        refine List.pairwise_cons.mpr ⟨fun x hx => ?_, ihLeft hleft' hright⟩
        rcases mem_union.mp hx with hx | hx
        · exact ha x hx
        · rcases List.mem_cons.mp hx with rfl | hx
          · exact hab
          · exact hab.trans (hb x hx)
      next hab =>
        split
        next hba =>
          refine List.pairwise_cons.mpr ⟨fun x hx => ?_, ihRight hright'⟩
          rcases mem_union.mp hx with hx | hx
          · rcases List.mem_cons.mp hx with rfl | hx
            · exact hba
            · exact hba.trans (ha x hx)
          · exact hb x hx
        next hba =>
          have heq : a = b := le_antisymm (not_lt.mp hba) (not_lt.mp hab)
          subst heq
          refine List.pairwise_cons.mpr ⟨fun x hx => ?_, ihLeft hleft' hright'⟩
          rcases mem_union.mp hx with hx | hx
          · exact ha x hx
          · exact hb x hx

/-- Two-cursor intersection: the cursor of the second list only moves forward. -/
def inter : List α → List α → List α
  | [], _ => []
  | a :: left, right =>
    match right.dropWhile (· < a) with
    | [] => inter left []
    | b :: right => if b = a then a :: inter left right else inter left (b :: right)

theorem mem_dropWhile_of_le {right : List α} {a x : α} (hright : Ascending right) (hle : a ≤ x) :
    x ∈ right.dropWhile (· < a) ↔ x ∈ right := by
  induction right with
  | nil => simp
  | cons b right ih =>
    obtain ⟨hb, hright'⟩ := List.pairwise_cons.mp hright
    by_cases hlt : b < a
    · rw [List.dropWhile_cons_of_pos (by simpa using hlt), ih hright', List.mem_cons]
      constructor
      · exact Or.inr
      · rintro (rfl | h)
        · exact absurd hlt (not_lt.mpr hle)
        · exact h
    · rw [List.dropWhile_cons_of_neg (by simpa using hlt)]

theorem mem_inter {left right : List α} {x : α} (hleft : Ascending left) (hright : Ascending right) :
    x ∈ inter left right ↔ x ∈ left ∧ x ∈ right := by
  induction left generalizing right with
  | nil => simp [inter]
  | cons a left ih =>
    obtain ⟨ha, hleft'⟩ := List.pairwise_cons.mp hleft
    have hmem : ∀ y, a ≤ y → (y ∈ right.dropWhile (· < a) ↔ y ∈ right) := fun y hy =>
      mem_dropWhile_of_le hright hy
    have hrest : Ascending (right.dropWhile (· < a)) := hright.sublist (List.dropWhile_sublist _)
    have hheadGe : ∀ b rest, right.dropWhile (· < a) = b :: rest → a ≤ b := fun b rest hdrop => by
      have hb := List.head_dropWhile_not (fun y => decide (y < a)) (l := right) (by simp [hdrop])
      simpa [hdrop] using hb
    rw [inter]
    split
    next hdrop =>
      have hnone : ∀ y, a ≤ y → y ∉ right := fun y hy hyr => by
        simpa [hdrop] using (hmem y hy).mpr hyr
      rw [ih hleft' List.Pairwise.nil]
      constructor
      · rintro ⟨-, h⟩
        simp at h
      · rintro ⟨hx, hxr⟩
        rcases List.mem_cons.mp hx with rfl | hx
        · exact absurd hxr (hnone _ le_rfl)
        · exact absurd hxr (hnone x (ha x hx).le)
    next b rest hdrop =>
      rw [hdrop] at hrest hmem
      obtain ⟨hb, hrest'⟩ := List.pairwise_cons.mp hrest
      split
      next hba =>
        subst hba
        rw [List.mem_cons, List.mem_cons, ih hleft' hrest']
        constructor
        · rintro (rfl | ⟨hx, hxr⟩)
          · exact ⟨Or.inl rfl, (hmem x le_rfl).mp (by simp)⟩
          · exact ⟨Or.inr hx, (hmem x (ha x hx).le).mp (by simp [hxr])⟩
        · rintro ⟨rfl | hx, hxr⟩
          · exact Or.inl rfl
          · refine Or.inr ⟨hx, ?_⟩
            rcases List.mem_cons.mp ((hmem x (ha x hx).le).mpr hxr) with rfl | h
            · exact absurd (ha x hx) (lt_irrefl x)
            · exact h
      next hba =>
        rw [ih hleft' hrest]
        constructor
        · rintro ⟨hx, hxr⟩
          exact ⟨List.mem_cons_of_mem a hx, (hmem x (ha x hx).le).mp hxr⟩
        · rintro ⟨hx, hxr⟩
          rcases List.mem_cons.mp hx with rfl | hx
          · rcases List.mem_cons.mp ((hmem x le_rfl).mpr hxr) with rfl | h
            · exact absurd rfl hba
            · exact absurd (hb x h) (not_lt.mpr (hheadGe b rest hdrop))
          · exact ⟨hx, (hmem x (ha x hx).le).mpr hxr⟩

theorem inter_sublist (left right : List α) : (inter left right).Sublist left := by
  induction left generalizing right with
  | nil => simp [inter]
  | cons a left ih =>
    rw [inter]
    split
    next hdrop => exact (ih []).cons a
    next b rest hdrop =>
      split
      next hba => exact (ih rest).cons_cons a
      next hba => exact (ih (b :: rest)).cons a

theorem inter_ascending {left : List α} (hleft : Ascending left) (right : List α) :
    Ascending (inter left right) :=
  hleft.sublist (inter_sublist left right)

end uffs.lib.postings
