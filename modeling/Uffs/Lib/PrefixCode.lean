import Uffs.Lib.Headed

/-! Codes whose words are told apart from their first symbols on, and the texts they spell. -/

namespace uffs.lib.prefix_code

variable {α β : Type}

/-- Two words that start the same text are the words of one symbol. -/
def Separates (code : α → List β) (p : α → Prop) : Prop :=
  ∀ a b, p a → p b → ∀ front back, code a ++ front = code b ++ back → a = b

/-- A text is spelled in one way only. -/
theorem Separates.flatMap_injective {code : α → List β} {p : α → Prop} (h : Separates code p)
    (hne : ∀ a, p a → code a ≠ []) {xs ys : List α} (hxs : ∀ a ∈ xs, p a) (hys : ∀ b ∈ ys, p b)
    (heq : xs.flatMap code = ys.flatMap code) : xs = ys := by
  induction xs generalizing ys with
  | nil =>
    cases ys with
    | nil => rfl
    | cons b ys =>
      rw [List.flatMap_nil, List.flatMap_cons] at heq
      exact absurd (List.append_eq_nil_iff.mp heq.symm).1 (hne b (hys b List.mem_cons_self))
  | cons a xs ih =>
    cases ys with
    | nil =>
      rw [List.flatMap_nil, List.flatMap_cons] at heq
      exact absurd (List.append_eq_nil_iff.mp heq).1 (hne a (hxs a List.mem_cons_self))
    | cons b ys =>
      rw [List.flatMap_cons, List.flatMap_cons] at heq
      have hab : a = b := h a b (hxs a List.mem_cons_self) (hys b List.mem_cons_self) _ _ heq
      subst hab
      rw [ih (fun c hc => hxs c (List.mem_cons_of_mem _ hc)) (fun c hc => hys c (List.mem_cons_of_mem _ hc))
        (List.append_cancel_left heq)]

/-- What two words start with tells the order of the symbols. -/
def Ordered [Ord α] [Ord β] (code : α → List β) : Prop :=
  ∀ a b, a ≠ b → ∀ front back, compare (code a ++ front) (code b ++ back) = compare a b

/-- Texts are in the order of what spells them. -/
theorem Ordered.compare_flatMap [Ord α] [Ord β] [Std.LawfulEqOrd α] [Std.LawfulEqOrd β] {code : α → List β} (h : Ordered code)
    (hne : ∀ a, code a ≠ []) (xs ys : List α) : compare (xs.flatMap code) (ys.flatMap code) = compare xs ys := by
  induction xs generalizing ys with
  | nil =>
    cases ys with
    | nil => rfl
    | cons b ys =>
      obtain ⟨first, rest, hfirst⟩ := List.exists_cons_of_ne_nil (hne b)
      rw [List.flatMap_nil, List.flatMap_cons, hfirst]
      rfl
  | cons a xs ih =>
    cases ys with
    | nil =>
      obtain ⟨first, rest, hfirst⟩ := List.exists_cons_of_ne_nil (hne a)
      rw [List.flatMap_nil, List.flatMap_cons, hfirst]
      rfl
    | cons b ys =>
      rw [List.flatMap_cons, List.flatMap_cons, List.compare_cons_cons]
      by_cases hab : a = b
      · rw [hab, compare_append_left, ih, Std.ReflOrd.compare_self, Ordering.eq_then]
      · have hord : compare a b ≠ .eq := fun heq => hab (Std.LawfulEqOrd.eq_of_compare heq)
        rw [h a b hab]
        cases hcmp : compare a b with
        | eq => exact absurd hcmp hord
        | lt => rfl
        | gt => rfl

end uffs.lib.prefix_code
