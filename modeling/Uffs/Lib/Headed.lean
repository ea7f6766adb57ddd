import Uffs.Lib.TopN

namespace uffs.lib

/-! The order of texts that start with different names, one or both of which go on behind a
separator. -/

variable {α : Type}

section lists

variable [Ord α] [Std.LawfulEqOrd α]

/-- Two texts compare by what follows their common head. -/
theorem compare_append_left (head s t : List α) : compare (head ++ s) (head ++ t) = compare s t := by
  induction head with
  | nil => rfl
  | cons a head ih => rw [List.cons_append, List.cons_append, List.compare_cons_cons, Std.ReflOrd.compare_self, ih, Ordering.eq_then]

/-- How a text goes on does not count where the other one does not start with it. -/
theorem compare_append_right {s t : List α} (h : ¬ t <+: s) (rest : List α) : compare s (t ++ rest) = compare s t := by
  induction s generalizing t with
  | nil =>
    cases t with
    | nil => exact absurd (List.prefix_refl []) h
    | cons b t => rfl
  | cons a s ih =>
    cases t with
    | nil => exact absurd List.nil_prefix h
    | cons b t =>
      rw [List.cons_append, List.compare_cons_cons, List.compare_cons_cons]
      cases hab : compare a b with
      | lt => rfl
      | gt => rfl
      | eq =>
        obtain rfl := Std.LawfulEqOrd.eq_of_compare hab
        exact ih fun hpre => h (List.cons_prefix_cons.mpr ⟨rfl, hpre⟩)

theorem compare_append_right' [Std.OrientedOrd α] {s t : List α} (h : ¬ s <+: t) (rest : List α) : compare (s ++ rest) t = compare s t := by
  rw [cmp_flip compare t (s ++ rest), compare_append_right h, ← cmp_flip compare t s]

/-- A text comes before what it is continued to. -/
theorem compare_continued (s : List α) {rest : List α} (hne : rest ≠ []) : compare s (s ++ rest) = .lt := by
  have happend := compare_append_left s [] rest
  rw [List.append_nil] at happend
  rw [happend]
  cases rest with
  | nil => exact absurd rfl hne
  | cons a rest => rfl

end lists

/-- A name, alone or with the separator and what is behind it. -/
def headed (sep : α) (name : List α) : Option (List α) → List α
  | none => name
  | some rest => name ++ sep :: rest

/-- The name with the separator, if there is something behind it. -/
def name_of_headed (sep : α) (name : List α) (rest : Option (List α)) : List α := headed sep name (rest.map fun _ => [])

theorem not_headed_start {sep : α} {name other : List α} (hother : sep ∉ other) :
    ¬ name ++ [sep] <+: other := by
  intro hpre
  exact hother (hpre.subset (List.mem_append_right _ List.mem_cons_self))

theorem eq_of_shared_start {sep : α} {name other rest : List α} (hname : sep ∉ name) (hother : sep ∉ other)
    (hpre : name ++ [sep] <+: other ++ sep :: rest) : name = other := by
  induction name generalizing other with
  | nil =>
    cases other with
    | nil => rfl
    | cons b other => exact absurd ((List.cons_prefix_cons.mp hpre).1 ▸ List.mem_cons_self) hother
  | cons a name ih =>
    cases other with
    | nil => exact absurd ((List.cons_prefix_cons.mp hpre).1 ▸ List.mem_cons_self) hname
    | cons b other =>
      obtain ⟨rfl, hrest⟩ := List.cons_prefix_cons.mp hpre
      rw [ih (fun h => hname (List.mem_cons_of_mem _ h)) (fun h => hother (List.mem_cons_of_mem _ h)) hrest]

/-- Texts that start with different names compare by the names, each with its separator if it goes
on. -/
theorem compare_headed [Ord α] [Std.OrientedOrd α] [Std.LawfulEqOrd α] {sep : α} {name other : List α} (hname : sep ∉ name)
    (hother : sep ∉ other) (hne : name ≠ other) (rest rest' : Option (List α)) :
    compare (headed sep name rest) (headed sep other rest') =
      compare (name_of_headed sep name rest) (name_of_headed sep other rest') := by
  have hsplit : ∀ (n r : List α), n ++ sep :: r = n ++ [sep] ++ r := by simp
  cases rest with
  | none =>
    cases rest' with
    | none => rfl
    | some r' =>
      change compare name (other ++ sep :: r') = compare name (other ++ [sep])
      rw [hsplit, compare_append_right (not_headed_start hname)]
  | some r =>
    cases rest' with
    | none =>
      change compare (name ++ sep :: r) other = compare (name ++ [sep]) other
      rw [hsplit, compare_append_right' (not_headed_start hother)]
    | some r' =>
      change compare (name ++ sep :: r) (other ++ sep :: r') = compare (name ++ [sep]) (other ++ [sep])
      have hleft : ¬ other ++ [sep] <+: name ++ sep :: r := fun hpre => hne (eq_of_shared_start hother hname hpre).symm
      have hright : ¬ name ++ [sep] <+: other ++ [sep] := fun hpre => hne (eq_of_shared_start hname hother hpre)
      rw [hsplit other r', compare_append_right hleft, hsplit name r, compare_append_right' hright]

/-- They never tie. -/
theorem headed_ne {sep : α} {name other : List α} (hname : sep ∉ name) (hother : sep ∉ other) (hne : name ≠ other)
    (rest rest' : Option (List α)) : headed sep name rest ≠ headed sep other rest' := by
  intro heq
  cases rest with
  | none =>
    cases rest' with
    | none => exact hne heq
    | some r' =>
      change name = other ++ sep :: r' at heq
      exact hname (heq ▸ List.mem_append_right _ List.mem_cons_self)
  | some r =>
    cases rest' with
    | none =>
      change name ++ sep :: r = other at heq
      exact hother (heq ▸ List.mem_append_right _ List.mem_cons_self)
    | some r' =>
      change name ++ sep :: r = other ++ sep :: r' at heq
      apply hne
      apply eq_of_shared_start hname hother
      rw [← heq]
      exact ⟨r, by simp⟩

end uffs.lib
