import Mathlib.Data.List.Basic

/-! Splitting at a separator, and dropping repetitions. -/

namespace uffs.lib

variable {α : Type} [DecidableEq α]

/-- The pieces between the separators; a list without one is a single piece. -/
@[grind] def split (sep : α) : List α → List (List α)
  | [] => [[]]
  | a :: rest =>
    if a = sep then [] :: split sep rest
    else
      match split sep rest with
      | [] => [[a]]
      | piece :: pieces => (a :: piece) :: pieces

/-- The pieces with separators between them. -/
@[grind] def join (sep : α) : List (List α) → List α
  | [] => []
  | [piece] => piece
  | piece :: pieces => piece ++ sep :: join sep pieces

/-- Drop every element that equals its successor. -/
@[grind] def dedup_runs : List α → List α
  | [] => []
  | [a] => [a]
  | a :: b :: rest => if a = b then dedup_runs (b :: rest) else a :: dedup_runs (b :: rest)

theorem mem_dedup_runs {a : α} {list : List α} : a ∈ dedup_runs list ↔ a ∈ list := by
  induction list using dedup_runs.induct with
  | case1 => exact Iff.rfl
  | case2 b => exact Iff.rfl
  | case3 b rest ih =>
    rw [dedup_runs, if_pos rfl, ih]
    constructor
    · exact List.mem_cons_of_mem _
    · intro h
      cases List.mem_cons.mp h with
      | inl h => exact h ▸ List.mem_cons_self
      | inr h => exact h
  | case4 b c rest hne ih => rw [dedup_runs, if_neg hne, List.mem_cons, List.mem_cons, ih]

/-- In order, equal entries stand side by side. -/
theorem nodup_dedup_runs {r : α → α → Prop} (hantisymm : ∀ a b, r a b → r b a → a = b) {list : List α}
    (h : list.Pairwise r) : (dedup_runs list).Nodup := by
  induction list using dedup_runs.induct with
  | case1 => exact List.nodup_nil
  | case2 a => exact List.pairwise_singleton _ a
  | case3 a rest ih =>
    rw [dedup_runs, if_pos rfl]
    exact ih (List.pairwise_cons.mp h).2
  | case4 a b rest hne ih =>
    obtain ⟨hfirst, hrest⟩ := List.pairwise_cons.mp h
    rw [dedup_runs, if_neg hne, List.nodup_cons, mem_dedup_runs]
    refine ⟨fun hmem => ?_, ih hrest⟩
    cases List.mem_cons.mp hmem with
    | inl heq => exact hne heq
    | inr hlater => exact hne (hantisymm a b (hfirst b List.mem_cons_self) ((List.pairwise_cons.mp hrest).1 a hlater))

theorem split_ne_nil (sep : α) (list : List α) : split sep list ≠ [] := by
  cases list with
  | nil => exact List.cons_ne_nil _ _
  | cons a rest =>
    rw [split]
    split
    · exact List.cons_ne_nil _ _
    · split <;> exact List.cons_ne_nil _ _

theorem not_mem_of_mem_split {sep : α} {list piece : List α} (h : piece ∈ split sep list) : sep ∉ piece := by
  induction list generalizing piece with
  | nil =>
    rw [split, List.mem_singleton] at h
    rw [h]
    exact List.not_mem_nil
  | cons a rest ih =>
    rw [split] at h
    split at h
    next =>
      rcases List.mem_cons.mp h with rfl | hmem
      · exact List.not_mem_nil
      · exact ih hmem
    next hne =>
      cases hpieces : split sep rest with
      | nil => exact absurd hpieces (split_ne_nil sep rest)
      | cons first pieces =>
        rw [hpieces] at h ih
        rcases List.mem_cons.mp h with rfl | hmem
        · rw [List.mem_cons, not_or]
          exact ⟨Ne.symm hne, ih List.mem_cons_self⟩
        · exact ih (List.mem_cons_of_mem _ hmem)

theorem join_split (sep : α) (list : List α) : join sep (split sep list) = list := by
  induction list with
  | nil => rfl
  | cons a rest ih =>
    obtain ⟨piece, pieces, hsplit⟩ := List.exists_cons_of_ne_nil (split_ne_nil sep rest)
    rw [split]
    split
    next ha =>
      rw [hsplit] at ih ⊢
      rw [join, ih, ha]
      · rfl
      · exact List.cons_ne_nil _ _
    next ha =>
      rw [hsplit] at ih ⊢
      cases pieces with
      | nil => exact congrArg (a :: ·) ih
      | cons next pieces => exact congrArg (a :: ·) ih

/-- The first piece ends at the first separator. -/
theorem split_append_cons {sep : α} {piece : List α} (hpiece : sep ∉ piece) (rest : List α) :
    split sep (piece ++ sep :: rest) = piece :: split sep rest := by
  induction piece with
  | nil => exact if_pos rfl
  | cons a piece ih =>
    have ha : a ≠ sep := fun h => hpiece (h ▸ List.mem_cons_self)
    rw [List.cons_append, split, if_neg ha, ih fun h => hpiece (List.mem_cons_of_mem _ h)]

theorem split_of_not_mem {sep : α} {piece : List α} (hpiece : sep ∉ piece) : split sep piece = [piece] := by
  induction piece with
  | nil => rfl
  | cons a piece ih =>
    have ha : a ≠ sep := fun h => hpiece (h ▸ List.mem_cons_self)
    rw [split, if_neg ha, ih fun h => hpiece (List.mem_cons_of_mem _ h)]

/-- Pieces without the separator are found again. -/
theorem split_join {sep : α} {pieces : List (List α)} (hne : pieces ≠ []) (hsep : ∀ piece ∈ pieces, sep ∉ piece) :
    split sep (join sep pieces) = pieces := by
  induction pieces using join.induct with
  | case1 => exact absurd rfl hne
  | case2 piece => exact split_of_not_mem (hsep piece List.mem_cons_self)
  | case3 piece pieces hnil ih =>
    rw [join, split_append_cons (hsep piece List.mem_cons_self), ih (fun h => hnil (by rw [h])) fun p hp =>
      hsep p (List.mem_cons_of_mem _ hp)]
    exact fun h => hnil (by rw [h])

end uffs.lib
