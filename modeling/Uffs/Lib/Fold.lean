import Mathlib.Data.List.Basic

/-! Rules for loops written as left folds. -/

namespace uffs.lib

variable {σ α : Type}

/-- What every iteration keeps holds after the loop. -/
theorem foldl_invariant {step : σ → α → σ} {motive : σ → Prop} {list : List α} {s : σ} (hstart : motive s)
    (hstep : ∀ s a, a ∈ list → motive s → motive (step s a)) : motive (list.foldl step s) := by
  induction list generalizing s with
  | nil => exact hstart
  | cons a list ih =>
    exact ih (hstep s a List.mem_cons_self hstart) fun s b hb => hstep s b (List.mem_cons_of_mem a hb)

/-- What one iteration establishes, from any state, and every iteration keeps, holds after a loop
that runs it. -/
theorem foldl_reaches {step : σ → α → σ} {motive : σ → Prop} {list : List α} {s : σ} {a : α}
    (hmem : a ∈ list) (hhit : ∀ s, motive (step s a)) (hkeep : ∀ s b, motive s → motive (step s b)) :
    motive (list.foldl step s) := by
  induction list generalizing s with
  | nil => cases hmem
  | cons b list ih =>
    cases List.mem_cons.mp hmem with
    | inl h =>
      subst h
      rw [List.foldl_cons]
      exact foldl_invariant (hhit s) fun s b _ hs => hkeep s b hs
    | inr h => exact ih h

/-- A loop that fails at no item. -/
theorem mapM_eq_some {α β : Type} {f : α → Option β} {g : α → β} {list : List α} (h : ∀ a ∈ list, f a = some (g a)) :
    list.mapM f = some (list.map g) := by
  induction list with
  | nil => rfl
  | cons a rest ih =>
    rw [List.mapM_cons, h a List.mem_cons_self, ih fun b hb => h b (List.mem_cons_of_mem _ hb)]
    rfl

end uffs.lib
