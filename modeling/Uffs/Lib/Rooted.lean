import Mathlib.Logic.Relation

namespace uffs.lib

/-! Items that climb to the top of what they hang in. -/

variable {α : Type} {up : α → Option α} {top ok ok' : α → Prop}

/-- One step of a climb. -/
def Climbs (up : α → Option α) (a b : α) : Prop := up a = some b

/-- A climb that ends at the top, with every item on its way to be trusted. -/
inductive Rooted (up : α → Option α) (top ok : α → Prop) : α → Prop
  | top {a : α} (hok : ok a) (htop : top a) : Rooted up top ok a
  | up {a b : α} (hok : ok a) (hup : up a = some b) (h : Rooted up top ok b) : Rooted up top ok a

theorem Rooted.trusted {a : α} (h : Rooted up top ok a) : ok a := by
  cases h with
  | top hok _ => exact hok
  | up hok _ _ => exact hok

theorem Rooted.mono (himp : ∀ a, ok a → ok' a) {a : α} (h : Rooted up top ok a) : Rooted up top ok' a := by
  induction h with
  | top hok htop => exact .top (himp _ hok) htop
  | up hok hup _ ih => exact .up (himp _ hok) hup ih

section ends

variable (hends : ∀ a, top a → up a = none)

include hends

/-- A climb goes on where its first step does. -/
theorem rooted_iff_of_up {a b : α} (hok : ok a) (hup : up a = some b) : Rooted up top ok a ↔ Rooted up top ok b := by
  constructor
  · intro h
    cases h with
    | top _ htop =>
      rw [hends a htop] at hup
      cases hup
    | up _ hup' h =>
      obtain rfl := Option.some.inj (hup.symm.trans hup')
      exact h
  · exact Rooted.up hok hup

/-- A climb that ends does not come to an item twice. -/
theorem Rooted.no_cycle {a : α} (h : Rooted up top ok a) : ¬ Relation.TransGen (Climbs up) a a := by
  induction h with
  | @top a _ htop =>
    intro hcycle
    obtain ⟨b, hstep, -⟩ := Relation.TransGen.head'_iff.mp hcycle
    rw [Climbs, hends a htop] at hstep
    cases hstep
  | @up a b _ hup _ ih =>
    intro hcycle
    obtain ⟨c, hstep, hback⟩ := Relation.TransGen.head'_iff.mp hcycle
    obtain rfl := Option.some.inj (hup.symm.trans hstep)
    exact ih (Relation.TransGen.tail' hback hup)

end ends

end uffs.lib
