import Mathlib.Data.List.Basic

namespace uffs.lib

section Machine

variable {σ ε : Type} (step : σ → ε → Option σ)

/-- The state after a list of events, `none` when one of them is not enabled. -/
def run_events : σ → List ε → Option σ
  | s, [] => some s
  | s, e :: es => (step s e).bind fun s' => run_events s' es

/-- Every step of the run meets the condition in the state before it. -/
def Meets (ok : σ → ε → Prop) : σ → List ε → Prop
  | _, [] => True
  | s, e :: es => ok s e ∧ ∀ s', step s e = some s' → Meets ok s' es

variable {step}

theorem run_events_cons {s s' : σ} {e : ε} {es : List ε} (h : run_events step s (e :: es) = some s') :
    ∃ mid, step s e = some mid ∧ run_events step mid es = some s' :=
  Option.bind_eq_some_iff.mp h

theorem Meets.cons {ok : σ → ε → Prop} {s s' : σ} {e : ε} {es : List ε} (hok : ok s e) (hstep : step s e = some s')
    (hrest : Meets step ok s' es) : Meets step ok s (e :: es) := by
  refine ⟨hok, ?_⟩
  intro s'' hs''
  rw [Option.some.inj (hs''.symm.trans hstep)]
  exact hrest

/-- Rule of invariants: what every step that meets the condition keeps holds in every state that a
run of such steps reaches. -/
theorem run_invariant {ok : σ → ε → Prop} {I : σ → Prop}
    (hstep : ∀ s e s', I s → ok s e → step s e = some s' → I s') {events : List ε} {s s' : σ} (hs : I s)
    (hmeets : Meets step ok s events) (hrun : run_events step s events = some s') : I s' := by
  induction events generalizing s with
  | nil =>
    cases hrun
    exact hs
  | cons e es ih =>
    obtain ⟨mid, hmid, hrest⟩ := run_events_cons hrun
    exact ih (hstep s e mid hs hmeets.1 hmid) (hmeets.2 mid hmid) hrest

end Machine

end uffs.lib
