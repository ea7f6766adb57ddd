import Uffs.Lib.Machine

namespace uffs.lib

/-- A program whose steps may fail one by one, and which can end in an error. Steps of `act` may fail:
the program goes on with the state they have found, and with whether they have failed. -/
inductive Attempt (σ ι α : Type) where
  | ret (value : α)
  | err
  | set (write : σ → σ) (next : σ → Attempt σ ι α)
  | act (step : ι) (write : σ → σ) (next : σ → Bool → Attempt σ ι α)

namespace Attempt

variable {σ ι α β : Type}

/-- An error ends the whole. -/
def bind : Attempt σ ι α → (α → Attempt σ ι β) → Attempt σ ι β
  | .ret value, f => f value
  | .err, _ => .err
  | .set write next, f => .set write fun s => (next s).bind f
  | .act step write next, f => .act step write fun s fails => (next s fails).bind f

instance : Monad (Attempt σ ι) where
  pure := .ret
  bind := bind

/-- An error of the program is its value, none. -/
def caught : Attempt σ ι α → Attempt σ ι (Option α)
  | .ret value => .ret (some value)
  | .err => .ret none
  | .set write next => .set write fun s => (next s).caught
  | .act step write next => .act step write fun s fails => (next s fails).caught

def get (f : σ → α) : Attempt σ ι α := .set id fun s => .ret (f s)

def modify (f : σ → σ) : Attempt σ ι Unit := .set f fun _ => .ret ()

/-- An error when the step fails. -/
def attempt (step : ι) (write : σ → σ) : Attempt σ ι Unit := .act step write fun _ fails => if fails then .err else .ret ()

/-- The answer is no when the step fails. -/
def ask (step : ι) (f : σ → Bool) : Attempt σ ι Bool := .act step id fun s fails => .ret (!fails && f s)

/-- In every run in which a step goes on or fails only where it is `ok`, the program ends in `Q`. -/
def Ends (ok : σ → ι → Bool → Prop) (Q : Option α → σ → Prop) : Attempt σ ι α → σ → Prop
  | .ret value, s => Q (some value) s
  | .err, s => Q none s
  | .set write next, s => (next s).Ends ok Q (write s)
  | .act step write next, s =>
    (ok s step false → (next s false).Ends ok Q (write s)) ∧ (ok s step true → (next s true).Ends ok Q s)

section rules

variable {ok : σ → ι → Bool → Prop} {s : σ} {prog : Attempt σ ι α} {Q : Option β → σ → Prop}

theorem Ends.mono {Q Q' : Option α → σ → Prop} (h : prog.Ends ok Q s) (hQ : ∀ result s, Q result s → Q' result s) :
    prog.Ends ok Q' s := by
  induction prog generalizing s with
  | ret value => exact hQ _ s h
  | err => exact hQ _ s h
  | set write next ih => exact ih s h
  | act step write next ih => exact ⟨fun hok => ih s false (h.1 hok), fun hok => ih s true (h.2 hok)⟩

theorem ends_bind {f : α → Attempt σ ι β} :
    (prog >>= f).Ends ok Q s ↔ prog.Ends ok (fun result s =>
      match result with
      | some value => (f value).Ends ok Q s
      | none => Q none s) s := by
  induction prog generalizing s with
  | ret value => rfl
  | err => rfl
  | set write next ih => exact ih s
  | act step write next ih => exact and_congr (imp_congr_right fun _ => ih s false) (imp_congr_right fun _ => ih s true)

theorem ends_get_bind {f : σ → α} {g : α → Attempt σ ι β} :
    (get f >>= g).Ends ok Q s ↔ (g (f s)).Ends ok Q s := Iff.rfl

theorem ends_modify_bind {f : σ → σ} {g : Unit → Attempt σ ι β} :
    (modify f >>= g).Ends ok Q s ↔ (g ()).Ends ok Q (f s) := Iff.rfl

theorem ends_attempt_bind {step : ι} {write : σ → σ} {g : Unit → Attempt σ ι β} :
    (attempt step write >>= g).Ends ok Q s ↔ (ok s step false → (g ()).Ends ok Q (write s)) ∧ (ok s step true → Q none s) := Iff.rfl

theorem ends_ask_bind {step : ι} {f : σ → Bool} {g : Bool → Attempt σ ι β} :
    (ask step f >>= g).Ends ok Q s ↔ (ok s step false → (g (f s)).Ends ok Q s) ∧ (ok s step true → (g false).Ends ok Q s) := Iff.rfl

/-- Rule of sequence: the first program ends in `R`, and from there the second does in `Q`. -/
theorem Ends.bind {f : α → Attempt σ ι β} {R : Option α → σ → Prop} (hprog : prog.Ends ok R s)
    (herr : ∀ s', R none s' → Q none s') (hf : ∀ value s', R (some value) s' → (f value).Ends ok Q s') :
    (prog >>= f).Ends ok Q s := by
  rw [ends_bind]
  refine hprog.mono ?_
  rintro (_ | value) s' h
  · exact herr s' h
  · exact hf value s' h

/-- Rule of errors that are caught: the second program goes on from them. -/
theorem Ends.caught_bind {f : Option α → Attempt σ ι β} {R : Option α → σ → Prop} (hprog : prog.Ends ok R s)
    (hf : ∀ result s', R result s' → (f result).Ends ok Q s') : (prog.caught >>= f).Ends ok Q s := by
  induction prog generalizing s with
  | ret value => exact hf _ s hprog
  | err => exact hf _ s hprog
  | set write next ih => exact ih s hprog
  | act step write next ih => exact ⟨fun hok => ih s false (hprog.1 hok), fun hok => ih s true (hprog.2 hok)⟩

end rules

end Attempt

/-- A program that is being run. -/
structure Trial (σ ι α : Type) where
  state : σ
  rest : Attempt σ ι α

instance Meets.decidable {σ ε : Type} (step : σ → ε → Option σ) (ok : σ → ε → Prop) [∀ s e, Decidable (ok s e)] :
    ∀ s es, Decidable (Meets step ok s es)
  | _, [] => .isTrue trivial
  | s, e :: es =>
    match hstep : step s e with
    | none => decidable_of_iff (ok s e) ⟨fun hok => ⟨hok, fun s' h => by rw [hstep] at h; cases h⟩, And.left⟩
    | some s' =>
      have := Meets.decidable step ok s' es
      decidable_of_iff (ok s e ∧ Meets step ok s' es)
        ⟨fun ⟨hok, hrest⟩ => .cons hok hstep hrest, fun ⟨hok, hrest⟩ => ⟨hok, hrest s' hstep⟩⟩

namespace Trial

variable {σ ι α : Type}

/-- The next step, which may fail. -/
def step (self : Trial σ ι α) (fails : Bool) : Option (Trial σ ι α) :=
  match self.rest with
  | .set write next => if fails then none else some ⟨write self.state, next self.state⟩
  | .act _ write next => some ⟨if fails then self.state else write self.state, next self.state fails⟩
  | _ => none

/-- A step goes on or fails only where it is `ok`. -/
def Allowed (ok : σ → ι → Bool → Prop) (self : Trial σ ι α) (fails : Bool) : Prop :=
  match self.rest with
  | .act step _ _ => ok self.state step fails
  | _ => True

instance (ok : σ → ι → Bool → Prop) [∀ s step fails, Decidable (ok s step fails)] (self : Trial σ ι α) (fails : Bool) :
    Decidable (self.Allowed ok fails) := by
  unfold Allowed
  split <;> infer_instance

/-- How the program has ended, none in an error. -/
def ended (self : Trial σ ι α) : Option (Option α) :=
  match self.rest with
  | .ret value => some (some value)
  | .err => some none
  | _ => none

/-- Rule of runs: a run of allowed steps ends where the program does. -/
theorem run_rule {ok : σ → ι → Bool → Prop} {Q : Option α → σ → Prop} {self trial : Trial σ ι α} {events : List Bool}
    (h : self.rest.Ends ok Q self.state) (hmeets : Meets step (Allowed ok) self events)
    (hrun : run_events step self events = some trial) {result : Option α} (hended : trial.ended = some result) :
    Q result trial.state := by
  have hrest : trial.rest.Ends ok Q trial.state := by
    refine run_invariant (I := fun t : Trial σ ι α => t.rest.Ends ok Q t.state) ?_ h hmeets hrun
    rintro ⟨s, rest⟩ fails t hs hok hstep
    cases rest with
    | ret value => cases hstep
    | err => cases hstep
    | set write next =>
      cases fails with
      | false =>
        cases hstep
        exact hs
      | true => cases hstep
    | act step write next =>
      cases hstep
      cases fails with
      | false => exact hs.1 hok
      | true => exact hs.2 hok
  obtain ⟨s, rest⟩ := trial
  cases rest with
  | ret value =>
    cases hended
    exact hrest
  | err =>
    cases hended
    exact hrest
  | set write next => cases hended
  | act step write next => cases hended

end Trial

end uffs.lib
