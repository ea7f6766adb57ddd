import Uffs.Lib.Machine

namespace uffs.lib

/-- A program that works on a disk one atomic step at a time. A step reads the disk and then writes it. -/
inductive Prog (σ α : Type) where
  | ret (value : α)
  | act (write : σ → σ) (next : σ → Prog σ α)

namespace Prog

variable {σ α β : Type}

def bind : Prog σ α → (α → Prog σ β) → Prog σ β
  | .ret value, f => f value
  | .act write next, f => .act write fun s => (next s).bind f

instance : Monad (Prog σ) where
  pure := .ret
  bind := bind

def read (f : σ → α) : Prog σ α := .act id fun s => .ret (f s)

def write (f : σ → σ) : Prog σ Unit := .act f fun _ => .ret ()

/-- The program may be cut off before every step: the disk is then in `I`. It ends, in `Q`. -/
def Safe (I : σ → Prop) (Q : α → σ → Prop) : Prog σ α → σ → Prop
  | .ret value, s => Q value s
  | .act write next, s => I s ∧ (next s).Safe I Q (write s)

variable {I : σ → Prop} {Q : α → σ → Prop} {s : σ}

@[simp] theorem safe_pure {value : α} : (pure value : Prog σ α).Safe I Q s ↔ Q value s := Iff.rfl

theorem safe_read {f : σ → α} : (read f).Safe I Q s ↔ I s ∧ Q (f s) s := Iff.rfl

variable {prog : Prog σ α}

theorem safe_bind {f : α → Prog σ β} {Q : β → σ → Prop} :
    (prog >>= f).Safe I Q s ↔ prog.Safe I (fun value s => (f value).Safe I Q s) s := by
  induction prog generalizing s with
  | ret value => rfl
  | act write next ih => exact and_congr_right fun _ => ih s

theorem Safe.bind {f : α → Prog σ β} {Q : β → σ → Prop} {R : α → σ → Prop} (hprog : prog.Safe I R s)
    (hf : ∀ value s', R value s' → (f value).Safe I Q s') : (prog >>= f).Safe I Q s := by
  rw [safe_bind]
  induction prog generalizing s with
  | ret value => exact hf value s hprog
  | act write next ih => exact ⟨hprog.1, ih s hprog.2⟩

theorem Safe.mono {I' : σ → Prop} {Q' : α → σ → Prop} (h : prog.Safe I Q s) (hI : ∀ s, I s → I' s)
    (hQ : ∀ value s, Q value s → Q' value s) : prog.Safe I' Q' s := by
  induction prog generalizing s with
  | ret value => exact hQ value s h
  | act write next ih => exact ⟨hI s h.1, ih s h.2⟩

/-- Whatever the program leaves when it is cut off on a disk of this kind, is in `I`, and so is what it
leaves at its end. -/
def CrashSafe (ok I : σ → Prop) (Q : α → σ → Prop) (prog : Prog σ α) (s : σ) : Prop :=
  prog.Safe (fun s => ok s → I s) (fun value s => I s ∧ Q value s) s

end Prog

section session

variable {σ α ρ : Type}

/-- A disk, and the program that works on it. -/
structure Session (σ α : Type) where
  disk : σ
  running : Option (Prog σ α)

/-- What the program has ended with. -/
def Session.result (self : Session σ α) : Option α :=
  match self.running with
  | some (.ret value) => some value
  | _ => none

inductive SessionEvent (ρ : Type) where
  /-- The next step of the program. -/
  | act
  /-- The program is killed before its next step. -/
  | kill
  /-- The recovery program is started, when no other is running. -/
  | restart (arguments : ρ)

namespace Session

variable (recovery : ρ → Prog σ α)

def step (s : Session σ α) : SessionEvent ρ → Option (Session σ α)
  | .act =>
    match s.running with
    | some (.act write next) => some { disk := write s.disk, running := some (next s.disk) }
    | _ => none
  | .kill =>
    match s.running with
    | some (.act _ _) => some { s with running := none }
    | _ => none
  | .restart arguments =>
    match s.running with
    | some (.act _ _) => none
    | _ => some { s with running := some (recovery arguments) }

/-- Programs are killed on a disk of this kind only. -/
def KilledOn (ok : σ → Prop) (s : Session σ α) : SessionEvent ρ → Prop
  | .kill => ok s.disk
  | _ => True

/-- A program that is going on is safe, whatever is left when it is cut off. -/
def Sound (ok I : σ → Prop) (Q : α → σ → Prop) (s : Session σ α) : Prop :=
  match s.running with
  | none => I s.disk
  | some prog => prog.CrashSafe ok I Q s.disk

variable {recovery} {ok I : σ → Prop} {Q : α → σ → Prop}

/-- A step, a kill or a recovery keeps a session safe. -/
theorem Sound.step (hrecovery : ∀ arguments disk, I disk → (recovery arguments).CrashSafe ok I Q disk)
    {s s' : Session σ α} {e : SessionEvent ρ} (hs : s.Sound ok I Q) (hok : s.KilledOn ok e)
    (hstep : s.step recovery e = some s') : s'.Sound ok I Q := by
  obtain ⟨disk, running⟩ := s
  cases e with
  | act =>
    rcases running with - | (value | ⟨write, next⟩)
    · cases hstep
    · cases hstep
    · cases hstep
      exact hs.2
  | kill =>
    rcases running with - | (value | ⟨write, next⟩)
    · cases hstep
    · cases hstep
    · cases hstep
      exact hs.1 hok
  | restart arguments =>
    rcases running with - | (value | ⟨write, next⟩)
    · cases hstep
      exact hrecovery arguments disk hs
    · cases hstep
      exact hrecovery arguments disk hs.1
    · cases hstep

/-- Rule of recovery: when the first program is safe on the disk it finds and the recovery program on
whatever is left, every program of the run that ends does so in `Q`. -/
theorem recovery_rule (hrecovery : ∀ arguments disk, I disk → (recovery arguments).CrashSafe ok I Q disk) {disk : σ} (hprog : prog.CrashSafe ok I Q disk)
    {events : List (SessionEvent ρ)} {s : Session σ α}
    (hmeets : Meets (step recovery) (KilledOn ok) ⟨disk, some prog⟩ events)
    (hrun : run_events (step recovery) ⟨disk, some prog⟩ events = some s) {value : α} (hresult : s.result = some value) :
    Q value s.disk := by
  have hstart : (⟨disk, some prog⟩ : Session σ α).Sound ok I Q := hprog
  have hsound : s.Sound ok I Q :=
    run_invariant (fun _ _ _ hs hok hstep => Sound.step hrecovery hs hok hstep) hstart hmeets hrun
  obtain ⟨disk, running⟩ := s
  rcases running with - | (value | ⟨write, next⟩)
  · cases hresult
  · cases hresult
    exact hsound.2
  · cases hresult

/-- As long as nothing is killed, nothing is asked. -/
theorem meets_acts {n : Nat} {s s' : Session σ α} {rest : List (SessionEvent ρ)}
    (hrun : run_events (step recovery) s (List.replicate n .act) = some s') (hrest : Meets (step recovery) (KilledOn ok) s' rest) :
    Meets (step recovery) (KilledOn ok) s (List.replicate n .act ++ rest) := by
  induction n generalizing s with
  | zero =>
    cases hrun
    exact hrest
  | succ n ih =>
    obtain ⟨mid, hmid, hrun⟩ := run_events_cons hrun
    exact .cons trivial hmid (ih hrun)

end Session

end session

end uffs.lib
