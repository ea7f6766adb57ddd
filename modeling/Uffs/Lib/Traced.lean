import Uffs.Lib.Checked

namespace uffs.lib

/-! Fallible code that also keeps what it has read. -/

/-- What a call comes to, and what it has read on the way there. -/
@[ext]
structure Traced (ρ ε α : Type) where
  reads : List ρ
  result : Checked ε α
deriving DecidableEq

namespace Traced

variable {ρ ε α β : Type}

/-- Only a value goes on; what has been read stays. -/
def bind (t : Traced ρ ε α) (f : α → Traced ρ ε β) : Traced ρ ε β :=
  match t.result with
  | .panic => ⟨t.reads, .panic⟩
  | .error e => ⟨t.reads, .error e⟩
  | .ok value => ⟨t.reads ++ (f value).reads, (f value).result⟩

instance : Monad (Traced ρ ε) where
  pure value := ⟨[], .ok value⟩
  bind := bind

/-- A call that reads nothing. -/
def of (result : Checked ε α) : Traced ρ ε α := ⟨[], result⟩

def error (e : ε) : Traced ρ ε α := of (.error e)

def read (r : ρ) : Traced ρ ε Unit := ⟨[r], .ok ()⟩

@[simp] theorem pure_eq (value : α) : (pure value : Traced ρ ε α) = ⟨[], .ok value⟩ := rfl

@[simp] theorem mk_ok_bind (reads : List ρ) (value : α) (f : α → Traced ρ ε β) :
    ((⟨reads, .ok value⟩ : Traced ρ ε α) >>= f) = ⟨reads ++ (f value).reads, (f value).result⟩ := rfl

@[simp] theorem of_ok_bind (value : α) (f : α → Traced ρ ε β) : ((of (.ok value) : Traced ρ ε α) >>= f) = f value := rfl

@[simp] theorem read_bind (r : ρ) (f : Unit → Traced ρ ε β) : (read r >>= f) = ⟨r :: (f ()).reads, (f ()).result⟩ := rfl

theorem bind_eq_ok {t : Traced ρ ε α} {f : α → Traced ρ ε β} {reads : List ρ} {value : β} :
    (t >>= f) = ⟨reads, .ok value⟩ ↔
      ∃ first a rest, t = ⟨first, .ok a⟩ ∧ f a = ⟨rest, .ok value⟩ ∧ reads = first ++ rest := by
  obtain ⟨first, result⟩ := t
  constructor
  · intro h
    cases result with
    | panic => cases h
    | error e => cases h
    | ok a =>
      rw [mk_ok_bind, Traced.mk.injEq] at h
      refine ⟨first, a, (f a).reads, rfl, ?_, h.1.symm⟩
      rw [← h.2]
  · rintro ⟨_, a, rest, heq, hf, rfl⟩
    cases heq
    rw [mk_ok_bind, hf]

theorem of_bind_eq_ok {result : Checked ε α} {f : α → Traced ρ ε β} {reads : List ρ} {value : β} :
    ((of result : Traced ρ ε α) >>= f) = ⟨reads, .ok value⟩ ↔ ∃ a, result = .ok a ∧ f a = ⟨reads, .ok value⟩ := by
  cases result with
  | panic => exact ⟨nofun, nofun⟩
  | error e => exact ⟨nofun, nofun⟩
  | ok a =>
    rw [of_ok_bind]
    exact ⟨fun h => ⟨a, rfl, h⟩, fun ⟨_, ha, h⟩ => by cases ha; exact h⟩

end Traced

end uffs.lib
