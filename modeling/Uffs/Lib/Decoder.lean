import Uffs.Lib.Bytes

/-! Decoders as state over the bytes that are left, and what they read back of what was written. -/

namespace uffs.lib.decoder

variable {ε α β : Type}

/-- A decoder takes bytes from the front of what is left, or fails. -/
abbrev Decoder (ε α : Type) := StateT (List UInt8) (Except ε) α

/-- The decoder takes exactly the block, whatever follows it, and gives the value. -/
def Reads (decoder : Decoder ε α) (block : List UInt8) (value : α) : Prop :=
  ∀ rest, decoder.run (block ++ rest) = .ok (value, rest)

theorem Reads.pure (value : α) : Reads (Pure.pure value : Decoder ε α) [] value := fun _ => rfl

variable {decoder : Decoder ε α}

theorem Reads.bind {next : α → Decoder ε β} {block later : List UInt8} {value : α} {result : β}
    (h : Reads decoder block value) (hnext : Reads (next value) later result) :
    Reads (decoder >>= next) (block ++ later) result := by
  intro rest
  rw [List.append_assoc, StateT.run_bind, h (later ++ rest)]
  exact hnext rest

/-- The last decoder of a chain: its value goes into the result. -/
theorem Reads.last {decoder : Decoder ε α} {block : List UInt8} {value : α} (h : Reads decoder block value) (f : α → β) :
    Reads (decoder >>= fun a => Pure.pure (f a)) block (f value) := by
  have hboth : Reads (decoder >>= fun a => Pure.pure (f a)) (block ++ []) (f value) := h.bind (Reads.pure (f value))
  rwa [List.append_nil] at hboth

/-- Every value that the decoder gives has the property. -/
def Yields (decoder : Decoder ε α) (P : α → Prop) : Prop :=
  ∀ bytes value rest, decoder.run bytes = .ok (value, rest) → P value

theorem Yields.trivial (decoder : Decoder ε α) : Yields decoder fun _ => True := fun _ _ _ _ => True.intro

theorem Yields.pure {P : α → Prop} {value : α} (h : P value) : Yields (Pure.pure value : Decoder ε α) P := by
  intro bytes result rest hrun
  have heq : value = result := congrArg Prod.fst (Except.ok.inj hrun)
  exact heq ▸ h

theorem Yields.throw {P : α → Prop} (error : ε) : Yields (throw error : Decoder ε α) P := by
  intro bytes value rest hrun
  cases hrun

theorem Yields.bind {next : α → Decoder ε β} {P : α → Prop} {Q : β → Prop} (h : Yields decoder P)
    (hnext : ∀ value, P value → Yields (next value) Q) : Yields (decoder >>= next) Q := by
  intro bytes result rest hrun
  rw [StateT.run_bind] at hrun
  cases hfirst : decoder.run bytes with
  | error e =>
    rw [hfirst] at hrun
    cases hrun
  | ok outcome =>
    obtain ⟨value, left⟩ := outcome
    rw [hfirst] at hrun
    exact hnext value (h bytes value left hfirst) left result rest hrun

/-- What a decoder can read back is told apart from what follows it. -/
theorem Reads.separates {block other front back : List UInt8} {value result : α} (h : Reads decoder block value)
    (hother : Reads decoder other result) (heq : block ++ front = other ++ back) : value = result ∧ front = back := by
  have hrun := h front
  rw [heq, hother back] at hrun
  obtain ⟨hvalue, hrest⟩ := Prod.mk.inj (Except.ok.inj hrun)
  exact ⟨hvalue.symm, hrest.symm⟩

end uffs.lib.decoder
