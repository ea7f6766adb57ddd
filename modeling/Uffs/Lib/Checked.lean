import Mathlib.Data.List.Nodup
import Mathlib.Data.List.Perm.Subperm
import Uffs.Lib.Bytes

namespace uffs.lib

/-! Code that may panic or overflow besides failing, and blocks written into a buffer. -/

/-- What a fallible call comes to; an overflow is a panic too. -/
inductive Checked (ε α : Type) where
  | panic
  | error (error : ε)
  | ok (value : α)
deriving DecidableEq

namespace Checked

variable {ε α β : Type}

/-- Only a value goes on. -/
def bind : Checked ε α → (α → Checked ε β) → Checked ε β
  | .panic, _ => .panic
  | .error e, _ => .error e
  | .ok value, f => f value

instance : Monad (Checked ε) where
  pure := .ok
  bind := bind

@[simp] theorem pure_eq (value : α) : (pure value : Checked ε α) = .ok value := rfl

@[simp] theorem ok_bind (value : α) (f : α → Checked ε β) : (Checked.ok value >>= f) = f value := rfl

@[simp] theorem error_bind (e : ε) (f : α → Checked ε β) : (Checked.error e >>= f) = .error e := rfl

@[simp] theorem panic_bind (f : α → Checked ε β) : ((Checked.panic : Checked ε α) >>= f) = .panic := rfl

theorem ok_ne_panic {value : α} : (.ok value : Checked ε α) ≠ .panic := by
  intro h
  cases h

theorem error_ne_panic {e : ε} : (.error e : Checked ε α) ≠ .panic := by
  intro h
  cases h

variable {f : α → Checked ε β} {value : Int} {result : Checked ε α}

theorem bind_eq_ok {value : β} :
    (result >>= f) = .ok value ↔ ∃ a, result = .ok a ∧ f a = .ok value := by
  cases result <;> simp

theorem bind_ne_panic :
    (result >>= f) ≠ .panic ↔ result ≠ .panic ∧ ∀ value, result = .ok value → f value ≠ .panic := by
  cases result <;> simp

theorem bind_ne_error {e : ε} (h : result ≠ .error e) (hf : ∀ value, f value ≠ .error e) :
    (result >>= f) ≠ .error e := by
  cases result with
  | panic =>
    intro heq
    cases heq
  | error e' =>
    intro heq
    cases heq
    exact h rfl
  | ok value => exact hf value

/-- A number that must fit a machine word. -/
def fits (bits value : Nat) : Checked ε Nat := if value < 2 ^ bits then .ok value else .panic

theorem fits_eq {bits value : Nat} (h : value < 2 ^ bits) : (fits bits value : Checked ε Nat) = .ok value := if_pos h

theorem fits_eq_ok {bits value result : Nat} : (fits bits value : Checked ε Nat) = .ok result ↔ value < 2 ^ bits ∧ value = result := by
  unfold fits
  split <;> simp [*]

theorem fits_ne_panic {bits value : Nat} : (fits bits value : Checked ε Nat) ≠ .panic ↔ value < 2 ^ bits := by
  unfold fits
  split <;> simp [*]

/-- A result that must lie in the range of an integer type. -/
def in_range (low high value : Int) : Checked ε Int := if low ≤ value ∧ value < high then .ok value else .panic

def i64 (value : Int) : Checked ε Int := in_range (-2 ^ 63) (2 ^ 63) value

def u32 (value : Int) : Checked ε Int := in_range 0 (2 ^ 32) value

theorem i64_eq (h : -2 ^ 63 ≤ value ∧ value < 2 ^ 63) : (i64 value : Checked ε Int) = .ok value := if_pos h

theorem u32_eq (h : 0 ≤ value ∧ value < 2 ^ 32) : (u32 value : Checked ε Int) = .ok value := if_pos h

theorem i64_bind (h : -2 ^ 63 ≤ value ∧ value < 2 ^ 63) (f : Int → Checked ε β) : (i64 value >>= f) = f value := by
  rw [i64_eq h, ok_bind]

theorem u32_bind (h : 0 ≤ value ∧ value < 2 ^ 32) (f : Int → Checked ε β) : (u32 value >>= f) = f value := by
  rw [u32_eq h, ok_bind]

theorem i64_eq_panic (h : ¬ (-2 ^ 63 ≤ value ∧ value < 2 ^ 63)) : (i64 value : Checked ε Int) = .panic := if_neg h

theorem in_range_ne_error {low high value : Int} {e : ε} : in_range low high value ≠ .error e := by
  unfold in_range
  intro h
  split at h <;> cases h

theorem i64_ne_panic : (i64 value : Checked ε Int) ≠ .panic ↔ -2 ^ 63 ≤ value ∧ value < 2 ^ 63 := by
  rw [i64, in_range]
  split_ifs with h
  · exact ⟨fun _ => h, fun _ => ok_ne_panic⟩
  · exact ⟨fun hne => absurd rfl hne, fun hrange => absurd hrange h⟩

end Checked

end uffs.lib

namespace uffs.lib.bytes

/-- `data[offset..][..block.len()].copy_from_slice(block)`. -/
def overwrite (data : List UInt8) (offset : Nat) (block : List UInt8) : List UInt8 :=
  data.take offset ++ block ++ data.drop (offset + block.length)

variable {data block : List UInt8} {offset : Nat}

theorem length_overwrite (h : offset + block.length ≤ data.length) : (overwrite data offset block).length = data.length := by
  simp only [overwrite, List.length_append, List.length_take, List.length_drop]
  omega

theorem at_overwrite (h : offset + block.length ≤ data.length) : At (overwrite data offset block) offset block := by
  refine ⟨data.take offset, data.drop (offset + block.length), rfl, ?_⟩
  rw [List.length_take]
  omega

/-- A block that is apart from what is written stays. -/
theorem At.overwrite {other : List UInt8} {start : Nat} (hat : At data start other) (h : offset + block.length ≤ data.length)
    (hapart : start + other.length ≤ offset ∨ offset + block.length ≤ start) : At (overwrite data offset block) start other := by
  obtain ⟨front, rest, rfl, rfl⟩ := hat
  rcases hapart with hleft | hright
  · refine ⟨front, rest.take (offset - (front ++ other).length) ++ block ++
      (front ++ other ++ rest).drop (offset + block.length), ?_, rfl⟩
    have htake : (front ++ other ++ rest).take offset = front ++ other ++ rest.take (offset - (front ++ other).length) := by
      rw [List.take_append, List.take_of_length_le (by rw [List.length_append]; omega)]
    rw [bytes.overwrite, htake]
    simp only [List.append_assoc]
  · refine ⟨(front ++ other ++ rest).take offset ++ block ++ front.drop (offset + block.length), rest, ?_, ?_⟩
    · have hdrop : (front ++ other ++ rest).drop (offset + block.length) = front.drop (offset + block.length) ++ other ++ rest := by
        rw [List.append_assoc, List.drop_append_of_le_length hright, ← List.append_assoc]
      rw [bytes.overwrite, hdrop]
      simp only [List.append_assoc]
    · simp only [List.length_append, List.length_take, List.length_drop]
      omega

/-- Ranges that are apart within a bound do not sum to more. -/
theorem sum_le_of_apart {α : Type} {list : List α} {start count : α → Nat} {total : Nat}
    (hwithin : ∀ a ∈ list, start a + count a ≤ total)
    (hapart : list.Pairwise fun a b => start a + count a ≤ start b ∨ start b + count b ≤ start a) :
    (list.map count).sum ≤ total := by
  have hnodup : (list.flatMap fun a => List.range' (start a) (count a)).Nodup := by
    rw [List.nodup_flatMap]
    refine ⟨fun a _ => List.nodup_range', hapart.imp ?_⟩
    intro a b hab i hleft hright
    rw [List.mem_range'_1] at hleft hright
    omega
  have hsubset : (list.flatMap fun a => List.range' (start a) (count a)) ⊆ List.range total := by
    intro i hmem
    obtain ⟨a, ha, hmem⟩ := List.mem_flatMap.mp hmem
    have hbound := hwithin a ha
    rw [List.mem_range'_1] at hmem
    rw [List.mem_range]
    omega
  have hle := (List.subperm_of_subset hnodup hsubset).length_le
  simpa only [List.length_flatMap, List.length_range', List.length_range] using hle

end uffs.lib.bytes
