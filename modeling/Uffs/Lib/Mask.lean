import Mathlib.Data.List.Basic
import Mathlib.Data.Nat.Bitwise

namespace uffs.lib

/-! Words read as sets of bits. -/

namespace mask

theorem and_or_distrib (flags a b : UInt32) : flags &&& (a ||| b) = (flags &&& a) ||| (flags &&& b) := by
  refine UInt32.eq_of_toBitVec_eq ?_
  ext i hi
  simp only [UInt32.toBitVec_and, UInt32.toBitVec_or, BitVec.getElem_and, BitVec.getElem_or, Bool.and_or_distrib_left]

theorem or_and_left_self (a b : UInt32) : (a ||| b) &&& a = a := by
  refine UInt32.eq_of_toBitVec_eq ?_
  ext i hi
  simp only [UInt32.toBitVec_and, UInt32.toBitVec_or, BitVec.getElem_and, BitVec.getElem_or]
  cases a.toBitVec[i] <;> simp

/-- All of a union is there when all of both parts is. -/
theorem and_or_eq_iff {flags a b : UInt32} : flags &&& (a ||| b) = a ||| b ↔ flags &&& a = a ∧ flags &&& b = b := by
  constructor
  · intro h
    constructor
    · rw [← or_and_left_self a b, ← UInt32.and_assoc, h]
    · rw [← or_and_left_self b a, UInt32.or_comm b a, ← UInt32.and_assoc, h]
  · rintro ⟨ha, hb⟩
    rw [and_or_distrib, ha, hb]

/-- None of a union is there when none of either part is. -/
theorem and_or_eq_zero_iff {flags a b : UInt32} : flags &&& (a ||| b) = 0 ↔ flags &&& a = 0 ∧ flags &&& b = 0 := by
  rw [and_or_distrib, UInt32.or_eq_zero_iff]

/-- A single bit is there as a whole or not at all. -/
theorem and_bit_ne_zero_iff {k : Nat} (hk : k < 32) (flags : UInt32) :
    flags &&& UInt32.ofNat (2 ^ k) ≠ 0 ↔ flags &&& UInt32.ofNat (2 ^ k) = UInt32.ofNat (2 ^ k) := by
  have hlt : 2 ^ k < 2 ^ 32 := Nat.pow_lt_pow_right (by decide) hk
  have hpos : 2 ^ k ≠ 0 := (Nat.two_pow_pos k).ne'
  have hand : (flags &&& UInt32.ofNat (2 ^ k)).toNat = (flags.toNat.testBit k).toNat * 2 ^ k := by
    rw [UInt32.toNat_and, UInt32.toNat_ofNat', Nat.mod_eq_of_lt hlt, Nat.and_two_pow]
  rw [Ne, ← UInt32.toNat_inj, ← UInt32.toNat_inj, hand, UInt32.toNat_ofNat', Nat.mod_eq_of_lt hlt]
  cases flags.toNat.testBit k with
  | false => simpa using hpos.symm
  | true => simp

section union

variable {α : Type} (bits : α → UInt32)

/-- A mask with the bits of a list put in. -/
def put (mask : UInt32) (items : List α) : UInt32 := items.foldl (fun mask item => mask ||| bits item) mask

variable {bits}

theorem put_congr {other : α → UInt32} {items : List α} (h : ∀ item ∈ items, bits item = other item) (mask : UInt32) :
    put bits mask items = put other mask items :=
  List.foldl_ext _ _ _ fun mask item hitem => congrArg (mask ||| ·) (h item hitem)

theorem put_start (mask : UInt32) (items : List α) : put bits mask items = mask ||| put bits 0 items := by
  induction items generalizing mask with
  | nil => exact (UInt32.or_zero).symm
  | cons item rest ih =>
    have hcons : ∀ start, put bits start (item :: rest) = put bits (start ||| bits item) rest := fun _ => rfl
    rw [hcons, hcons, ih, ih (0 ||| bits item), UInt32.zero_or, UInt32.or_assoc]

/-- Items in place of each other one put in what that one would. -/
theorem put_flatMap {β : Type} {whole : β → UInt32} {parts : β → List α} {items : List β}
    (h : ∀ item ∈ items, put bits 0 (parts item) = whole item) (mask : UInt32) :
    put bits mask (items.flatMap parts) = put whole mask items := by
  induction items generalizing mask with
  | nil => rfl
  | cons item rest ih =>
    rw [List.flatMap_cons, put, List.foldl_append, ← put, ← put, ih fun next hnext => h next (List.mem_cons_of_mem _ hnext),
      put_start mask, h item List.mem_cons_self]
    rfl

end union

end mask

end uffs.lib
