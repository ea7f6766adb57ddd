import Mathlib.Tactic.Positivity
import Mathlib.Tactic.Ring
import Uffs.Lib.Bytes

/-! Machine arithmetic with overflow as a failure, and the numbers it computes. -/

namespace uffs.lib.overflow

open uffs.lib.bytes

/-- The number fits `i64`. -/
def in_i64 (value : Int) : Bool := -2 ^ 63 ≤ value && value < 2 ^ 63

theorem in_i64_iff {value : Int} : in_i64 value = true ↔ -2 ^ 63 ≤ value ∧ value < 2 ^ 63 := by
  rw [in_i64, Bool.and_eq_true, decide_eq_true_eq, decide_eq_true_eq]

theorem in_i64_toInt (value : Int64) : in_i64 value.toInt = true :=
  in_i64_iff.mpr ⟨value.le_toInt, value.toInt_lt⟩

theorem toInt_ofInt {value : Int} (h : in_i64 value = true) : (Int64.ofInt value).toInt = value := by
  obtain ⟨hlow, hhigh⟩ := in_i64_iff.mp h
  exact Int64.toInt_ofInt_of_le hlow hhigh

/-- `a + b` on `i64`; `none` for an overflow. -/
def add_i64 (a b : Int64) : Option Int64 := if in_i64 (a.toInt + b.toInt) then some (a + b) else none

theorem add_i64_eq (a b : Int64) :
    add_i64 a b = if in_i64 (a.toInt + b.toInt) then some (Int64.ofInt (a.toInt + b.toInt)) else none := by
  rw [add_i64, Int64.ofInt_add, Int64.ofInt_toInt, Int64.ofInt_toInt]

/-- `value << bits` on `u64`; `none` for an overflow of the distance. -/
def shl_u64 (value : UInt64) (bits : Nat) : Option UInt64 :=
  if bits < 64 then some (value <<< UInt64.ofNat bits) else none

theorem toNat_shl {value : UInt64} {bits : Nat} (hbits : bits < 64) (hfits : value.toNat * 2 ^ bits < 2 ^ 64) :
    (value <<< UInt64.ofNat bits).toNat = value.toNat * 2 ^ bits := by
  have hsmall : (UInt64.ofNat bits).toNat = bits := by
    rw [UInt64.toNat_ofNat']
    omega
  rw [UInt64.toNat_shiftLeft, hsmall, Nat.mod_eq_of_lt hbits, Nat.shiftLeft_eq, Nat.mod_eq_of_lt hfits]

/-- Bits put above those that are there. -/
theorem toNat_or_above {low high : UInt64} {bits part : Nat} (hlow : low.toNat < 2 ^ bits) (hhigh : high.toNat = part * 2 ^ bits) :
    (low ||| high).toNat = low.toNat + part * 2 ^ bits := by
  have hsum := Nat.two_pow_add_eq_or_of_lt hlow part
  rw [UInt64.toNat_or, hhigh, Nat.or_comm, Nat.mul_comm, ← hsum, Nat.add_comm]

/-- All bits from `bits` on. -/
theorem toNat_ones_shl {bits : Nat} (hbits : bits < 64) :
    ((0xFFFFFFFFFFFFFFFF : UInt64) <<< UInt64.ofNat bits).toNat = (2 ^ (64 - bits) - 1) * 2 ^ bits := by
  have hsmall : (UInt64.ofNat bits).toNat = bits := by
    rw [UInt64.toNat_ofNat']
    omega
  have hsplit : 2 ^ (64 - bits) * 2 ^ bits = 2 ^ 64 := by
    rw [← Nat.pow_add, Nat.sub_add_cancel hbits.le]
  have hpos := Nat.two_pow_pos bits
  have hle : 2 ^ bits ≤ 2 ^ 64 := Nat.pow_le_pow_right (by decide) hbits.le
  have hmul : (0xFFFFFFFFFFFFFFFF : UInt64).toNat * 2 ^ bits = 2 ^ 64 - 2 ^ bits + (2 ^ bits - 1) * 2 ^ 64 := by
    have hones : (0xFFFFFFFFFFFFFFFF : UInt64).toNat = 2 ^ 64 - 1 := rfl
    rw [hones, Nat.sub_mul, Nat.sub_mul, Nat.one_mul, Nat.one_mul, Nat.mul_comm]
    omega
  rw [UInt64.toNat_shiftLeft, hsmall, Nat.mod_eq_of_lt hbits, Nat.shiftLeft_eq, hmul, Nat.add_mul_mod_self_right,
    Nat.mod_eq_of_lt (by omega), Nat.sub_mul, Nat.one_mul, hsplit]

/-- A word read as `i64` is the number it is congruent to. -/
theorem toInt64_eq_ofInt {word : UInt64} {value : Int} (h : value % 2 ^ 64 = word.toNat) : word.toInt64 = Int64.ofInt value := by
  apply Int64.toBitVec_inj.mp
  rw [UInt64.toBitVec_toInt64, Int64.toBitVec_ofInt]
  apply BitVec.eq_of_toNat_eq
  rw [BitVec.toNat_ofInt]
  have hcast : ((2 ^ 64 : Nat) : Int) = 2 ^ 64 := by norm_cast
  rw [hcast, h, Int.toNat_natCast]
  rfl

section fields

/-- Bytes put into a word, the next one at byte `i`. -/
def accumulate : Nat → UInt64 → List UInt8 → Option UInt64
  | _, value, [] => some value
  | i, value, byte :: rest => do
    let part ← shl_u64 byte.toUInt64 (i * 8)
    accumulate (i + 1) (value ||| part) rest

theorem accumulate_eq {i : Nat} {value : UInt64} {field : List UInt8} (hvalue : value.toNat < 256 ^ i) (hi : i ≤ 8) :
    accumulate i value field =
      if i + field.length ≤ 8 then some (UInt64.ofNat (value.toNat + 256 ^ i * from_le_bytes field)) else none := by
  induction field generalizing i value with
  | nil => simp [accumulate, from_le_bytes, hi]
  | cons byte rest ih =>
    have hbyte := byte.toNat_lt
    rw [accumulate, shl_u64]
    by_cases hroom : i * 8 < 64
    · have hpow : 256 ^ i = 2 ^ (i * 8) := by rw [Nat.mul_comm, Nat.pow_mul]
      have htop : 2 ^ (i * 8) * 256 ≤ 2 ^ 64 := by
        have hle : i * 8 + 8 ≤ 64 := by omega
        calc 2 ^ (i * 8) * 256 = 2 ^ (i * 8 + 8) := by rw [Nat.pow_add]
          _ ≤ 2 ^ 64 := Nat.pow_le_pow_right (by decide) hle
      have hfits : byte.toUInt64.toNat * 2 ^ (i * 8) < 2 ^ 64 := by
        rw [UInt8.toNat_toUInt64, Nat.mul_comm]
        exact lt_of_lt_of_le ((Nat.mul_lt_mul_left (Nat.two_pow_pos _)).mpr hbyte) htop
      have hshl := toNat_shl hroom hfits
      have hor := toNat_or_above (hpow ▸ hvalue) hshl
      rw [UInt8.toNat_toUInt64] at hor
      have hnext : (value ||| byte.toUInt64 <<< UInt64.ofNat (i * 8)).toNat < 256 ^ (i + 1) := by
        rw [hor, Nat.pow_succ, hpow]
        rw [hpow] at hvalue
        have : byte.toNat * 2 ^ (i * 8) ≤ 255 * 2 ^ (i * 8) := Nat.mul_le_mul_right _ (by omega)
        omega
      rw [if_pos hroom, Option.bind_eq_bind, Option.bind_some, ih hnext (by omega), hor, List.length_cons,
        Nat.add_right_comm i, ← Nat.add_assoc]
      congr 3
      rw [from_le_bytes, Nat.pow_succ, hpow]
      ring
    · rw [if_neg hroom, List.length_cons, if_neg (by omega)]
      rfl

theorem from_le_bytes_lt (field : List UInt8) : from_le_bytes field < 256 ^ field.length := by
  induction field with
  | nil => exact Nat.one_pos
  | cons byte rest ih =>
    have hbyte := byte.toNat_lt
    rw [from_le_bytes, List.length_cons, Nat.pow_succ]
    omega

/-- The number in two's complement. -/
def signed_value (field : List UInt8) : Int :=
  if 256 ^ field.length ≤ 2 * from_le_bytes field then from_le_bytes field - 256 ^ field.length else from_le_bytes field

/-- The sign is the top bit of the last byte. -/
theorem sign_bit_iff {field : List UInt8} {last : UInt8} (hlast : field.getLast? = some last) :
    last &&& 0x80 ≠ 0 ↔ 256 ^ field.length ≤ 2 * from_le_bytes field := by
  induction field with
  | nil => cases hlast
  | cons byte rest ih =>
    rw [from_le_bytes, List.length_cons, Nat.pow_succ]
    cases rest with
    | nil =>
      obtain rfl : byte = last := by simpa using hlast
      have hbit : ∀ b : Fin 256, (UInt8.ofFin b &&& 0x80 ≠ 0 ↔ 128 ≤ b.val) := by decide +kernel
      have hbyte := hbit byte.toFin
      rw [show UInt8.ofFin byte.toFin = byte from rfl] at hbyte
      rw [hbyte]
      simp only [from_le_bytes, List.length_nil]
      have : (byte.toFin : Nat) = byte.toNat := rfl
      omega
    | cons next rest =>
      have hbyte := byte.toNat_lt
      rw [List.getLast?_cons_cons] at hlast
      have hdvd : 256 ^ (next :: rest).length % 256 = 0 := by
        rw [List.length_cons, Nat.pow_succ, Nat.mul_mod_left]
      rw [ih hlast]
      omega

/-- A number that fits the field is found in it again. -/
theorem signed_value_le_bytes {width : Nat} {value : Int} (hlow : -(256 ^ width : Int) ≤ 2 * value)
    (hhigh : 2 * value < 256 ^ width) : signed_value (le_bytes width (value % 256 ^ width).toNat) = value := by
  have hpos : (0 : Int) < 256 ^ width := by positivity
  have hnonneg := Int.emod_nonneg value hpos.ne'
  have hlt := Int.emod_lt_of_pos value hpos
  have hnat : (value % 256 ^ width).toNat < 256 ^ width := by
    have : ((256 ^ width : Nat) : Int) = 256 ^ width := by push_cast; rfl
    omega
  have hcast : ((256 ^ width : Nat) : Int) = 256 ^ width := by push_cast; rfl
  rw [signed_value, le_bytes_length, from_le_bytes_le_bytes hnat, ← hcast, Int.toNat_of_nonneg (hcast ▸ hnonneg)]
  rw [← hcast] at hlow hhigh hlt hpos
  generalize (256 ^ width : Nat) = modulus at *
  rcases lt_or_ge value 0 with hneg | hge
  · have hmod : value % modulus = value + modulus := by
      rw [← Int.add_emod_right, Int.emod_eq_of_lt (by omega) (by omega)]
    rw [hmod, if_pos (by omega)]
    omega
  · have hmod : value % modulus = value := Int.emod_eq_of_lt hge (by omega)
    rw [hmod, if_neg (by omega)]

end fields

end uffs.lib.overflow
