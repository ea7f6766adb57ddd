import Mathlib.Algebra.Order.Ring.Nat

namespace uffs.lib

/-- `u32` values ordered as machine words, with the order `<` and `≤` of the core library. -/
instance linearOrderUInt32 : LinearOrder UInt32 where
  le_refl := UInt32.le_refl
  le_trans _ _ _ := UInt32.le_trans
  lt_iff_le_not_ge a b := by grind
  le_antisymm a b := by grind
  le_total := UInt32.le_total
  toDecidableLE := inferInstance
  min_def _ _ := rfl
  max_def _ _ := rfl

instance linearOrderUInt64 : LinearOrder UInt64 where
  le_refl := UInt64.le_refl
  le_trans _ _ _ := UInt64.le_trans
  lt_iff_le_not_ge a b := by grind
  le_antisymm a b := by grind
  le_total := UInt64.le_total
  toDecidableLE := inferInstance
  min_def _ _ := rfl
  max_def _ _ := rfl

/-- `u32::saturating_add`. -/
def saturating_add (a b : UInt32) : UInt32 :=
  if a.toNat + b.toNat < UInt32.size then a + b else UInt32.ofNat (UInt32.size - 1)

theorem saturating_add_toNat {a b : UInt32} (hroom : a.toNat + b.toNat < UInt32.size) :
    (saturating_add a b).toNat = a.toNat + b.toNat := by
  simp only [saturating_add, if_pos hroom, UInt32.toNat_add]
  exact Nat.mod_eq_of_lt hroom

/-- `u16::saturating_add`. -/
def saturating_add16 (a b : UInt16) : UInt16 := UInt16.ofNat (min (a.toNat + b.toNat) 65535)

/-- `u64::saturating_add`. -/
def saturating_add64 (a b : UInt64) : UInt64 := UInt64.ofNat (min (a.toNat + b.toNat) 18446744073709551615)

theorem saturating_add16_toNat (a b : UInt16) : (saturating_add16 a b).toNat = min (a.toNat + b.toNat) 65535 := by
  rw [saturating_add16, UInt16.toNat_ofNat']
  omega

theorem saturating_add64_toNat (a b : UInt64) :
    (saturating_add64 a b).toNat = min (a.toNat + b.toNat) 18446744073709551615 := by
  rw [saturating_add64, UInt64.toNat_ofNat']
  omega

theorem succ_toNat {a : UInt32} (hroom : a.toNat + 1 < UInt32.size) : (a + 1).toNat = a.toNat + 1 := by
  rw [UInt32.toNat_add]
  exact Nat.mod_eq_of_lt hroom

theorem le_saturating_add (a b : UInt32) : a ≤ saturating_add a b := by
  rw [UInt32.le_iff_toNat_le]
  by_cases hroom : a.toNat + b.toNat < UInt32.size
  · rw [saturating_add_toNat hroom]
    omega
  · have hlt := a.toNat_lt_size
    have hmax : (UInt32.ofNat (UInt32.size - 1)).toNat = UInt32.size - 1 := by decide
    rw [saturating_add, if_neg hroom, hmax]
    omega

end uffs.lib
