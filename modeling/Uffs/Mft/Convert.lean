import Uffs.Lib.Word

namespace uffs.mft

/-- The sentinel `u32::MAX` (`NO_ENTRY`): an unmapped record, no parent, the end of a chain. -/
def NO_ENTRY : UInt32 := 0xFFFFFFFF

/-- `Vec::len()` to a `u32` index, saturating. -/
def len_to_u32 (len : Nat) : UInt32 :=
  if len < UInt32.size then UInt32.ofNat len else NO_ENTRY

/-- `Vec::len()` to a `u16` count, saturating. -/
def len_to_u16 (len : Nat) : UInt16 :=
  if len < UInt16.size then UInt16.ofNat len else 0xFFFF

/-- FRS to index; lossless on the 64-bit targets. -/
def frs_to_usize (frs : UInt64) : Nat := frs.toNat

theorem NO_ENTRY_toNat : NO_ENTRY.toNat = 4294967295 := rfl

theorem len_to_u32_toNat {len : Nat} (hlen : len < UInt32.size) : (len_to_u32 len).toNat = len := by
  simp only [len_to_u32, if_pos hlen, UInt32.toNat_ofNat']
  exact Nat.mod_eq_of_lt hlen

theorem len_to_u32_toNat_le (len : Nat) : (len_to_u32 len).toNat ≤ len := by
  by_cases hlen : len < UInt32.size
  · exact Nat.le_of_eq (len_to_u32_toNat hlen)
  · have hmax : (len_to_u32 len).toNat = 4294967295 := by simp only [len_to_u32, if_neg hlen]; rfl
    have hsize : UInt32.size = 4294967296 := rfl
    omega

theorem len_to_u32_ne_no_entry {len : Nat} (hlen : len < NO_ENTRY.toNat) : len_to_u32 len ≠ NO_ENTRY := by
  intro h
  have hsize : UInt32.size = 4294967296 := rfl
  rw [NO_ENTRY_toNat] at hlen
  have hnat : (len_to_u32 len).toNat = len := len_to_u32_toNat (by omega)
  rw [h, NO_ENTRY_toNat] at hnat
  omega

theorem len_to_u32_of_toNat (value : UInt32) : len_to_u32 value.toNat = value := by
  rw [len_to_u32, if_pos value.toNat_lt_size]
  exact UInt32.ofNat_toNat

theorem len_to_u32_lt {i j : Nat} (hij : i < j) (hj : j < UInt32.size) : len_to_u32 i < len_to_u32 j := by
  rw [UInt32.lt_iff_toNat_lt, len_to_u32_toNat (by omega), len_to_u32_toNat hj]
  exact hij

theorem len_to_u16_toNat {len : Nat} (hlen : len < UInt16.size) : (len_to_u16 len).toNat = len := by
  simp only [len_to_u16, if_pos hlen, UInt16.toNat_ofNat']
  exact Nat.mod_eq_of_lt hlen

theorem len_to_u16_toNat_eq_min (len : Nat) : (len_to_u16 len).toNat = min len 65535 := by
  have hsize : UInt16.size = 65536 := rfl
  by_cases hlen : len < UInt16.size
  · rw [len_to_u16_toNat hlen]
    omega
  · simp only [len_to_u16, if_neg hlen]
    have hmax : (0xFFFF : UInt16).toNat = 65535 := rfl
    omega

theorem len_to_u16_ne_zero {len : Nat} (hlen : len ≠ 0) : len_to_u16 len ≠ 0 := by
  intro h
  have hmin := len_to_u16_toNat_eq_min len
  rw [h] at hmin
  have hzero : (0 : UInt16).toNat = 0 := rfl
  omega

end uffs.mft
