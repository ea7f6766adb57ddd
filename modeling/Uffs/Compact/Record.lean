import Uffs.Mft.Convert
import Uffs.Lib.Slice
import Uffs.Text.Utf8

open uffs.text

namespace uffs.compact

/-- One row of the compact index. -/
structure CompactRecord where
  size : UInt64 := 0
  allocated : UInt64 := 0
  treesize : UInt64 := 0
  tree_allocated : UInt64 := 0
  created : Int64 := 0
  modified : Int64 := 0
  accessed : Int64 := 0
  /-- NTFS file reference: sequence number in the high 16 bits, FRS below. -/
  file_ref : UInt64 := 0
  name_offset : UInt32 := 0
  flags : UInt32 := 0
  /-- Slot of the parent directory, `NO_ENTRY` for a root or an orphan. -/
  parent_idx : UInt32 := 0
  descendants : UInt32 := 0
  name_len : UInt16 := 0
  extension_id : UInt16 := 0
  path_len : UInt16 := 0
  name_first_byte : UInt8 := 0
  pad : UInt8 := 0
deriving DecidableEq, Inhabited

def FRS_MASK : UInt64 := 0x0000FFFFFFFFFFFF

def DIRECTORY_BIT : UInt32 := 0x0010

def pack_file_reference (frs : UInt64) (sequence_number : UInt16) : UInt64 :=
  (frs &&& FRS_MASK) ||| (sequence_number.toUInt64 <<< 48)

def CompactRecord.frs (self : CompactRecord) : UInt64 :=
  self.file_ref &&& FRS_MASK

def CompactRecord.is_directory (self : CompactRecord) : Bool :=
  self.flags &&& DIRECTORY_BIT != 0

/-- A row is live while it has a name; deletes and placeholders have none. -/
def CompactRecord.Live (self : CompactRecord) : Prop := self.name_len ≠ 0

instance (self : CompactRecord) : Decidable self.Live := inferInstanceAs (Decidable (_ ≠ _))

/-- Byte range of the name in the names blob. -/
def CompactRecord.name_range (self : CompactRecord) (names : List UInt8) : Option (List UInt8) :=
  lib.slice? names self.name_offset.toNat (self.name_offset.toNat + self.name_len.toNat)

def CompactRecord.name_bytes (self : CompactRecord) (names : List UInt8) : List UInt8 :=
  (self.name_range names).getD []

/-- The name as text, empty when its bytes are not UTF-8. -/
def CompactRecord.name (self : CompactRecord) (names : List UInt8) : Str :=
  (from_utf8 (self.name_bytes names)).getD []

/-- A row with a name is live. -/
theorem CompactRecord.live_of_name {names : List UInt8} {rec : CompactRecord} (hname : rec.name names ≠ []) : rec.Live := by
  intro hdead
  apply hname
  have hbytes : rec.name_bytes names = [] := by
    simp only [CompactRecord.name_bytes, CompactRecord.name_range, lib.slice?, hdead]
    split <;> simp
  rw [CompactRecord.name, hbytes]
  decide

/-- The name range of the row lies inside the blob. -/
def CompactRecord.InRange (self : CompactRecord) (names : List UInt8) : Prop :=
  self.name_offset.toNat + self.name_len.toNat ≤ names.length

theorem CompactRecord.InRange.append {self : CompactRecord} {names : List UInt8}
    (hrange : self.InRange names) (tail : List UInt8) : self.InRange (names ++ tail) := by
  unfold InRange at *
  rw [List.length_append]
  omega

theorem CompactRecord.name_range_append {self : CompactRecord} {names tail : List UInt8}
    (hrange : self.InRange names) : self.name_range (names ++ tail) = self.name_range names :=
  lib.slice?_append hrange

private theorem and_mask_toNat (value : UInt64) : (value &&& FRS_MASK).toNat = value.toNat % 2 ^ 48 := by
  rw [UInt64.toNat_and]
  exact Nat.and_two_pow_sub_one_eq_mod _ 48

theorem CompactRecord.frs_lt (self : CompactRecord) : self.frs.toNat < 2 ^ 48 := by
  rw [frs, and_mask_toNat]
  exact Nat.mod_lt _ (by decide)

/-- Packing keeps a record number of 48 bits. -/
theorem frs_pack_file_reference {frs : UInt64} (sequence_number : UInt16) (hfrs : frs.toNat < 2 ^ 48) :
    pack_file_reference frs sequence_number &&& FRS_MASK = frs := by
  apply UInt64.toNat.inj
  rw [and_mask_toNat, pack_file_reference, UInt64.toNat_or, and_mask_toNat]
  apply Nat.eq_of_testBit_eq
  intro i
  rw [Nat.testBit_mod_two_pow, Nat.testBit_or, Nat.testBit_mod_two_pow]
  by_cases hi : i < 48
  · have hshift : (sequence_number.toUInt64 <<< 48).toNat.testBit i = false := by
      have hfar : ¬ 48 ≤ i := Nat.not_le.mpr hi
      rw [UInt64.toNat_shiftLeft, Nat.testBit_mod_two_pow]
      change (decide (i < 64) && (sequence_number.toUInt64.toNat <<< 48).testBit i) = false
      rw [Nat.testBit_shiftLeft]
      simp [hfar]
    rw [hshift]
    simp [hi]
  · have hhigh : frs.toNat.testBit i = false :=
      Nat.testBit_lt_two_pow (lt_of_lt_of_le hfrs (Nat.pow_le_pow_right (by decide) (Nat.le_of_not_lt hi)))
    simp [hi, hhigh]

end uffs.compact
