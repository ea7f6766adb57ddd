import Uffs.Mft.Segment

open uffs.lib

namespace uffs.mft

/-! The update sequence array of a record: how it protects the ends of sectors and how it is taken off again. -/

def SECTOR_SIZE : Nat := 512

structure MultiSectorHeader where
  magic : UInt32
  usa_offset : UInt16
  usa_count : UInt16
deriving DecidableEq

def MULTI_SECTOR_HEADER_SIZE : Nat := 8

def MultiSectorHeader.read_from_prefix (data : List UInt8) : MultiSectorHeader where
  magic := rd_u32 data 0
  usa_offset := rd_u16 data 4
  usa_count := rd_u16 data 6

section code

/-- `data[start]` and the byte behind it; `none` where that is out of range. -/
def read_pair (data : List UInt8) (start : Nat) : Option (UInt8 × UInt8) := do
  let low ← data[start]?
  let high ← data[start + 1]?
  return (low, high)

/-- `data[index] = byte`; `none` where that is out of range. -/
def write_byte (data : List UInt8) (index : Nat) (byte : UInt8) : Option (List UInt8) :=
  if index < data.length then some (data.set index byte) else none

/-- The original end of a sector copied back, byte after byte. -/
def restore_end (data : List UInt8) (sector_end usa_entry_offset : Nat) : Option (List UInt8) := do
  let low ← data[usa_entry_offset]?
  let data ← write_byte data sector_end low
  let high ← data[usa_entry_offset + 1]?
  write_byte data (sector_end + 1) high

/-- The loop over the entries of the array, the next one and how many are left. -/
def fix_sectors (usa_offset : Nat) (check_value : UInt8 × UInt8) :
    (left idx : Nat) → List UInt8 → Option (Bool × List UInt8)
  | 0, _, data => some (true, data)
  | left + 1, idx, data =>
    let sector_end := idx * SECTOR_SIZE - 2
    if data.length < sector_end + 2 then some (true, data)
    else do
      let current_value ← read_pair data sector_end
      if current_value ≠ check_value then some (false, data)
      else
        let restored ← restore_end data sector_end (usa_offset + idx * 2)
        fix_sectors usa_offset check_value left (idx + 1) restored

/-- Whether the fixup went through, and the buffer it leaves; `none` where the code indexes out of range. -/
def apply_fixup (data : List UInt8) : Option (Bool × List UInt8) :=
  if data.length < MULTI_SECTOR_HEADER_SIZE then some (false, data)
  else
    let header := MultiSectorHeader.read_from_prefix data
    if header.magic ≠ FILE_RECORD_MAGIC then some (false, data)
    else
      let usa_offset := header.usa_offset.toNat
      let usa_count := header.usa_count.toNat
      if usa_count < 2 then some (false, data)
      else if data.length < usa_offset + usa_count * 2 then some (false, data)
      else do
        let check_value ← read_pair data usa_offset
        fix_sectors usa_offset check_value (usa_count - 1) 1 data

end code

variable {index : Nat}

section sectors

variable {data restored out : List UInt8} {check : UInt8 × UInt8}

/-- The index is one of the last two bytes of a sector, counted from 1. -/
def IsEnd (sector index : Nat) : Prop := index + 2 = sector * SECTOR_SIZE ∨ index + 1 = sector * SECTOR_SIZE

/-- The sector lies in the buffer and ends with the value. -/
def EndsWith (data : List UInt8) (sector : Nat) (value : UInt8 × UInt8) : Prop :=
  sector * SECTOR_SIZE ≤ data.length ∧ data[sector * SECTOR_SIZE - 2]? = some value.1 ∧
    data[sector * SECTOR_SIZE - 1]? = some value.2

theorem IsEnd.unique {sector other : Nat} (h : IsEnd sector index) (hother : IsEnd other index) : sector = other := by
  unfold IsEnd SECTOR_SIZE at h hother
  omega

theorem read_pair_isSome {start : Nat} (h : start + 1 < data.length) : ∃ pair, read_pair data start = some pair :=
  ⟨(data[start], data[start + 1]), by simp [read_pair, List.getElem?_eq_getElem (show start < data.length by omega), h]⟩

theorem read_pair_eq_some {start : Nat} {pair : UInt8 × UInt8} :
    read_pair data start = some pair ↔ data[start]? = some pair.1 ∧ data[start + 1]? = some pair.2 := by
  simp only [read_pair, Option.bind_eq_bind, Option.bind_eq_some_iff, Option.pure_def, Option.some.injEq]
  constructor
  · rintro ⟨low, hlow, high, hhigh, rfl⟩
    exact ⟨hlow, hhigh⟩
  · rintro ⟨hlow, hhigh⟩
    exact ⟨_, hlow, _, hhigh, rfl⟩

theorem endsWith_iff {sector : Nat} (hpos : 0 < sector) (hin : sector * SECTOR_SIZE ≤ data.length) :
    EndsWith data sector check ↔ read_pair data (sector * SECTOR_SIZE - 2) = some check := by
  have hnext : sector * SECTOR_SIZE - 2 + 1 = sector * SECTOR_SIZE - 1 := by
    unfold SECTOR_SIZE
    omega
  rw [read_pair_eq_some, hnext, EndsWith, and_iff_right hin]

section restoring

variable {sector usa_entry_offset : Nat}

theorem restore_end_isSome (hend : sector + 1 < data.length) (hentry : usa_entry_offset + 1 < data.length) :
    ∃ restored, restore_end data sector usa_entry_offset = some restored := by
  have hlow : usa_entry_offset < data.length := by omega
  have hsector : sector < data.length := by omega
  have hentry' : usa_entry_offset + 1 < (data.set sector data[usa_entry_offset]).length := by simpa using hentry
  refine ⟨(data.set sector data[usa_entry_offset]).set (sector + 1)
    (data.set sector data[usa_entry_offset])[usa_entry_offset + 1], ?_⟩
  simp [restore_end, write_byte, hlow, hsector, hend, hentry]

section

variable (h : restore_end data sector usa_entry_offset = some restored)

include h

theorem length_restore_end : restored.length = data.length := by
  simp only [restore_end, write_byte, Option.bind_eq_bind, Option.bind_eq_some_iff] at h
  obtain ⟨low, -, first, hfirst, high, -, hsecond⟩ := h
  split at hfirst <;> split at hsecond <;> cases hfirst <;> cases hsecond
  simp

/-- Nothing but the end of the sector is written. -/
theorem getElem?_restore_end (hlow : index ≠ sector) (hhigh : index ≠ sector + 1) :
    restored[index]? = data[index]? := by
  simp only [restore_end, write_byte, Option.bind_eq_bind, Option.bind_eq_some_iff] at h
  obtain ⟨low, -, first, hfirst, high, -, hsecond⟩ := h
  split at hfirst <;> split at hsecond <;> cases hfirst <;> cases hsecond
  rw [List.getElem?_set_ne (Ne.symm hhigh), List.getElem?_set_ne (Ne.symm hlow)]

/-- Where the entry does not overlap the end of the sector, the end becomes the entry. -/
theorem restore_end_entry (hapart : usa_entry_offset + 1 < sector) :
    restored[sector]? = data[usa_entry_offset]? ∧ restored[sector + 1]? = data[usa_entry_offset + 1]? := by
  simp only [restore_end, write_byte, Option.bind_eq_bind, Option.bind_eq_some_iff] at h
  obtain ⟨low, hlow, first, hfirst, high, hhigh, hsecond⟩ := h
  split at hfirst <;> split at hsecond <;> cases hfirst <;> cases hsecond
  next hin hin' =>
    rw [List.getElem?_set_ne (by omega)] at hhigh
    constructor
    · rw [List.getElem?_set_ne (by omega), List.getElem?_set_self hin, hlow]
    · rw [List.getElem?_set_self hin', hhigh]

end

end restoring

section loop

variable {usa_offset left idx : Nat} {ok : Bool}

theorem fix_sectors_isSome (h : usa_offset + (idx + left) * 2 ≤ data.length) :
    ∃ result, fix_sectors usa_offset check left idx data = some result := by
  induction left generalizing idx data with
  | zero => exact ⟨_, rfl⟩
  | succ left ih =>
    simp only [fix_sectors]
    split
    · exact ⟨_, rfl⟩
    · next hin =>
      obtain ⟨current_value, hcurrent⟩ : ∃ pair, read_pair data (idx * SECTOR_SIZE - 2) = some pair :=
        read_pair_isSome (by omega)
      rw [hcurrent, Option.bind_eq_bind, Option.bind_some]
      split
      · exact ⟨_, rfl⟩
      · obtain ⟨restored, hrestored⟩ : ∃ restored, restore_end data (idx * SECTOR_SIZE - 2) (usa_offset + idx * 2) = some restored :=
          restore_end_isSome (by omega) (by omega)
        rw [hrestored, Option.bind_eq_bind, Option.bind_some]
        apply ih
        rw [length_restore_end hrestored]
        omega

/-- One turn of the loop: it stops behind the buffer or at a torn sector, or goes on with the end restored. -/
theorem fix_sectors_cases {result : Bool × List UInt8} (hpos : 0 < idx)
    (h : fix_sectors usa_offset check (left + 1) idx data = some result) :
    (data.length < idx * SECTOR_SIZE ∧ result = (true, data)) ∨
    (idx * SECTOR_SIZE ≤ data.length ∧ ¬EndsWith data idx check ∧ result = (false, data)) ∨
    EndsWith data idx check ∧ ∃ restored, restore_end data (idx * SECTOR_SIZE - 2) (usa_offset + idx * 2) = some restored ∧
      fix_sectors usa_offset check left (idx + 1) restored = some result := by
  have hsector : 2 ≤ idx * SECTOR_SIZE := by
    unfold SECTOR_SIZE
    omega
  simp only [fix_sectors] at h
  split at h
  · next hout => exact Or.inl ⟨by omega, (Option.some.inj h).symm⟩
  · next hin =>
    have hle : idx * SECTOR_SIZE ≤ data.length := by omega
    obtain ⟨current_value, hcurrent, h⟩ := Option.bind_eq_some_iff.mp h
    have hends := @endsWith_iff data check idx hpos hle
    rw [hcurrent, Option.some.injEq] at hends
    split at h
    · next htorn => exact Or.inr (Or.inl ⟨hle, fun hmatch => htorn (hends.mp hmatch), (Option.some.inj h).symm⟩)
    · next hmatch =>
      obtain ⟨restored, hrestored, h⟩ := Option.bind_eq_some_iff.mp h
      exact Or.inr (Or.inr ⟨hends.mpr (not_not.mp hmatch), restored, hrestored, h⟩)

section

variable (hrestored : restore_end data (idx * SECTOR_SIZE - 2) usa_offset = some restored) (hpos : 0 < idx)

include hrestored hpos

theorem getElem?_restored (h : ¬IsEnd idx index) : restored[index]? = data[index]? := by
  unfold IsEnd SECTOR_SIZE at h
  unfold SECTOR_SIZE at hrestored
  exact getElem?_restore_end hrestored (by omega) (by omega)

theorem endsWith_restored {sector : Nat} (hlater : idx < sector) :
    EndsWith restored sector check ↔ EndsWith data sector check := by
  have hkept : ∀ index, IsEnd sector index → restored[index]? = data[index]? := fun index hend =>
    getElem?_restored hrestored hpos fun hsame => hlater.ne (hsame.unique hend)
  have hlow : IsEnd sector (sector * SECTOR_SIZE - 2) := Or.inl (by unfold SECTOR_SIZE; omega)
  have hhigh : IsEnd sector (sector * SECTOR_SIZE - 1) := Or.inr (by unfold SECTOR_SIZE; omega)
  rw [EndsWith, EndsWith, length_restore_end hrestored, hkept _ hlow, hkept _ hhigh]

end

theorem length_fix_sectors (hpos : 0 < idx) (h : fix_sectors usa_offset check left idx data = some (ok, out)) :
    out.length = data.length := by
  induction left generalizing idx data with
  | zero =>
    cases h
    rfl
  | succ left ih =>
    rcases fix_sectors_cases hpos h with ⟨-, heq⟩ | ⟨-, -, heq⟩ | ⟨-, restored, hrestored, hrest⟩
    · cases heq
      rfl
    · cases heq
      rfl
    · rw [ih (Nat.succ_pos idx) hrest, length_restore_end hrestored]

/-- Only ends of sectors change, and none behind the first torn sector. -/
theorem fix_sectors_changes (hpos : 0 < idx) (h : fix_sectors usa_offset check left idx data = some (ok, out)) (hchanged : out[index]? ≠ data[index]?) :
    ∃ sector, idx ≤ sector ∧ sector < idx + left ∧ IsEnd sector index ∧
      ∀ earlier, idx ≤ earlier → earlier ≤ sector → EndsWith data earlier check := by
  induction left generalizing idx data with
  | zero =>
    cases h
    exact absurd rfl hchanged
  | succ left ih =>
    rcases fix_sectors_cases hpos h with ⟨-, heq⟩ | ⟨-, -, heq⟩ | ⟨hmatch, restored, hrestored, hrest⟩
    · cases heq
      exact absurd rfl hchanged
    · cases heq
      exact absurd rfl hchanged
    · by_cases hend : IsEnd idx index
      · refine ⟨idx, le_refl idx, by omega, hend, fun earlier hle hge => ?_⟩
        rw [Nat.le_antisymm hge hle]
        exact hmatch
      · rw [← getElem?_restored hrestored hpos hend] at hchanged
        obtain ⟨sector, hle, hlt, hin, hall⟩ := ih (Nat.succ_pos idx) hrest hchanged
        refine ⟨sector, by omega, by omega, hin, fun earlier hfrom hto => ?_⟩
        rcases Nat.eq_or_lt_of_le hfrom with rfl | hlater
        · exact hmatch
        · exact (endsWith_restored hrestored hpos hlater).mp (hall earlier hlater hto)

/-- A fixup that goes through has seen the check value at the end of every sector it covers. -/
theorem fix_sectors_ends (hpos : 0 < idx) (h : fix_sectors usa_offset check left idx data = some (true, out))
    {sector : Nat} (hfrom : idx ≤ sector) (hto : sector < idx + left) (hin : sector * SECTOR_SIZE ≤ data.length) :
    EndsWith data sector check := by
  induction left generalizing idx data with
  | zero => omega
  | succ left ih =>
    rcases fix_sectors_cases hpos h with ⟨hout, -⟩ | ⟨-, -, heq⟩ | ⟨hmatch, restored, hrestored, hrest⟩
    · unfold SECTOR_SIZE at hout hin
      omega
    · cases heq
    · rcases Nat.eq_or_lt_of_le hfrom with rfl | hlater
      · exact hmatch
      · rw [← endsWith_restored hrestored hpos hlater]
        apply ih (Nat.succ_pos idx) hrest hlater (by omega)
        rw [length_restore_end hrestored]
        exact hin

/-- An array in front of all ends of sectors puts its entries there. -/
theorem fix_sectors_entries (hpos : 0 < idx) (hapart : usa_offset + (idx + left) * 2 ≤ SECTOR_SIZE - 2)
    (hends : ∀ sector, idx ≤ sector → sector < idx + left → EndsWith data sector check) :
    ∃ out, fix_sectors usa_offset check left idx data = some (true, out) ∧
      ∀ sector, idx ≤ sector → sector < idx + left →
        out[sector * SECTOR_SIZE - 2]? = data[usa_offset + sector * 2]? ∧
          out[sector * SECTOR_SIZE - 1]? = data[usa_offset + sector * 2 + 1]? := by
  induction left generalizing idx data with
  | zero => exact ⟨data, rfl, fun sector hle hlt => by omega⟩
  | succ left ih =>
    have hmatch := hends idx (le_refl idx) (by omega)
    have hin := hmatch.1
    have hsize : SECTOR_SIZE ≤ idx * SECTOR_SIZE := Nat.le_mul_of_pos_left _ hpos
    obtain ⟨result, hrun⟩ : ∃ result, fix_sectors usa_offset check (left + 1) idx data = some result :=
      fix_sectors_isSome (by omega)
    rcases fix_sectors_cases hpos hrun with ⟨hout, -⟩ | ⟨-, htorn, -⟩ | ⟨-, restored, hrestored, hrest⟩
    · omega
    · exact absurd hmatch htorn
    · have hlater : ∀ sector, idx + 1 ≤ sector → sector < idx + 1 + left → EndsWith restored sector check := fun sector hle hlt =>
        (endsWith_restored hrestored hpos hle).mpr (hends sector (by omega) (by omega))
      obtain ⟨out, hout, hentries⟩ := ih (Nat.succ_pos idx) (by omega) hlater
      rw [hout] at hrest
      refine ⟨out, hrun.trans hrest.symm, fun sector hle hlt => ?_⟩
      have hentry : ∀ index, index < SECTOR_SIZE - 2 → restored[index]? = data[index]? := fun index hindex =>
        getElem?_restored hrestored hpos (by unfold IsEnd; omega)
      rcases Nat.eq_or_lt_of_le hle with rfl | hlater
      · obtain ⟨hlow, hhigh⟩ := restore_end_entry hrestored (by omega)
        have hkept : ∀ index, IsEnd idx index → out[index]? = restored[index]? := by
          intro index hend
          by_contra hchanged
          obtain ⟨sector, hfrom, -, hother, -⟩ := fix_sectors_changes (Nat.succ_pos idx) hout hchanged
          rw [hend.unique hother] at hfrom
          omega
        have hnext : idx * SECTOR_SIZE - 2 + 1 = idx * SECTOR_SIZE - 1 := by omega
        rw [hnext] at hhigh
        rw [hkept _ (Or.inl (by omega)), hkept _ (Or.inr (by omega))]
        exact ⟨hlow, hhigh⟩
      · obtain ⟨hlow, hhigh⟩ := hentries sector hlater (by omega)
        rw [hlow, hhigh, hentry _ (by omega), hentry _ (by omega)]
        exact ⟨rfl, rfl⟩

end loop

end sectors

section protection

/-- The low byte of a word, or the high one. -/
def word_byte (word : UInt16) (position : Nat) : UInt8 := if position = 0 then word.toUInt8 else (word >>> 8).toUInt8

/-- A record of whole sectors whose header announces an array with one entry for each, in front of the first end. -/
structure SectorRecord where
  bytes : List UInt8
  sectors : Nat
  sectors_pos : 0 < sectors
  whole : bytes.length = sectors * SECTOR_SIZE
  magic : (MultiSectorHeader.read_from_prefix bytes).magic = FILE_RECORD_MAGIC
  count : (MultiSectorHeader.read_from_prefix bytes).usa_count.toNat = sectors + 1
  behind_header : MULTI_SECTOR_HEADER_SIZE ≤ (MultiSectorHeader.read_from_prefix bytes).usa_offset.toNat
  before_end : (MultiSectorHeader.read_from_prefix bytes).usa_offset.toNat + (sectors + 1) * 2 ≤ SECTOR_SIZE - 2

namespace SectorRecord

def usa_offset (record : SectorRecord) : Nat := (MultiSectorHeader.read_from_prefix record.bytes).usa_offset.toNat

def in_array (record : SectorRecord) (index : Nat) : Bool :=
  record.usa_offset ≤ index && index < record.usa_offset + (record.sectors + 1) * 2

/-- The record with its array filled: the update sequence number, then the ends of the sectors. -/
def stamp (record : SectorRecord) (usn : UInt16) : List UInt8 :=
  record.bytes.mapIdx fun index byte =>
    let position := index - record.usa_offset
    if !record.in_array index then byte
    else if position < 2 then word_byte usn position
    else record.bytes[position / 2 * SECTOR_SIZE - 2 + position % 2]?.getD 0

/-- What NTFS writes: the array filled, and the update sequence number at the end of every sector. -/
def protect (record : SectorRecord) (usn : UInt16) : List UInt8 :=
  (record.stamp usn).mapIdx fun index byte =>
    if SECTOR_SIZE - 2 ≤ index % SECTOR_SIZE then word_byte usn (index % SECTOR_SIZE - (SECTOR_SIZE - 2)) else byte

variable (record : SectorRecord) (usn : UInt16)

@[simp] theorem length_stamp : (record.stamp usn).length = record.bytes.length := List.length_mapIdx

@[simp] theorem length_protect : (record.protect usn).length = record.bytes.length := by simp [protect]

theorem getElem?_stamp (h : record.in_array index = false) :
    (record.stamp usn)[index]? = record.bytes[index]? := by
  rw [stamp, List.getElem?_mapIdx]
  simp [h]

/-- Entry `sector` of the array is the end of that sector. -/
theorem stamp_entry {sector position : Nat} (hpos : 0 < sector) (hlt : sector < record.sectors + 1) (hposition : position < 2) :
    (record.stamp usn)[record.usa_offset + sector * 2 + position]? =
      record.bytes[sector * SECTOR_SIZE - 2 + position]? := by
  have hbefore := record.before_end
  have hend : sector * SECTOR_SIZE ≤ record.sectors * SECTOR_SIZE := Nat.mul_le_mul_right _ (by omega)
  have hfirst : SECTOR_SIZE ≤ sector * SECTOR_SIZE := Nat.le_mul_of_pos_left _ hpos
  change record.usa_offset + (record.sectors + 1) * 2 ≤ SECTOR_SIZE - 2 at hbefore
  have hwhole := record.whole
  have hin : record.usa_offset + sector * 2 + position < record.bytes.length := by omega
  have hfrom : sector * SECTOR_SIZE - 2 + position < record.bytes.length := by omega
  have harray : record.in_array (record.usa_offset + sector * 2 + position) = true := by
    rw [in_array, Bool.and_eq_true, decide_eq_true_eq, decide_eq_true_eq]
    omega
  have hoffset : record.usa_offset + sector * 2 + position - record.usa_offset = sector * 2 + position := by omega
  have hentry : (sector * 2 + position) / 2 = sector ∧ (sector * 2 + position) % 2 = position := by omega
  rw [stamp, List.getElem?_mapIdx, List.getElem?_eq_getElem hin, Option.map_some, harray, hoffset]
  simp only [Bool.not_true, Bool.false_eq_true, if_false]
  rw [if_neg (by omega), hentry.1, hentry.2, List.getElem?_eq_getElem hfrom, Option.getD_some]

theorem stamp_check {position : Nat} (hposition : position < 2) :
    (record.stamp usn)[record.usa_offset + position]? = some (word_byte usn position) := by
  have hbefore := record.before_end
  have hsize : SECTOR_SIZE ≤ record.sectors * SECTOR_SIZE := Nat.le_mul_of_pos_left _ record.sectors_pos
  change record.usa_offset + (record.sectors + 1) * 2 ≤ SECTOR_SIZE - 2 at hbefore
  have hin : record.usa_offset + position < record.bytes.length := by
    rw [record.whole]
    omega
  have harray : record.in_array (record.usa_offset + position) = true := by
    rw [in_array, Bool.and_eq_true, decide_eq_true_eq, decide_eq_true_eq]
    omega
  rw [stamp, List.getElem?_mapIdx, List.getElem?_eq_getElem hin, Option.map_some, harray, Nat.add_sub_cancel_left]
  simp [hposition]

theorem getElem?_protect (h : index % SECTOR_SIZE < SECTOR_SIZE - 2) :
    (record.protect usn)[index]? = (record.stamp usn)[index]? := by
  rw [protect, List.getElem?_mapIdx]
  simp [show ¬SECTOR_SIZE - 2 ≤ index % SECTOR_SIZE by omega]

theorem protect_end {sector position : Nat} (hpos : 0 < sector) (hlt : sector < record.sectors + 1) (hposition : position < 2) :
    (record.protect usn)[sector * SECTOR_SIZE - 2 + position]? = some (word_byte usn position) := by
  have hin : sector * SECTOR_SIZE - 2 + position < (record.stamp usn).length := by
    rw [length_stamp, record.whole]
    unfold SECTOR_SIZE at *
    omega
  have hmod : (sector * SECTOR_SIZE - 2 + position) % SECTOR_SIZE = SECTOR_SIZE - 2 + position := by
    unfold SECTOR_SIZE
    omega
  rw [protect, List.getElem?_mapIdx, List.getElem?_eq_getElem hin, Option.map_some, hmod, if_pos (Nat.le_add_right _ _),
    Nat.add_sub_cancel_left]

theorem protect_endsWith {sector : Nat} (hpos : 0 < sector) (hlt : sector < record.sectors + 1) :
    EndsWith (record.protect usn) sector (word_byte usn 0, word_byte usn 1) := by
  have hend : sector * SECTOR_SIZE ≤ record.sectors * SECTOR_SIZE := Nat.mul_le_mul_right _ (by omega)
  have hlast : sector * SECTOR_SIZE - 2 + 1 = sector * SECTOR_SIZE - 1 := by
    unfold SECTOR_SIZE
    omega
  refine ⟨by rw [length_protect, record.whole]; exact hend, ?_, ?_⟩
  · exact record.protect_end usn hpos hlt Nat.zero_lt_two
  · rw [← hlast]
    exact record.protect_end usn hpos hlt Nat.one_lt_two

/-- The header is not among the protected bytes. -/
theorem read_from_prefix_protect :
    MultiSectorHeader.read_from_prefix (record.protect usn) = MultiSectorHeader.read_from_prefix record.bytes := by
  have hbehind := record.behind_header
  have hsize : SECTOR_SIZE ≤ record.sectors * SECTOR_SIZE := Nat.le_mul_of_pos_left _ record.sectors_pos
  have hwhole := record.whole
  have htake : (record.protect usn).take MULTI_SECTOR_HEADER_SIZE = record.bytes.take MULTI_SECTOR_HEADER_SIZE := by
    apply List.ext_getElem?
    intro index
    by_cases hindex : index < MULTI_SECTOR_HEADER_SIZE
    · have hmod : index % SECTOR_SIZE < SECTOR_SIZE - 2 := by
        unfold SECTOR_SIZE MULTI_SECTOR_HEADER_SIZE at *
        omega
      have hout : record.in_array index = false := by
        rw [in_array, Bool.and_eq_false_iff, decide_eq_false_iff_not]
        exact Or.inl (by unfold usa_offset; omega)
      rw [List.getElem?_take_of_lt hindex, List.getElem?_take_of_lt hindex, record.getElem?_protect usn hmod,
        record.getElem?_stamp usn hout]
    · rw [List.getElem?_take_eq_none (by omega), List.getElem?_take_eq_none (by omega)]
  have hslice : ∀ start stop, stop ≤ MULTI_SECTOR_HEADER_SIZE →
      slice? (record.protect usn) start stop = slice? record.bytes start stop := by
    intro start stop hstop
    have hfits : MULTI_SECTOR_HEADER_SIZE ≤ record.bytes.length := by
      unfold SECTOR_SIZE MULTI_SECTOR_HEADER_SIZE at *
      omega
    have hfront : ∀ data : List UInt8, MULTI_SECTOR_HEADER_SIZE ≤ data.length →
        slice? data start stop = slice? (data.take MULTI_SECTOR_HEADER_SIZE) start stop := by
      intro data hdata
      conv_lhs => rw [← List.take_append_drop MULTI_SECTOR_HEADER_SIZE data]
      apply slice?_append
      rw [List.length_take]
      omega
    rw [hfront _ (by rw [length_protect]; exact hfits), hfront _ hfits, htake]
  simp only [MultiSectorHeader.read_from_prefix, rd_u32, rd_u16, rd]
  rw [hslice 0 _ (by decide), hslice 4 _ (by decide), hslice 6 _ (by decide)]

theorem apply_fixup_protect : apply_fixup (record.protect usn) = some (true, record.stamp usn) := by
  have hbefore := record.before_end
  have hsize : SECTOR_SIZE ≤ record.sectors * SECTOR_SIZE := Nat.le_mul_of_pos_left _ record.sectors_pos
  have hwhole := record.whole
  have hpos := record.sectors_pos
  have hcheck : read_pair (record.protect usn) record.usa_offset = some (word_byte usn 0, word_byte usn 1) := by
    have hplain : ∀ position, position < 2 →
        (record.protect usn)[record.usa_offset + position]? = some (word_byte usn position) := by
      intro position hposition
      rw [record.getElem?_protect usn (by unfold usa_offset SECTOR_SIZE at *; omega), record.stamp_check usn hposition]
    exact read_pair_eq_some.mpr ⟨hplain 0 Nat.zero_lt_two, hplain 1 Nat.one_lt_two⟩
  have hends : ∀ sector, 1 ≤ sector → sector < 1 + record.sectors →
      EndsWith (record.protect usn) sector (word_byte usn 0, word_byte usn 1) := fun sector hfrom hto =>
    record.protect_endsWith usn hfrom (by omega)
  obtain ⟨out, hout, hentries⟩ := fix_sectors_entries Nat.one_pos
    (by unfold usa_offset at *; omega : record.usa_offset + (1 + record.sectors) * 2 ≤ SECTOR_SIZE - 2) hends
  have hrestored : out = record.stamp usn := by
    apply List.ext_getElem?
    intro index
    by_cases hmod : index % SECTOR_SIZE < SECTOR_SIZE - 2
    · have hkept : out[index]? = (record.protect usn)[index]? := by
        by_contra hchanged
        obtain ⟨sector, -, -, hend, -⟩ := fix_sectors_changes Nat.one_pos hout hchanged
        unfold IsEnd SECTOR_SIZE at *
        omega
      rw [hkept, record.getElem?_protect usn hmod]
    · by_cases hin : index < record.bytes.length
      · obtain ⟨sector, position, hpositive, hle, hposition, rfl⟩ : ∃ sector position, 0 < sector ∧
            sector < record.sectors + 1 ∧ position < 2 ∧ index = sector * SECTOR_SIZE - 2 + position := by
          refine ⟨index / SECTOR_SIZE + 1, index % SECTOR_SIZE - (SECTOR_SIZE - 2), Nat.succ_pos _, ?_, ?_, ?_⟩ <;>
            unfold SECTOR_SIZE at * <;> omega
        have hfirst : SECTOR_SIZE ≤ sector * SECTOR_SIZE := Nat.le_mul_of_pos_left _ hpositive
        have hlast : sector * SECTOR_SIZE - 2 + 1 = sector * SECTOR_SIZE - 1 := by
          unfold SECTOR_SIZE at *
          omega
        have hout : record.in_array (sector * SECTOR_SIZE - 2 + position) = false := by
          rw [in_array, Bool.and_eq_false_iff, decide_eq_false_iff_not, decide_eq_false_iff_not]
          exact Or.inr (by unfold usa_offset at *; omega)
        have hplace : record.usa_offset + sector * 2 + 1 < SECTOR_SIZE - 2 := by
          unfold usa_offset at *
          omega
        have hplain : ∀ place, place < SECTOR_SIZE - 2 →
            (record.protect usn)[place]? = (record.stamp usn)[place]? := fun place hlt =>
          record.getElem?_protect usn (by rwa [Nat.mod_eq_of_lt (by omega)])
        obtain ⟨hlow, hhigh⟩ := hentries sector hpositive (by omega)
        rw [record.getElem?_stamp usn hout, ← record.stamp_entry usn hpositive hle hposition]
        obtain rfl | rfl : position = 0 ∨ position = 1 := by omega
        · exact hlow.trans (hplain _ (by omega))
        · rw [hlast]
          exact hhigh.trans (hplain _ hplace)
      · rw [List.getElem?_eq_none (by rw [length_fix_sectors Nat.one_pos hout, length_protect]; omega),
          List.getElem?_eq_none (by rw [length_stamp]; omega)]
  have hcount := record.count
  simp only [apply_fixup, read_from_prefix_protect, record.magic, ne_eq, not_true_eq_false, if_false, hcount, length_protect]
  rw [if_neg (by unfold SECTOR_SIZE MULTI_SECTOR_HEADER_SIZE at *; omega), if_neg (by omega), if_neg (by omega)]
  change (do let check_value ← read_pair (record.protect usn) record.usa_offset; _) = _
  rw [hcheck, Option.bind_eq_bind, Option.bind_some, Nat.add_sub_cancel]
  exact hrestored ▸ hout

end SectorRecord

end protection

section fixup

variable {data out : List UInt8} {ok : Bool}

def usa_count (data : List UInt8) : Nat := (MultiSectorHeader.read_from_prefix data).usa_count.toNat

def check_value (data : List UInt8) : Option (UInt8 × UInt8) :=
  read_pair data (MultiSectorHeader.read_from_prefix data).usa_offset.toNat

/-- The sector ends with the value that the array begins with. -/
def Sound (data : List UInt8) (sector : Nat) : Prop := ∃ check, check_value data = some check ∧ EndsWith data sector check

theorem apply_fixup_isSome (data : List UInt8) : ∃ result, apply_fixup data = some result := by
  simp only [apply_fixup]
  split
  · exact ⟨_, rfl⟩
  · split
    · exact ⟨_, rfl⟩
    · split
      · exact ⟨_, rfl⟩
      · split
        · exact ⟨_, rfl⟩
        · next hcount hroom =>
          obtain ⟨check, hcheck⟩ : ∃ pair, read_pair data (MultiSectorHeader.read_from_prefix data).usa_offset.toNat = some pair :=
            read_pair_isSome (by omega)
          rw [hcheck, Option.bind_eq_bind, Option.bind_some]
          exact fix_sectors_isSome (by omega)

/-- Rejected before the loop with the buffer as it was, or what the loop makes of it. -/
theorem apply_fixup_cases (h : apply_fixup data = some (ok, out)) :
    (ok = false ∧ out = data) ∨ ∃ check, check_value data = some check ∧
      fix_sectors (MultiSectorHeader.read_from_prefix data).usa_offset.toNat check (usa_count data - 1) 1 data = some (ok, out) := by
  simp only [apply_fixup] at h
  split at h
  · cases h
    exact Or.inl ⟨rfl, rfl⟩
  · split at h
    · cases h
      exact Or.inl ⟨rfl, rfl⟩
    · split at h
      · cases h
        exact Or.inl ⟨rfl, rfl⟩
      · split at h
        · cases h
          exact Or.inl ⟨rfl, rfl⟩
        · obtain ⟨check, hcheck, hrun⟩ := Option.bind_eq_some_iff.mp h
          exact Or.inr ⟨check, hcheck, hrun⟩

theorem sound_of_fixed (h : apply_fixup data = some (true, out)) {sector : Nat} (hpos : 0 < sector)
    (hlt : sector < usa_count data) (hin : sector * SECTOR_SIZE ≤ data.length) : Sound data sector := by
  rcases apply_fixup_cases h with ⟨hfalse, -⟩ | ⟨check, hcheck, hrun⟩
  · cases hfalse
  · exact ⟨check, hcheck, fix_sectors_ends Nat.one_pos hrun hpos (by omega) hin⟩

theorem length_apply_fixup (h : apply_fixup data = some (ok, out)) : out.length = data.length := by
  rcases apply_fixup_cases h with ⟨-, rfl⟩ | ⟨check, -, hrun⟩
  · rfl
  · exact length_fix_sectors Nat.one_pos hrun

theorem apply_fixup_changes (h : apply_fixup data = some (ok, out)) (hchanged : out[index]? ≠ data[index]?) :
    ∃ sector, 0 < sector ∧ sector < usa_count data ∧ IsEnd sector index ∧
      ∀ earlier, 0 < earlier → earlier ≤ sector → Sound data earlier := by
  rcases apply_fixup_cases h with ⟨-, rfl⟩ | ⟨check, hcheck, hrun⟩
  · exact absurd rfl hchanged
  · obtain ⟨sector, hfrom, hto, hend, hall⟩ := fix_sectors_changes Nat.one_pos hrun hchanged
    exact ⟨sector, hfrom, by omega, hend, fun earlier hpos hle => ⟨check, hcheck, hall earlier hpos hle⟩⟩

/-- The fixup undoes the protection, never leaves the buffer, and vouches for the sectors its array covers; torn, it has
rewritten no more than the ends in front of the first torn one. -/
theorem apply_fixup_spec :
    (∀ (record : SectorRecord) (usn : UInt16), apply_fixup (record.protect usn) = some (true, record.stamp usn) ∧
      ∀ index, record.in_array index = false → (record.stamp usn)[index]? = record.bytes[index]?) ∧
    ∀ data, ∃ ok out, apply_fixup data = some (ok, out) ∧
      (ok = true → ∀ sector, 0 < sector → sector < usa_count data → sector * SECTOR_SIZE ≤ data.length → Sound data sector) ∧
      (ok = false → out.length = data.length ∧ ∀ index, out[index]? ≠ data[index]? →
        ∃ sector, 0 < sector ∧ sector < usa_count data ∧ IsEnd sector index ∧
          ∀ earlier, 0 < earlier → earlier ≤ sector → Sound data earlier) := by
  constructor
  · exact fun record usn => ⟨record.apply_fixup_protect usn, fun index hout => record.getElem?_stamp usn hout⟩
  · intro data
    obtain ⟨⟨ok, out⟩, hrun⟩ := apply_fixup_isSome data
    refine ⟨ok, out, hrun, fun hok sector hpos hlt hin => ?_, fun _ => ⟨length_apply_fixup hrun, fun index hchanged => ?_⟩⟩
    · subst hok
      exact sound_of_fixed hrun hpos hlt hin
    · exact apply_fixup_changes hrun hchanged

/-- Two sectors: the first ends with the check value 0, the second does not. -/
def half_torn (usa_count entry : UInt8) : List UInt8 :=
  [0x46, 0x49, 0x4C, 0x45, 48, 0, usa_count, 0] ++ List.replicate 40 0 ++ [0, 0, entry, entry] ++ List.replicate 970 0 ++ [1, 0]

/-- A record of these two sectors: its array at 48 has the check value and an entry for each. -/
def two_sectors : SectorRecord where
  bytes := half_torn 3 7
  sectors := 2
  sectors_pos := Nat.two_pos
  whole := by decide +kernel
  magic := by decide +kernel
  count := by decide +kernel
  behind_header := by decide +kernel
  before_end := by decide +kernel

/-- Its last byte but one, overwritten with a half of the number, comes back. -/
theorem apply_fixup_spec_two_sectors : (two_sectors.protect 0xABCD)[1022]? = some 0xCD ∧
    (two_sectors.stamp 0xABCD)[1022]? = some 1 ∧
    apply_fixup (two_sectors.protect 0xABCD) = some (true, two_sectors.stamp 0xABCD) := by
  obtain ⟨hundone, hkept⟩ := apply_fixup_spec.1 two_sectors 0xABCD
  have hlast : two_sectors.bytes[1022]? = some 1 := by decide +kernel
  have hout : two_sectors.in_array 1022 = false := by decide +kernel
  have hstamp : (two_sectors.stamp 0xABCD)[1022]? = some 1 := by rw [hkept 1022 hout, hlast]
  refine ⟨?_, hstamp, hundone⟩
  rw [SectorRecord.protect, List.getElem?_mapIdx, hstamp]
  decide

/-- An array with too few entries hides a torn sector, and a torn sector is found when one is rewritten. -/
theorem torn_passes_and_changes :
    (¬∀ data out, apply_fixup data = some (true, out) →
      ∀ sector, 0 < sector → sector * SECTOR_SIZE ≤ data.length → Sound data sector) ∧
    ¬∀ data out, apply_fixup data = some (false, out) → out = data := by
  constructor
  · intro hclaim
    obtain ⟨⟨ok, out⟩, hrun⟩ := apply_fixup_isSome (half_torn 2 0)
    obtain ⟨hok, hvalue, hend⟩ : (apply_fixup (half_torn 2 0)).map Prod.fst = some true ∧
        check_value (half_torn 2 0) = some (0, 0) ∧ (half_torn 2 0)[2 * SECTOR_SIZE - 2]? = some 1 := by decide +kernel
    rw [hrun, Option.map_some, Option.some.injEq] at hok
    obtain rfl : ok = true := hok
    obtain ⟨check, hcheck, -, hlow, -⟩ := hclaim _ _ hrun 2 Nat.two_pos (by decide +kernel)
    rw [hvalue, Option.some.injEq] at hcheck
    rw [hend, ← hcheck] at hlow
    cases hlow
  · intro hclaim
    obtain ⟨⟨ok, out⟩, hrun⟩ := apply_fixup_isSome (half_torn 3 7)
    have hok : (apply_fixup (half_torn 3 7)).map (fun result => (result.1, result.2[510]?)) = some (false, some 7) := by
      decide +kernel
    rw [hrun, Option.map_some, Option.some.injEq, Prod.mk.injEq] at hok
    obtain ⟨rfl, hchanged⟩ := hok
    have hbefore : (half_torn 3 7)[510]? = some 0 := by decide +kernel
    rw [hclaim _ _ hrun, hbefore] at hchanged
    cases hchanged

end fixup

end uffs.mft
