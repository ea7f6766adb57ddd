import Mathlib.Algebra.BigOperators.Ring.List
import Uffs.Mft.RawReload

open uffs.lib uffs.lib.bytes

namespace uffs.mft.raw

open raw_iocp

/-! When every record of a capture comes back. -/

section records

variable {loaded : RawMftData} {frs : UInt64}

theorem get_record_eq (h : (frs.toNat + 1) * loaded.header.record_size.toNat < 2 ^ 64) :
    loaded.get_record frs = .ok (slice? loaded.data (frs.toNat * loaded.header.record_size.toNat)
      (frs.toNat * loaded.header.record_size.toNat + loaded.header.record_size.toNat)) := by
  rw [Nat.succ_mul] at h
  rw [RawMftData.get_record, Checked.fits_eq (by omega), Checked.ok_bind, Checked.fits_eq h]
  rfl

/-- A record that is found is within the data. -/
theorem le_of_get_record {record : List UInt8} (h : loaded.get_record frs = .ok (some record)) :
    (frs.toNat + 1) * loaded.header.record_size.toNat ≤ loaded.data.length := by
  rw [RawMftData.get_record] at h
  obtain ⟨offset, hoffset, hrest⟩ := Checked.bind_eq_ok.mp h
  obtain ⟨stop, hstop, hslice⟩ := Checked.bind_eq_ok.mp hrest
  obtain ⟨_, rfl⟩ := Checked.fits_eq_ok.mp hoffset
  obtain ⟨_, rfl⟩ := Checked.fits_eq_ok.mp hstop
  rw [Checked.pure_eq, Checked.ok.injEq, slice?] at hslice
  split at hslice
  · rw [Nat.succ_mul]
    omega
  · cases hslice

theorem get_record_ne_panic :
    loaded.get_record frs ≠ .panic ↔ (frs.toNat + 1) * loaded.header.record_size.toNat < 2 ^ 64 := by
  refine ⟨fun h => ?_, fun h => ?_⟩
  · by_contra hbig
    rw [Nat.succ_mul] at hbig
    apply h
    rw [RawMftData.get_record]
    by_cases hoffset : frs.toNat * loaded.header.record_size.toNat < 2 ^ 64
    · rw [Checked.fits_eq hoffset, Checked.ok_bind, Checked.fits, if_neg hbig]
      rfl
    · rw [Checked.fits, if_neg hoffset]
      rfl
  · rw [get_record_eq h]
    exact Checked.ok_ne_panic

theorem iter_records_ne_panic : loaded.iter_records ≠ .panic ↔ loaded.header.record_size ≠ 0 := by
  have hzero : loaded.header.record_size.toNat = 0 ↔ loaded.header.record_size = 0 := by
    rw [← UInt32.toNat_inj]
    rfl
  rw [RawMftData.iter_records, ne_eq loaded.header.record_size, ← hzero]
  split
  case isTrue h => exact ⟨fun hne => absurd rfl hne, fun hne => absurd h hne⟩
  case isFalse h => exact ⟨fun _ => h, nofun⟩

end records

namespace Capture

variable (self : Capture)

/-- All records of the chunks. -/
def total : Nat := (self.chunks.map self.count).sum

variable {chunk : UInt64 × List UInt8}

theorem length_eq (h : chunk ∈ self.chunks) : chunk.2.length = self.count chunk * self.record_size.toNat :=
  (Nat.div_mul_cancel (self.whole chunk h)).symm

/-- Every record has a number. -/
theorem toNat_number (h : chunk ∈ self.chunks) {i : Nat} (hi : i < self.count chunk) :
    (UInt64.ofNat (chunk.1.toNat + i)).toNat = chunk.1.toNat + i := by
  have hnumbered : chunk.1.toNat + self.count chunk ≤ 2 ^ 64 := self.numbered chunk h
  apply UInt64.toNat_ofNat_of_lt
  rw [UInt64.size]
  omega

theorem size_eq : self.size = self.total * self.record_size.toNat := by
  rw [size, total, ← List.sum_map_mul_right]
  exact congrArg List.sum (List.map_congr_left fun chunk h => self.length_eq h)

/-- Only small chunks are counted right. -/
theorem small_of_le_counted (h : self.total ≤ self.counted) : ∀ chunk ∈ self.chunks, self.count chunk < 2 ^ 32 := by
  intro chunk hmem
  by_contra hbig
  have hlt : self.counted < self.total := by
    apply List.sum_lt_sum
    · exact fun other _ => Nat.min_le_left _ _
    · exact ⟨chunk, hmem, by omega⟩
  omega

theorem counted_eq (h : ∀ chunk ∈ self.chunks, self.count chunk < 2 ^ 32) : self.counted = self.total :=
  congrArg List.sum (List.map_congr_left fun chunk hmem => Nat.min_eq_left (Nat.le_sub_one_of_lt (h chunk hmem)))

theorem length_record (h : chunk ∈ self.chunks) {i : Nat} (hi : i < self.count chunk) :
    (self.record chunk i).length = self.record_size.toNat := by
  have hle := Nat.mul_le_mul_right self.record_size.toNat (Nat.succ_le_of_lt hi)
  rw [← self.length_eq h, Nat.succ_mul] at hle
  rw [record, List.length_take, List.length_drop]
  omega

theorem at_record (h : chunk ∈ self.chunks) {i : Nat} (hi : i < self.count chunk) :
    At chunk.2 (i * self.record_size.toNat) (self.record chunk i) := by
  have hle := Nat.mul_le_mul_right self.record_size.toNat (Nat.le_of_lt hi)
  rw [← self.length_eq h] at hle
  refine ⟨chunk.2.take (i * self.record_size.toNat),
    (chunk.2.drop (i * self.record_size.toNat)).drop self.record_size.toNat, ?_, ?_⟩
  · rw [record, List.append_assoc, List.take_append_drop, List.take_append_drop]
  · rw [List.length_take, Nat.min_eq_left hle]

/-- What the loader copies of a chunk. -/
def part (chunk : UInt64 × List UInt8) : UInt64 × UInt32 × List UInt8 :=
  (chunk.1, len_to_u32 (self.count chunk), chunk.2.take (2 ^ 32 - 1))

/-- The loader copies a part of every chunk. -/
theorem sorted_perm :
    ((sorted self).map fun (chunk, data) => (chunk.start_frs, chunk.record_count, data)).Perm (self.chunks.map self.part) := by
  have hkeys := congrArg (List.map fun (start, count, data) => (start, count, List.take (2 ^ 32 - 1) data))
    (keys_laid self.record_size.toNat 0 0 self.chunks)
  rw [List.map_map, List.map_map] at hkeys
  have hparts : self.chunks.map self.part = self.index.map fun item =>
      (item.1.start_frs, item.1.record_count, item.2.take (2 ^ 32 - 1)) := hkeys.symm
  rw [hparts, sorted]
  have hperm := ((List.mergeSort_perm (self.index.map fun item => (item.1, item.2.take (2 ^ 32 - 1)))
    fun a b => a.1.start_frs ≤ b.1.start_frs).map
      fun (item : CapturedChunk × List UInt8) => (item.1.start_frs, item.1.record_count, item.2))
  rw [List.map_map] at hperm
  exact hperm

/-- The records have no gap when they come back. -/
theorem dense_of_reloads {zstd : Zstd} (hzstd : zstd.Lossless) {options : IocpCaptureOptions} {load : LoadRawOptions}
    (hload : load.header_only = false) (h : self.Reloads zstd options load) : self.Dense := by
  obtain ⟨header, file, loaded, hwrite, hloaded, hfound⟩ := h
  rw [write_eq] at hwrite
  split at hwrite
  case isFalse => cases hwrite
  case isTrue hfits =>
    cases hwrite
    rw [load_written hzstd self options hload hfits.1 hfits.2] at hloaded
    split at hloaded
    case isTrue => cases hloaded
    case isFalse hroom =>
      rw [not_or, not_not] at hroom
      obtain ⟨data, hcopy, hdata⟩ := Checked.bind_eq_ok.mp hloaded
      cases hdata
      obtain ⟨hlength, hlands⟩ := lands_of_copy_chunks hcopy
      rw [List.length_replicate] at hlength
      have hpos := self.positive
      have hparts : ∀ chunk ∈ self.chunks,
          (chunk.2.take (2 ^ 32 - 1)).length = (len_to_u32 (self.count chunk)).toNat * self.record_size.toNat ∧
            chunk.1.toNat * self.record_size.toNat + (chunk.2.take (2 ^ 32 - 1)).length ≤
              self.counted * self.record_size.toNat := by
        intro chunk hmem
        obtain ⟨item, hitem, hpart⟩ := List.mem_map.mp (self.sorted_perm.mem_iff.mpr (List.mem_map_of_mem hmem))
        obtain ⟨hsized, hplaced⟩ := hlands item hitem
        rw [part, Prod.mk.injEq, Prod.mk.injEq] at hpart
        obtain ⟨hstart, hcount, htaken⟩ := hpart
        rw [place_of, hstart, htaken, List.length_replicate] at hplaced
        rw [htaken, hcount] at hsized
        exact ⟨hsized, hplaced⟩
      have hwithin : ∀ chunk ∈ self.chunks, chunk.1.toNat + self.count chunk ≤ self.counted := by
        intro chunk hmem
        rcases Nat.eq_zero_or_pos (self.count chunk) with hnone | hsome
        · obtain ⟨_, hplaced⟩ := hparts chunk hmem
          rw [hnone, Nat.add_zero]
          exact Nat.le_of_mul_le_mul_right (Nat.le_of_add_right_le hplaced) hpos
        · have hlast := le_of_get_record (hfound chunk hmem (self.count chunk - 1) (by omega))
          rw [self.toNat_number hmem (by omega), hlength] at hlast
          have hle := Nat.le_of_mul_le_mul_right hlast hpos
          omega
      have htotal : self.total ≤ self.counted := sum_le_of_apart hwithin self.apart
      have hsmall := self.small_of_le_counted htotal
      have hcounted := self.counted_eq hsmall
      refine ⟨hfits.1, ?_, ?_, ?_⟩
      · intro chunk hmem
        obtain ⟨hsized, _⟩ := hparts chunk hmem
        have hlt := hsmall chunk hmem
        rw [List.length_take, toNat_len_to_u32, Nat.min_eq_left (by omega : self.count chunk ≤ 2 ^ 32 - 1),
          ← self.length_eq hmem] at hsized
        omega
      · change self.size < 2 ^ 63
        rw [self.size_eq, ← hcounted]
        exact hroom.2
      · intro chunk hmem
        have hchunk := hwithin chunk hmem
        rw [hcounted] at hchunk
        exact hchunk

/-- Records without a gap come back. -/
theorem reloads_of_dense {zstd : Zstd} (hzstd : zstd.Lossless) {options : IocpCaptureOptions} {load : LoadRawOptions}
    (hload : load.header_only = false) (h : self.Dense) : self.Reloads zstd options load := by
  obtain ⟨hchunks, hsizes, hsize, hwithin⟩ := h
  have hcount : ∀ chunk ∈ self.chunks, self.count chunk < 2 ^ 32 := fun chunk hmem =>
    Nat.lt_of_le_of_lt (Nat.div_le_self _ _) (hsizes chunk hmem)
  have hcounted : self.counted = self.total := self.counted_eq hcount
  have hbytes : self.counted * self.record_size.toNat = self.size := by rw [hcounted, self.size_eq]
  have hsmall : self.size < 2 ^ 63 := hsize
  have hpart : ∀ chunk ∈ self.chunks, self.part chunk = (chunk.1, len_to_u32 (self.count chunk), chunk.2) := by
    intro chunk hmem
    rw [part, List.take_of_length_le (Nat.le_sub_one_of_lt (hsizes chunk hmem))]
  have hperm := self.sorted_perm
  rw [List.map_congr_left hpart] at hperm
  have hlands : ∀ item ∈ sorted self, Lands self.record_size.toNat
      (List.replicate (self.counted * self.record_size.toNat) 0) item := by
    intro item hitem
    obtain ⟨chunk, hmem, hchunk⟩ := List.mem_map.mp (hperm.mem_iff.mp (List.mem_map_of_mem hitem))
    rw [Prod.mk.injEq, Prod.mk.injEq] at hchunk
    obtain ⟨hstart, hrecords, hdata⟩ := hchunk
    have hmul := Nat.mul_le_mul_right self.record_size.toNat (hwithin chunk hmem)
    change _ ≤ self.total * _ at hmul
    rw [Nat.add_mul, ← self.length_eq hmem, ← hcounted] at hmul
    rw [Lands, place_of, ← hstart, ← hrecords, ← hdata, List.length_replicate, len_to_u32_toNat (hcount chunk hmem)]
    exact ⟨self.length_eq hmem, hmul⟩
  have hapart : (sorted self).Pairwise fun a b =>
      place_of self.record_size.toNat a + a.2.length ≤ place_of self.record_size.toNat b ∨
        place_of self.record_size.toNat b + b.2.length ≤ place_of self.record_size.toNat a := by
    have hparts : (self.chunks.map fun chunk => (chunk.1, len_to_u32 (self.count chunk), chunk.2)).Pairwise fun a b =>
        a.1.toNat * self.record_size.toNat + a.2.2.length ≤ b.1.toNat * self.record_size.toNat ∨
          b.1.toNat * self.record_size.toNat + b.2.2.length ≤ a.1.toNat * self.record_size.toNat := by
      rw [List.pairwise_map]
      refine self.apart.imp_of_mem ?_
      intro a b ha hb hab
      rw [self.length_eq ha, self.length_eq hb, ← Nat.add_mul, ← Nat.add_mul]
      rcases hab with hleft | hright
      · exact .inl (Nat.mul_le_mul_right _ hleft)
      · exact .inr (Nat.mul_le_mul_right _ hright)
    exact List.pairwise_map.mp ((hperm.pairwise_iff fun h => h.symm).mpr hparts)
  have hfits : (List.replicate (self.counted * self.record_size.toNat) (0 : UInt8)).length < 2 ^ 64 := by
    rw [List.length_replicate, hbytes]
    omega
  obtain ⟨data, hcopy, hlength, hplaced, _⟩ := copy_chunks_lands hlands hfits hapart
  have hboth : self.chunks.length < 2 ^ 32 ∧ self.size < 2 ^ 64 := ⟨hchunks, by omega⟩
  have hroom : ¬ ((options.compress = true ∧ ¬ self.size < 2 ^ 63) ∨ ¬ self.counted * self.record_size.toNat < 2 ^ 63) := by
    rw [hbytes]
    exact fun h => h.elim (fun h => h.2 hsmall) fun h => h hsmall
  have hwrite := self.write_eq zstd options
  have hloaded := load_written hzstd self options hload hboth.1 hboth.2
  rw [if_pos hboth] at hwrite
  rw [if_neg hroom, hcopy, Checked.ok_bind] at hloaded
  refine ⟨_, _, _, hwrite, hloaded, ?_⟩
  intro chunk hmem i hi
  have hchunk : At data (chunk.1.toNat * self.record_size.toNat) chunk.2 := by
    have hkey := hperm.mem_iff.mpr (List.mem_map_of_mem hmem)
    obtain ⟨item, hitem, hitem_eq⟩ := List.mem_map.mp hkey
    rw [Prod.mk.injEq, Prod.mk.injEq] at hitem_eq
    obtain ⟨hstart, _, hdata⟩ := hitem_eq
    have hat := hplaced item hitem
    rw [place_of, hstart, hdata] at hat
    exact hat
  have hat := hchunk.nested (self.at_record hmem hi)
  rw [← Nat.add_mul] at hat
  have hslice := hat.slice
  have hbound := hat.le_length
  rw [self.length_record hmem hi] at hslice hbound
  have hdata : data.length < 2 ^ 64 := hlength.trans_lt hfits
  rw [get_record_eq]
  · rw [self.toNat_number hmem hi]
    exact congrArg Checked.ok hslice
  · rw [self.toNat_number hmem hi, Nat.succ_mul]
    exact Nat.lt_of_le_of_lt hbound hdata

end Capture

end uffs.mft.raw
