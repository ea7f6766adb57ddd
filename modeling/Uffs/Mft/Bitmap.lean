import Uffs.Lib.Runs

open uffs.lib

namespace uffs.mft

/-- One bit per record of the MFT, set when the record is in use. -/
structure MftBitmap where
  data : List UInt8
  record_count : Nat
deriving DecidableEq

def MftBitmap.from_bytes (data : List UInt8) : MftBitmap := ⟨data, data.length * 8⟩

def MftBitmap.is_record_in_use (self : MftBitmap) (frs : Nat) : Bool :=
  if self.record_count ≤ frs then false
  else
    match self.data[frs / 8]? with
    | none => false
    | some byte => byte &&& (1 <<< UInt8.ofNat (frs % 8)) != 0

/-- The bits `cluster_has_in_use` looks at in one byte. In the first byte of the cluster only the
lower end is cut off, also where the cluster ends in the same byte. -/
def cluster_mask (start stop byte_idx : Nat) : UInt8 :=
  if byte_idx = start / 8 ∧ start % 8 ≠ 0 then 0xFF <<< UInt8.ofNat (start % 8)
  else if byte_idx + 1 = (stop + 7) / 8 ∧ stop % 8 ≠ 0 then (1 <<< UInt8.ofNat (stop % 8)) - 1
  else 0xFF

def MftBitmap.cluster_has_in_use (self : MftBitmap) (start_frs records_per_cluster : Nat) : Bool :=
  let stop := min (start_frs + records_per_cluster) self.record_count
  let start_byte := start_frs / 8
  let end_byte := (stop + 7) / 8
  (List.range' start_byte (min end_byte self.data.length - start_byte)).any fun byte_idx =>
    match self.data[byte_idx]? with
    | none => false
    | some byte => byte &&& cluster_mask start_frs stop byte_idx != 0

/-- `in_use_cluster_ranges`: starts and lengths of the runs of clusters with records in use. The
division panics when a cluster is smaller than a record. -/
def MftBitmap.in_use_cluster_ranges (self : MftBitmap) (records_per_cluster : Nat) : Option (List (Nat × Nat)) :=
  if records_per_cluster = 0 then none
  else
    let total_clusters := (self.record_count + records_per_cluster - 1) / records_per_cluster
    some (runs (fun cluster => self.cluster_has_in_use (cluster * records_per_cluster) records_per_cluster)
      total_clusters total_clusters 0)

private theorem mask_from : ∀ low < 8, ∀ bit < 8, low ≤ bit →
    (0xFF <<< UInt8.ofNat low : UInt8) &&& (1 <<< UInt8.ofNat bit) = 1 <<< UInt8.ofNat bit := by
  decide

private theorem mask_below : ∀ high < 8, ∀ bit < 8, bit < high →
    ((1 <<< UInt8.ofNat high) - 1 : UInt8) &&& (1 <<< UInt8.ofNat bit) = 1 <<< UInt8.ofNat bit := by
  decide

/-- The mask has the bits of all records of the cluster. -/
theorem cluster_mask_and {start stop frs : Nat} (hstart : start ≤ frs) (hstop : frs < stop) :
    cluster_mask start stop (frs / 8) &&& (1 <<< UInt8.ofNat (frs % 8)) = 1 <<< UInt8.ofNat (frs % 8) := by
  have hbit : frs % 8 < 8 := Nat.mod_lt _ (by omega)
  rw [cluster_mask]
  split_ifs with hfirst hlast
  · exact mask_from _ (Nat.mod_lt _ (by omega)) _ hbit (by omega)
  · exact mask_below _ (Nat.mod_lt _ (by omega)) _ hbit (by omega)
  · exact mask_from 0 (by omega) _ hbit (by omega)

/-- A cluster with a record in use is never taken for free. -/
theorem MftBitmap.cluster_has_in_use_of_record {bitmap : MftBitmap} {frs start_frs records_per_cluster : Nat}
    (hstart : start_frs ≤ frs) (hstop : frs < start_frs + records_per_cluster) (huse : bitmap.is_record_in_use frs = true) :
    bitmap.cluster_has_in_use start_frs records_per_cluster = true := by
  rw [is_record_in_use] at huse
  split_ifs at huse with hcount
  cases hget : bitmap.data[frs / 8]? with
  | none => simp [hget] at huse
  | some byte =>
    have hlen : frs / 8 < bitmap.data.length := (List.getElem?_eq_some_iff.mp hget).1
    simp only [hget, bne_iff_ne, ne_eq] at huse
    simp only [cluster_has_in_use, List.any_eq_true]
    refine ⟨frs / 8, List.mem_range'_1.mpr ⟨Nat.div_le_div_right hstart, by omega⟩, ?_⟩
    simp only [hget, bne_iff_ne, ne_eq]
    intro hzero
    apply huse
    rw [← @cluster_mask_and start_frs (min (start_frs + records_per_cluster) bitmap.record_count) frs hstart (by omega),
      ← UInt8.and_assoc, hzero, UInt8.zero_and]

/-- Every record in use is in one of the ranges. -/
theorem MftBitmap.exists_range {bitmap : MftBitmap} {records_per_cluster : Nat} {ranges : List (Nat × Nat)}
    (hranges : bitmap.in_use_cluster_ranges records_per_cluster = some ranges) {frs : Nat}
    (huse : bitmap.is_record_in_use frs = true) :
    ∃ range ∈ ranges, range.1 * records_per_cluster ≤ frs ∧ frs < (range.1 + range.2) * records_per_cluster := by
  rw [in_use_cluster_ranges] at hranges
  split_ifs at hranges with hzero
  have hpos : 0 < records_per_cluster := by omega
  have hcount : frs < bitmap.record_count := by
    rw [is_record_in_use] at huse
    split_ifs at huse with h
    omega
  have hcluster : frs / records_per_cluster < (bitmap.record_count + records_per_cluster - 1) / records_per_cluster := by
    rw [Nat.lt_iff_add_one_le, Nat.le_div_iff_mul_le hpos, Nat.add_mul]
    have := Nat.div_mul_le_self frs records_per_cluster
    omega
  have hsplit := Nat.div_add_mod frs records_per_cluster
  have hmod := Nat.mod_lt frs hpos
  rw [Nat.mul_comm records_per_cluster] at hsplit
  obtain ⟨range, hmem, hlow, hhigh⟩ := @exists_run
    (fun cluster => bitmap.cluster_has_in_use (cluster * records_per_cluster) records_per_cluster) _ _ 0 _ (Nat.le_refl _)
    (Nat.zero_le _) hcluster (cluster_has_in_use_of_record (by omega) (by omega) huse)
  cases hranges
  exact ⟨range, hmem, (Nat.le_div_iff_mul_le hpos).mp hlow, (Nat.div_lt_iff_lt_mul hpos).mp hhigh⟩

theorem MftBitmap.ranges_pairwise {bitmap : MftBitmap} {records_per_cluster : Nat} {ranges : List (Nat × Nat)}
    (hranges : bitmap.in_use_cluster_ranges records_per_cluster = some ranges) :
    ranges.Pairwise fun one other => one.1 + one.2 ≤ other.1 := by
  rw [in_use_cluster_ranges] at hranges
  split_ifs at hranges with hzero
  cases hranges
  exact runs_pairwise _ _

end uffs.mft
