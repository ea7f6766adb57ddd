import Mathlib.Algebra.Order.Ring.Nat
import Mathlib.Data.List.Chain
import Uffs.Lib.Bisect

open uffs.lib

namespace uffs.mft

/-- Logical cluster number: a position on the volume, or a hole when negative. -/
structure Lcn where
  raw : Int
deriving DecidableEq

def Lcn.is_hole (self : Lcn) : Bool := self.raw < 0

/-- Callers check `is_hole` first. -/
def Lcn.raw_unsigned (self : Lcn) : Nat := self.raw.toNat

structure MftExtent where
  vcn : Nat
  cluster_count : Nat
  lcn : Lcn
deriving DecidableEq

/-- Where the clusters of the MFT lie on the volume. The byte addresses of a volume fit in 63 bits,
so the 64-bit products of the planners below are exact. -/
structure MftExtentMap where
  extents : List MftExtent
  bytes_per_cluster : Nat
  bytes_per_record : Nat
  cluster_pos : 0 < bytes_per_cluster
  record_pos : 0 < bytes_per_record
  addressable : ∀ extent ∈ extents, (extent.vcn + extent.cluster_count) * bytes_per_cluster ≤ 2 ^ 63 ∧
    (extent.lcn.raw_unsigned + extent.cluster_count) * bytes_per_cluster ≤ 2 ^ 63

theorem cluster_4096_pos : 0 < 4096 := by decide

theorem record_1024_pos : 0 < 1024 := by decide

/-- The comparison `find_extent` searches with. -/
def MftExtent.compare_vcn (vcn : Nat) (extent : MftExtent) : Ordering :=
  if vcn < extent.vcn then Ordering.gt
  else if extent.vcn + extent.cluster_count ≤ vcn then Ordering.lt
  else Ordering.eq

def MftExtentMap.find_extent (self : MftExtentMap) (vcn : Nat) : Option MftExtent :=
  binary_search_get (MftExtent.compare_vcn vcn) self.extents

def MftExtentMap.physical_offset (self : MftExtentMap) (frs : Nat) : Option Nat :=
  let virtual_byte_offset := frs * self.bytes_per_record
  let vcn := virtual_byte_offset / self.bytes_per_cluster
  match self.find_extent vcn with
  | none => none
  | some extent =>
    if extent.lcn.is_hole then none
    else
      let cluster_byte_offset := (vcn - extent.vcn) * self.bytes_per_cluster
      let offset_in_cluster := virtual_byte_offset % self.bytes_per_cluster
      some (extent.lcn.raw_unsigned * self.bytes_per_cluster + cluster_byte_offset + offset_in_cluster)

/-- Each extent starts where the one before it ends. -/
def MftExtentMap.VcnContiguous (map : MftExtentMap) : Prop :=
  map.extents.IsChain fun before after => after.vcn = before.vcn + before.cluster_count

/-- The extents come in the order of their virtual clusters and do not overlap. Clusters may lie in
none of them. -/
def MftExtentMap.VcnSorted (map : MftExtentMap) : Prop :=
  map.extents.Pairwise fun before after => before.vcn + before.cluster_count ≤ after.vcn

/-- No cluster of the volume is in two extents. -/
def MftExtentMap.DisjointOnDisk (map : MftExtentMap) : Prop :=
  map.extents.Pairwise fun one other => one.lcn.is_hole = false → other.lcn.is_hole = false →
    one.lcn.raw_unsigned + one.cluster_count ≤ other.lcn.raw_unsigned ∨
      other.lcn.raw_unsigned + other.cluster_count ≤ one.lcn.raw_unsigned

/-- The extent has the virtual cluster. -/
def MftExtent.Has (extent : MftExtent) (vcn : Nat) : Prop :=
  extent.vcn ≤ vcn ∧ vcn < extent.vcn + extent.cluster_count

variable {extent : MftExtent}

theorem MftExtent.compare_vcn_eq {vcn : Nat} : extent.compare_vcn vcn = Ordering.eq ↔ extent.Has vcn := by
  rw [compare_vcn, Has]
  split_ifs with h h'
  · exact ⟨nofun, fun hhas => absurd hhas.1 (by omega)⟩
  · exact ⟨nofun, fun hhas => absurd hhas.2 (by omega)⟩
  · exact ⟨fun _ => ⟨by omega, by omega⟩, fun _ => rfl⟩

theorem MftExtent.compare_vcn_gt {vcn : Nat} : extent.compare_vcn vcn = Ordering.gt ↔ vcn < extent.vcn := by
  rw [compare_vcn]
  split_ifs <;> simp_all

theorem MftExtent.compare_vcn_lt {vcn : Nat} :
    extent.compare_vcn vcn = Ordering.lt ↔ extent.vcn + extent.cluster_count ≤ vcn := by
  rw [compare_vcn]
  split_ifs with h h'
  · exact ⟨nofun, fun hle => absurd hle (by omega)⟩
  · simp [h']
  · simp [h']

variable {map : MftExtentMap}

theorem MftExtentMap.VcnContiguous.sorted (h : map.VcnContiguous) : map.VcnSorted := by
  have hchain : map.extents.IsChain fun before after : MftExtent => before.vcn + before.cluster_count ≤ after.vcn := by
    apply List.IsChain.imp _ h
    intro before after heq
    omega
  have : IsTrans MftExtent fun before after => before.vcn + before.cluster_count ≤ after.vcn :=
    ⟨fun a b c hab hbc => by omega⟩
  exact hchain.pairwise

/-- At most one extent has a virtual cluster, and the search finds it. -/
theorem MftExtentMap.VcnSorted.find_extent_eq (h : map.VcnSorted) (hmem : extent ∈ map.extents) {vcn : Nat}
    (hhas : extent.Has vcn) : map.find_extent vcn = some extent := by
  obtain ⟨pos, hpos, rfl⟩ := List.getElem_of_mem hmem
  have hpair := List.pairwise_iff_getElem.mp h
  apply @binary_search_get_complete _ _ _ _ pos _ (List.getElem?_eq_getElem hpos) (MftExtent.compare_vcn_eq.mpr hhas)
  · intro j other hget heq
    obtain ⟨hj, rfl⟩ := List.getElem?_eq_some_iff.mp hget
    have hother := MftExtent.compare_vcn_eq.mp heq
    rcases Nat.lt_trichotomy j pos with hlt | rfl | hgt
    · have := hpair j pos hj hpos hlt
      exact absurd hhas.1 (by have := hother.2; omega)
    · rfl
    · have := hpair pos j hpos hj hgt
      exact absurd hother.1 (by have := hhas.2; omega)
  · apply List.Pairwise.imp _ h
    intro before after hle
    rw [MftExtent.compare_vcn_gt, MftExtent.compare_vcn_gt, MftExtent.compare_vcn_lt, MftExtent.compare_vcn_lt]
    omega

theorem MftExtentMap.find_extent_sound {vcn : Nat} (h : map.find_extent vcn = some extent) :
    extent ∈ map.extents ∧ extent.Has vcn := by
  obtain ⟨hmem, heq⟩ := binary_search_get_sound h
  exact ⟨hmem, MftExtent.compare_vcn_eq.mp heq⟩

/-- A record is in an extent that is not a hole, by the cluster of its first byte. -/
def MftExtentMap.Allocated (map : MftExtentMap) (frs : Nat) : Prop :=
  ∃ extent ∈ map.extents, extent.lcn.is_hole = false ∧ extent.Has (frs * map.bytes_per_record / map.bytes_per_cluster)

/-- The records have addresses where they are allocated, and nowhere else. -/
theorem MftExtentMap.VcnSorted.allocated_iff (h : map.VcnSorted) {frs : Nat} :
    map.Allocated frs ↔ ∃ offset, map.physical_offset frs = some offset := by
  constructor
  · rintro ⟨extent, hmem, hhole, hhas⟩
    rw [physical_offset, h.find_extent_eq hmem hhas]
    simp [hhole]
  · rintro ⟨offset, hoffset⟩
    rw [physical_offset] at hoffset
    cases hfind : map.find_extent (frs * map.bytes_per_record / map.bytes_per_cluster) with
    | none => simp [hfind] at hoffset
    | some extent =>
      obtain ⟨hmem, hhas⟩ := find_extent_sound hfind
      refine ⟨extent, hmem, ?_, hhas⟩
      by_contra hhole
      simp [hfind, hhole] at hoffset

/-- Records per cluster, as the planners compute it. -/
def MftExtentMap.records_per_cluster (map : MftExtentMap) : Nat := map.bytes_per_cluster / map.bytes_per_record

/-- Whole records to a cluster. -/
def MftExtentMap.WholeRecords (map : MftExtentMap) : Prop := map.bytes_per_record ∣ map.bytes_per_cluster

theorem MftExtentMap.WholeRecords.cluster_eq (h : map.WholeRecords) :
    map.bytes_per_cluster = map.records_per_cluster * map.bytes_per_record :=
  (Nat.div_mul_cancel h).symm

theorem MftExtentMap.WholeRecords.per_cluster_pos (h : map.WholeRecords) : 0 < map.records_per_cluster :=
  Nat.div_pos (Nat.le_of_dvd map.cluster_pos h) map.record_pos

theorem MftExtentMap.WholeRecords.vcn_eq (h : map.WholeRecords) (frs : Nat) :
    frs * map.bytes_per_record / map.bytes_per_cluster = frs / map.records_per_cluster := by
  rw [h.cluster_eq, Nat.mul_div_mul_right _ _ map.record_pos]

/-- The record numbers of an extent. -/
def MftExtentMap.Within (map : MftExtentMap) (extent : MftExtent) (frs : Nat) : Prop :=
  extent.vcn * map.records_per_cluster ≤ frs ∧ frs < (extent.vcn + extent.cluster_count) * map.records_per_cluster

theorem MftExtentMap.WholeRecords.has_iff (h : map.WholeRecords) {frs : Nat} :
    extent.Has (frs * map.bytes_per_record / map.bytes_per_cluster) ↔ map.Within extent frs := by
  rw [h.vcn_eq, MftExtent.Has, Within, Nat.le_div_iff_mul_le h.per_cluster_pos, Nat.div_lt_iff_lt_mul h.per_cluster_pos]

/-- Inside an extent the address goes up by one record for each record. -/
theorem MftExtentMap.VcnSorted.physical_offset_eq (h : map.VcnSorted) (hwhole : map.WholeRecords)
    (hmem : extent ∈ map.extents) (hhole : extent.lcn.is_hole = false) {frs : Nat} (hin : map.Within extent frs) :
    map.physical_offset frs = some (extent.lcn.raw_unsigned * map.bytes_per_cluster +
      (frs - extent.vcn * map.records_per_cluster) * map.bytes_per_record) := by
  have hhas := hwhole.has_iff.mpr hin
  rw [physical_offset, h.find_extent_eq hmem hhas]
  simp only [hhole, Bool.false_eq_true, if_false, Option.some.injEq]
  rw [hwhole.vcn_eq] at hhas ⊢
  have hmod : frs * map.bytes_per_record % map.bytes_per_cluster = frs % map.records_per_cluster * map.bytes_per_record := by
    rw [hwhole.cluster_eq, Nat.mul_mod_mul_right]
  have hrecords : (frs / map.records_per_cluster - extent.vcn) * map.records_per_cluster + frs % map.records_per_cluster =
      frs - extent.vcn * map.records_per_cluster := by
    have hsplit := Nat.div_add_mod frs map.records_per_cluster
    have hle : extent.vcn * map.records_per_cluster ≤ frs / map.records_per_cluster * map.records_per_cluster :=
      Nat.mul_le_mul_right _ hhas.1
    rw [Nat.mul_comm map.records_per_cluster] at hsplit
    rw [Nat.sub_mul]
    omega
  rw [hmod, ← hrecords, Nat.add_assoc, Nat.add_mul, Nat.mul_assoc, ← hwhole.cluster_eq]

end uffs.mft
