import Uffs.Mft.ChunkPlan

namespace uffs.mft

/-- One physically contiguous read planned by `read_plan`. -/
structure PlannedRead where
  volume_offset : Nat
  byte_len : Nat
  base_frs : Nat
deriving DecidableEq

/-- `u64::saturating_mul`. -/
def saturating_mul_u64 (a b : Nat) : Nat := min (a * b) (2 ^ 64 - 1)

/-- The inner loop of `read_plan`. Each round takes at least one byte, so the bytes of the extent
are enough fuel. -/
def plan_loop (record_size chunk virtual_start physical_start extent_bytes : Nat) : Nat → Nat → List PlannedRead
  | 0, _ => []
  | fuel + 1, offset =>
    if offset < extent_bytes then
      let byte_len := min chunk (extent_bytes - offset)
      { volume_offset := physical_start + offset
        byte_len := byte_len
        base_frs := (virtual_start + offset) / record_size } ::
        plan_loop record_size chunk virtual_start physical_start extent_bytes fuel (offset + byte_len)
    else []

/-- The outer loop: a hole is skipped, the first extent past the end of the records stops it. -/
def plan_extents (record_size cluster_size chunk virtual_end : Nat) : List MftExtent → List PlannedRead
  | [] => []
  | extent :: rest =>
    if extent.lcn.is_hole then plan_extents record_size cluster_size chunk virtual_end rest
    else
      let virtual_start := saturating_mul_u64 extent.vcn cluster_size
      if virtual_end ≤ virtual_start then []
      else
        let extent_bytes := min (saturating_mul_u64 extent.cluster_count cluster_size) (virtual_end - virtual_start)
        let physical_start := saturating_mul_u64 extent.lcn.raw_unsigned cluster_size
        plan_loop record_size chunk virtual_start physical_start extent_bytes extent_bytes 0 ++
          plan_extents record_size cluster_size chunk virtual_end rest

def MftExtentMap.read_plan (self : MftExtentMap) (chunk_bytes total_records : Nat) : List PlannedRead :=
  let record_size := self.bytes_per_record
  let cluster_size := self.bytes_per_cluster
  -- whole-record chunks keep every read record-aligned
  let chunk := chunk_bytes / record_size * record_size
  if chunk = 0 ∨ record_size = 0 then []
  else
    let virtual_end := saturating_mul_u64 total_records record_size
    plan_extents record_size cluster_size chunk virtual_end self.extents

/-- The record is among those of the read. -/
def PlannedRead.Covers (record_size : Nat) (read : PlannedRead) (frs : Nat) : Prop :=
  read.base_frs ≤ frs ∧ frs < read.base_frs + read.byte_len / record_size

instance {record_size : Nat} {read : PlannedRead} {frs : Nat} : Decidable (read.Covers record_size frs) :=
  inferInstanceAs (Decidable (_ ∧ _))

/-- The records of the read come before those of the other. -/
def PlannedRead.Before (record_size : Nat) (one other : PlannedRead) : Prop :=
  one.base_frs + one.byte_len / record_size ≤ other.base_frs

/-- The read of the records of a chunk. -/
def PlannedRead.of_chunk (record_size : Nat) (chunk : ReadChunk) : PlannedRead where
  volume_offset := chunk.disk_offset
  byte_len := chunk.record_count * record_size
  base_frs := chunk.start_frs

/-- Of items that exclude one another, the filter keeps the one that is there. -/
theorem filter_eq_singleton {α : Type} {rel : α → α → Prop} {items : List α} (hpairs : items.Pairwise rel) {p : α → Prop}
    [DecidablePred p] (hapart : ∀ one other, rel one other → p one → ¬ p other) {item : α} (hmem : item ∈ items)
    (hitem : p item) : items.filter p = [item] := by
  induction items with
  | nil => simp at hmem
  | cons head rest ih =>
    obtain ⟨hhead, hrest⟩ := List.pairwise_cons.mp hpairs
    rcases List.mem_cons.mp hmem with rfl | hmem
    · have hnone : rest.filter p = [] := by
        rw [List.filter_eq_nil_iff]
        intro other hother
        simpa using hapart _ _ (hhead other hother) hitem
      rw [List.filter_cons_of_pos (by simpa using hitem), hnone]
    · have hout : ¬ p head := fun hp => hapart _ _ (hhead item hmem) hp hitem
      rw [List.filter_cons_of_neg (by simpa using hout), ih hrest hmem]

section Chunks

variable {record_size : Nat} {chunk other : ReadChunk}

theorem PlannedRead.of_chunk_covers (hrecord : 0 < record_size) {frs : Nat} :
    (of_chunk record_size chunk).Covers record_size frs ↔ chunk.Covers frs := by
  rw [Covers, ReadChunk.Covers, of_chunk]
  rw [Nat.mul_div_cancel _ hrecord]

theorem PlannedRead.of_chunk_before (hrecord : 0 < record_size) :
    (of_chunk record_size chunk).Before record_size (of_chunk record_size other) ↔ chunk.Before other := by
  rw [Before, ReadChunk.Before, of_chunk, of_chunk]
  rw [Nat.mul_div_cancel _ hrecord]

/-- On whole records the byte loop is the record loop of the other planners. -/
theorem plan_loop_eq (hrecord : 0 < record_size) {per_chunk start disk records : Nat} (hper : 0 < per_chunk) {fuel fuel' pos : Nat}
    (hfuel : records ≤ fuel + pos) (hfuel' : records ≤ fuel' + pos) :
    plan_loop record_size (per_chunk * record_size) (start * record_size) disk (records * record_size) fuel (pos * record_size) =
      (split_loop start records disk per_chunk record_size fuel' pos).map (PlannedRead.of_chunk record_size) := by
  induction fuel generalizing fuel' pos with
  | zero =>
    cases fuel' with
    | zero => rfl
    | succ fuel' => rw [plan_loop, split_loop, if_neg (by omega), List.map_nil]
  | succ fuel ih =>
    by_cases hpos : pos < records
    · cases fuel' with
      | zero => omega
      | succ fuel' =>
        have hmin : min (per_chunk * record_size) (records * record_size - pos * record_size) =
            min (records - pos) per_chunk * record_size := by
          rw [← Nat.sub_mul, Nat.mul_min_mul_right, Nat.min_comm]
        have hbase : (start * record_size + pos * record_size) / record_size = start + pos := by
          rw [← Nat.add_mul, Nat.mul_div_cancel _ hrecord]
        rw [plan_loop, if_pos (Nat.mul_lt_mul_of_pos_right hpos hrecord), split_loop, if_pos hpos]
        dsimp only
        rw [hmin, hbase, ← Nat.add_mul, List.map_cons,
          @ih fuel' (pos + min (records - pos) per_chunk) (by omega) (by omega)]
        rfl
    · have hstop : split_loop start records disk per_chunk record_size fuel' pos = [] := by
        cases fuel' with
        | zero => rfl
        | succ fuel' => rw [split_loop, if_neg hpos]
      rw [plan_loop, if_neg (Nat.not_lt.mpr (Nat.mul_le_mul_right _ (by omega))), hstop, List.map_nil]

end Chunks

variable {map : MftExtentMap}

/-- The records of an extent that the plan reads. -/
def MftExtentMap.planned_records (map : MftExtentMap) (total_records : Nat) (extent : MftExtent) : Nat :=
  min (extent.cluster_count * map.records_per_cluster) (total_records - extent.vcn * map.records_per_cluster)

/-- The reads of one extent, as chunks of records. -/
def MftExtentMap.planned_chunks (map : MftExtentMap) (chunk_bytes total_records : Nat) (extent : MftExtent) : List ReadChunk :=
  split_loop (extent.vcn * map.records_per_cluster) (map.planned_records total_records extent)
    (extent.lcn.raw_unsigned * map.bytes_per_cluster) (chunk_bytes / map.bytes_per_record) map.bytes_per_record
    (map.planned_records total_records extent) 0

section Addresses

variable {extent : MftExtent} (hmem : extent ∈ map.extents)
include hmem

/-- Inside the volume the products do not saturate. -/
theorem MftExtentMap.saturating_mul_eq {clusters : Nat}
    (hle : clusters ≤ extent.vcn + extent.cluster_count ∨ clusters ≤ extent.lcn.raw_unsigned + extent.cluster_count) :
    saturating_mul_u64 clusters map.bytes_per_cluster = clusters * map.bytes_per_cluster := by
  have hbytes : clusters * map.bytes_per_cluster ≤ 2 ^ 63 := by
    obtain ⟨hvirtual, hphysical⟩ := map.addressable extent hmem
    rcases hle with hle | hle
    · exact Nat.le_trans (Nat.mul_le_mul_right _ hle) hvirtual
    · exact Nat.le_trans (Nat.mul_le_mul_right _ hle) hphysical
  rw [saturating_mul_u64]
  omega

theorem MftExtentMap.record_bytes_le (hwhole : map.WholeRecords) :
    (extent.vcn * map.records_per_cluster + extent.cluster_count * map.records_per_cluster) * map.bytes_per_record ≤ 2 ^ 63 := by
  rw [← Nat.add_mul, Nat.mul_assoc, ← hwhole.cluster_eq]
  exact (map.addressable extent hmem).1

/-- The clipped bytes are those of the clipped records, also where the end of the records saturates. -/
theorem MftExtentMap.extent_bytes_eq (hwhole : map.WholeRecords) (total_records : Nat) :
    min (extent.cluster_count * map.bytes_per_cluster)
        (saturating_mul_u64 total_records map.bytes_per_record - extent.vcn * map.bytes_per_cluster) =
      map.planned_records total_records extent * map.bytes_per_record := by
  have hfits := record_bytes_le hmem hwhole
  have hstart : extent.vcn * map.bytes_per_cluster = extent.vcn * map.records_per_cluster * map.bytes_per_record := by
    rw [Nat.mul_assoc, ← hwhole.cluster_eq]
  have hcount : extent.cluster_count * map.bytes_per_cluster =
      extent.cluster_count * map.records_per_cluster * map.bytes_per_record := by
    rw [Nat.mul_assoc, ← hwhole.cluster_eq]
  rw [planned_records, ← Nat.mul_min_mul_right, Nat.sub_mul, hstart, hcount, saturating_mul_u64]
  rw [Nat.add_mul] at hfits
  omega

/-- The loop stops at an extent that starts past the last record. -/
theorem MftExtentMap.stops_iff (hwhole : map.WholeRecords) (total_records : Nat) :
    saturating_mul_u64 total_records map.bytes_per_record ≤ extent.vcn * map.bytes_per_cluster ↔
      total_records ≤ extent.vcn * map.records_per_cluster := by
  have hfits := record_bytes_le hmem hwhole
  have hstart : extent.vcn * map.bytes_per_cluster = extent.vcn * map.records_per_cluster * map.bytes_per_record := by
    rw [Nat.mul_assoc, ← hwhole.cluster_eq]
  rw [Nat.add_mul] at hfits
  rw [hstart, saturating_mul_u64]
  constructor
  · intro hle
    apply Nat.le_of_mul_le_mul_right _ map.record_pos
    omega
  · intro hle
    exact Nat.le_trans (Nat.min_le_left _ _) (Nat.mul_le_mul_right _ hle)

end Addresses

theorem MftExtentMap.planned_chunks_past {chunk_bytes total_records : Nat} {extent : MftExtent}
    (h : total_records ≤ extent.vcn * map.records_per_cluster) : map.planned_chunks chunk_bytes total_records extent = [] := by
  have hnone : map.planned_records total_records extent = 0 := by
    rw [planned_records, Nat.sub_eq_zero_of_le h, Nat.min_zero]
  rw [planned_chunks, hnone, split_loop]

variable {chunk_bytes : Nat}

/-- The chunks of the extents up to the first one past the last record are those of all. -/
theorem plan_extents_eq (hwhole : map.WholeRecords) (hchunk : map.bytes_per_record ≤ chunk_bytes) (total_records : Nat)
    {extents : List MftExtent} (hmem : ∀ extent ∈ extents, extent ∈ map.extents)
    (hsorted : extents.Pairwise fun before after => before.vcn + before.cluster_count ≤ after.vcn) :
    plan_extents map.bytes_per_record map.bytes_per_cluster (chunk_bytes / map.bytes_per_record * map.bytes_per_record)
        (saturating_mul_u64 total_records map.bytes_per_record) extents =
      (extents.flatMap fun extent => if extent.lcn.is_hole then [] else map.planned_chunks chunk_bytes total_records extent).map
        (PlannedRead.of_chunk map.bytes_per_record) := by
  induction extents with
  | nil => rfl
  | cons extent rest ih =>
    obtain ⟨hafter, hrest⟩ := List.pairwise_cons.mp hsorted
    have hextent := hmem extent List.mem_cons_self
    rw [plan_extents, List.flatMap_cons, List.map_append, ih (fun other h => hmem other (List.mem_cons_of_mem _ h)) hrest]
    by_cases hhole : extent.lcn.is_hole = true
    · rw [if_pos hhole, if_pos hhole]
      rfl
    · rw [if_neg hhole, if_neg hhole]
      dsimp only
      rw [MftExtentMap.saturating_mul_eq hextent (Or.inl (Nat.le_add_right _ _)),
        MftExtentMap.saturating_mul_eq hextent (Or.inl (Nat.le_add_left _ _)),
        MftExtentMap.saturating_mul_eq hextent (Or.inr (Nat.le_add_right _ _)), MftExtentMap.extent_bytes_eq hextent hwhole]
      by_cases hpast : total_records ≤ extent.vcn * map.records_per_cluster
      · -- the extents after this one are past the last record too
        have hnone : (rest.flatMap fun other =>
            if other.lcn.is_hole then [] else map.planned_chunks chunk_bytes total_records other) = [] := by
          rw [List.flatMap_eq_nil_iff]
          intro other hother
          have hle : extent.vcn ≤ other.vcn := by
            have := hafter other hother
            omega
          rw [MftExtentMap.planned_chunks_past (Nat.le_trans hpast (Nat.mul_le_mul_right _ hle)), ite_self]
        rw [if_pos ((MftExtentMap.stops_iff hextent hwhole _).mpr hpast), MftExtentMap.planned_chunks_past hpast, hnone]
        rfl
      · have hstart : extent.vcn * map.bytes_per_cluster = extent.vcn * map.records_per_cluster * map.bytes_per_record := by
          rw [Nat.mul_assoc, ← hwhole.cluster_eq]
        have hloop := @plan_loop_eq map.bytes_per_record map.record_pos (chunk_bytes / map.bytes_per_record)
          (extent.vcn * map.records_per_cluster) (extent.lcn.raw_unsigned * map.bytes_per_cluster)
          (map.planned_records total_records extent) (Nat.div_pos hchunk map.record_pos)
          (map.planned_records total_records extent * map.bytes_per_record) (map.planned_records total_records extent) 0
          (Nat.le_mul_of_pos_right _ map.record_pos) (Nat.le_refl _)
        rw [Nat.zero_mul] at hloop
        rw [if_neg fun hle => hpast ((MftExtentMap.stops_iff hextent hwhole _).mp hle), hstart, hloop]
        rfl

/-- The plan as chunks of records. -/
theorem MftExtentMap.VcnSorted.read_plan_eq (hsorted : map.VcnSorted) (hwhole : map.WholeRecords)
    (hchunk : map.bytes_per_record ≤ chunk_bytes) (total_records : Nat) :
    map.read_plan chunk_bytes total_records =
      (map.extents.flatMap fun extent => if extent.lcn.is_hole then [] else map.planned_chunks chunk_bytes total_records extent).map
        (PlannedRead.of_chunk map.bytes_per_record) := by
  have hpos := Nat.mul_pos (Nat.div_pos hchunk map.record_pos) map.record_pos
  rw [read_plan]
  rw [if_neg]
  · exact plan_extents_eq hwhole hchunk total_records (fun extent h => h) hsorted
  · rintro (hzero | hzero)
    · omega
    · exact absurd map.record_pos (by omega)

theorem MftExtentMap.planned_chunks_piece (hchunk : map.bytes_per_record ≤ chunk_bytes) {total_records : Nat}
    {extent : MftExtent} {chunk : ReadChunk} (h : chunk ∈ map.planned_chunks chunk_bytes total_records extent) :
    chunk.OfExtent map extent ∧ chunk.start_frs + chunk.record_count ≤ total_records ∧
      chunk.record_count ≤ chunk_bytes / map.bytes_per_record := by
  have hper := Nat.div_pos hchunk map.record_pos
  obtain ⟨hpiece, -⟩ := mem_split_loop hper h
  have hrecords := hpiece.some_record
  have hlow := hpiece.start_le
  have hhigh := hpiece.end_le
  rw [planned_records] at hhigh
  refine ⟨⟨hlow, by omega, hpiece.disk_eq, hrecords⟩, by omega, split_loop_records_le h⟩

theorem MftExtentMap.VcnSorted.planned_pieces (hsorted : map.VcnSorted) (hchunk : map.bytes_per_record ≤ chunk_bytes)
    (total_records : Nat) :
    Pieces map (map.extents.flatMap fun extent =>
      if extent.lcn.is_hole then [] else map.planned_chunks chunk_bytes total_records extent) := by
  apply pieces_of_extents hsorted
  · intro extent chunk h
    exact (planned_chunks_piece hchunk h).1
  · intro extent
    exact split_loop_pairwise (Nat.div_pos hchunk map.record_pos) _ _

/-- Every allocated record below the total is in a chunk. -/
theorem MftExtentMap.WholeRecords.planned_complete (hwhole : map.WholeRecords) (hchunk : map.bytes_per_record ≤ chunk_bytes)
    {total_records frs : Nat} (hfrs : frs < total_records) (h : map.Allocated frs) :
    ∃ chunk ∈ map.extents.flatMap fun extent =>
        if extent.lcn.is_hole then [] else map.planned_chunks chunk_bytes total_records extent, chunk.Covers frs := by
  obtain ⟨extent, hmem, hhole, hhas⟩ := h
  obtain ⟨hlow, hhigh⟩ := hwhole.has_iff.mp hhas
  rw [Nat.add_mul] at hhigh
  have hplanned : frs < extent.vcn * map.records_per_cluster + map.planned_records total_records extent := by
    rw [planned_records]
    omega
  obtain ⟨chunk, hmade, hcovers⟩ := @exists_split_loop (extent.vcn * map.records_per_cluster)
    (map.planned_records total_records extent) (extent.lcn.raw_unsigned * map.bytes_per_cluster) _ map.bytes_per_record
    (Nat.div_pos hchunk map.record_pos) _ 0 frs (Nat.le_refl _) hlow hplanned
  refine ⟨chunk, List.mem_flatMap.mpr ⟨extent, hmem, ?_⟩, hcovers⟩
  rw [hhole]
  exact hmade

/-- A read of the plan starts where its first record is on the volume, and goes on record by record. -/
theorem MftExtentMap.VcnSorted.of_chunk_offset (hsorted : map.VcnSorted) (hwhole : map.WholeRecords) {extent : MftExtent}
    (hmem : extent ∈ map.extents) (hhole : extent.lcn.is_hole = false) {chunk : ReadChunk} (h : chunk.OfExtent map extent) {frs : Nat}
    (hcovers : chunk.Covers frs) :
    map.physical_offset frs = some ((PlannedRead.of_chunk map.bytes_per_record chunk).volume_offset +
      (frs - (PlannedRead.of_chunk map.bytes_per_record chunk).base_frs) * map.bytes_per_record) := by
  have hlow := h.start_le
  have hsum : frs - extent.vcn * map.records_per_cluster =
      (chunk.start_frs - extent.vcn * map.records_per_cluster) + (frs - chunk.start_frs) := by
    have := hcovers.1
    omega
  rw [hsorted.physical_offset_eq hwhole hmem hhole (h.within hcovers), PlannedRead.of_chunk, h.disk_eq, hsum, Nat.add_mul,
    Nat.add_assoc]

/-- The offset plan is exact: an allocated record below the total is in one read, at its address,
no other record is read, and the reads are whole records in ascending order. -/
theorem read_plan_exact (hsorted : map.VcnSorted) (hwhole : map.WholeRecords) {chunk_bytes : Nat}
    (hchunk : map.bytes_per_record ≤ chunk_bytes) (total_records : Nat) :
    (∀ frs, frs < total_records → map.Allocated frs →
      ∃ read, (map.read_plan chunk_bytes total_records).filter (PlannedRead.Covers map.bytes_per_record · frs) = [read] ∧
        map.physical_offset frs = some (read.volume_offset + (frs - read.base_frs) * map.bytes_per_record)) ∧
      (∀ read ∈ map.read_plan chunk_bytes total_records,
        map.bytes_per_record ∣ read.byte_len ∧ 0 < read.byte_len ∧ read.byte_len ≤ chunk_bytes ∧
          ∀ frs, read.Covers map.bytes_per_record frs → frs < total_records ∧ map.Allocated frs) ∧
      (map.read_plan chunk_bytes total_records).Pairwise (PlannedRead.Before map.bytes_per_record) := by
  have hpieces := hsorted.planned_pieces hchunk total_records
  have hordered : (map.read_plan chunk_bytes total_records).Pairwise (PlannedRead.Before map.bytes_per_record) := by
    rw [hsorted.read_plan_eq hwhole hchunk, List.pairwise_map]
    apply hpieces.ordered.imp
    intro one other hbefore
    exact (PlannedRead.of_chunk_before map.record_pos).mpr hbefore
  refine ⟨?_, ?_, hordered⟩
  · intro frs hfrs hallocated
    obtain ⟨chunk, hmem, hcovers⟩ := hwhole.planned_complete hchunk hfrs hallocated
    obtain ⟨extent, hextent, hhole, hpiece⟩ := hpieces.of_extent chunk hmem
    refine ⟨PlannedRead.of_chunk map.bytes_per_record chunk, ?_, hsorted.of_chunk_offset hwhole hextent hhole hpiece hcovers⟩
    apply filter_eq_singleton hordered
    · intro one other hbefore hone hother
      have hhigh := hone.2
      have hlow := hother.1
      rw [PlannedRead.Before] at hbefore
      omega
    · rw [hsorted.read_plan_eq hwhole hchunk]
      exact List.mem_map_of_mem hmem
    · exact (PlannedRead.of_chunk_covers map.record_pos).mpr hcovers
  · intro read hread
    rw [hsorted.read_plan_eq hwhole hchunk] at hread
    obtain ⟨chunk, hmem, rfl⟩ := List.mem_map.mp hread
    obtain ⟨extent, hextent, hmade⟩ := List.mem_flatMap.mp hmem
    by_cases hhole : extent.lcn.is_hole = true
    · rw [if_pos hhole] at hmade
      exact absurd hmade List.not_mem_nil
    · rw [if_neg hhole] at hmade
      obtain ⟨hpiece, hend, hrecords⟩ := MftExtentMap.planned_chunks_piece hchunk hmade
      refine ⟨Nat.dvd_mul_left _ _, Nat.mul_pos hpiece.some_record map.record_pos, ?_, ?_⟩
      · exact Nat.le_trans (Nat.mul_le_mul_right _ hrecords) (Nat.div_mul_le_self _ _)
      · intro frs hcovers
        rw [PlannedRead.of_chunk_covers map.record_pos] at hcovers
        have := hcovers.2
        exact ⟨by omega, extent, hextent, by simpa using hhole, hwhole.has_iff.mpr (hpiece.within hcovers)⟩

/-- Three extents with a hole between the records 40 and 80. -/
def sparse_map : MftExtentMap where
  extents := [⟨0, 10, ⟨100⟩⟩, ⟨10, 10, ⟨-1⟩⟩, ⟨20, 10, ⟨900⟩⟩]
  bytes_per_cluster := 4096
  bytes_per_record := 1024
  cluster_pos := cluster_4096_pos
  record_pos := record_1024_pos
  addressable := by decide

/-- The hole is not read, and the records after it keep their numbers. -/
example : sparse_map.read_plan (8 * 1024 * 1024) 120 = [⟨409600, 40960, 0⟩, ⟨3686400, 40960, 80⟩] := by decide

theorem read_plan_exact_sparse :
    ∃ read, (sparse_map.read_plan 16384 100).filter (PlannedRead.Covers 1024 · 90) = [read] ∧
      sparse_map.physical_offset 90 = some (read.volume_offset + (90 - read.base_frs) * 1024) := by
  apply (@read_plan_exact sparse_map _ _ 16384 _ 100).1 90 (by decide)
  · exact ⟨⟨20, 10, ⟨900⟩⟩, by decide, by decide, by decide, by decide⟩
  · simp [MftExtentMap.VcnSorted, sparse_map]
  · exact ⟨4, rfl⟩
  · decide

end uffs.mft
