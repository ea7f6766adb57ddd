import Uffs.Mft.Chunking

namespace uffs.mft

/-- The record is among those the chunk reads. -/
def ReadChunk.Covers (chunk : ReadChunk) (frs : Nat) : Prop :=
  chunk.start_frs ≤ frs ∧ frs < chunk.start_frs + chunk.record_count

/-- The chunk reads the record numbers before those of the other. -/
def ReadChunk.Before (one other : ReadChunk) : Prop := one.start_frs + one.record_count ≤ other.start_frs

/-- A piece of the records `start ..< start + records`, which lie on disk from `disk` on. -/
structure ReadChunk.PieceOf (chunk : ReadChunk) (start records disk record_size : Nat) : Prop where
  start_le : start ≤ chunk.start_frs
  end_le : chunk.start_frs + chunk.record_count ≤ start + records
  disk_eq : chunk.disk_offset = disk + (chunk.start_frs - start) * record_size
  some_record : 0 < chunk.record_count

variable {chunk : ReadChunk}

theorem ReadChunk.PieceOf.trans {start records disk record_size start' records' : Nat}
    (h : chunk.PieceOf start' records' (disk + (start' - start) * record_size) record_size) (hstart : start ≤ start')
    (hend : start' + records' ≤ start + records) : chunk.PieceOf start records disk record_size where
  start_le := Nat.le_trans hstart h.start_le
  end_le := Nat.le_trans h.end_le hend
  disk_eq := by
    have hle := h.start_le
    have hsum : chunk.start_frs - start = (start' - start) + (chunk.start_frs - start') := by omega
    rw [h.disk_eq, hsum, Nat.add_mul, Nat.add_assoc]
  some_record := h.some_record

section Split

variable {start records disk per_chunk record_size : Nat}

theorem mem_split_loop (hper : 0 < per_chunk) {fuel pos : Nat}
    (h : chunk ∈ split_loop start records disk per_chunk record_size fuel pos) :
    chunk.PieceOf start records disk record_size ∧ start + pos ≤ chunk.start_frs := by
  induction fuel generalizing pos with
  | zero => simp [split_loop] at h
  | succ fuel ih =>
    rw [split_loop] at h
    split_ifs at h with hpos
    · rcases List.mem_cons.mp h with rfl | h
      · refine ⟨⟨?_, ?_, ?_, ?_⟩, ?_⟩ <;> dsimp only
        · omega
        · omega
        · rw [Nat.add_sub_cancel_left]
        · omega
        · omega
      · obtain ⟨hpiece, hle⟩ := ih h
        exact ⟨hpiece, by omega⟩
    · simp at h

theorem split_loop_records_le {fuel pos : Nat}
    (h : chunk ∈ split_loop start records disk per_chunk record_size fuel pos) : chunk.record_count ≤ per_chunk := by
  induction fuel generalizing pos with
  | zero => simp [split_loop] at h
  | succ fuel ih =>
    rw [split_loop] at h
    split_ifs at h with hpos
    · rcases List.mem_cons.mp h with rfl | h
      · exact Nat.min_le_right _ _
      · exact ih h
    · simp at h

theorem split_loop_pairwise (hper : 0 < per_chunk) (fuel pos : Nat) :
    (split_loop start records disk per_chunk record_size fuel pos).Pairwise ReadChunk.Before := by
  induction fuel generalizing pos with
  | zero => simp [split_loop]
  | succ fuel ih =>
    rw [split_loop]
    split_ifs with hpos
    · apply List.Pairwise.cons _ (ih _)
      intro other hother
      have hle := (mem_split_loop hper hother).2
      rw [ReadChunk.Before]
      dsimp only
      omega
    · exact List.Pairwise.nil

theorem exists_split_loop (hper : 0 < per_chunk) {fuel pos frs : Nat} (hfuel : records ≤ fuel + pos) (hlow : start + pos ≤ frs)
    (hhigh : frs < start + records) :
    ∃ chunk ∈ split_loop start records disk per_chunk record_size fuel pos, chunk.Covers frs := by
  induction fuel generalizing pos with
  | zero => omega
  | succ fuel ih =>
    rw [split_loop, if_pos (by omega)]
    by_cases hin : frs < start + pos + min (records - pos) per_chunk
    · exact ⟨_, List.mem_cons_self, hlow, hin⟩
    · obtain ⟨chunk, hmem, hcovers⟩ := @ih (pos + min (records - pos) per_chunk) (by omega) (by omega)
      exact ⟨chunk, List.mem_cons_of_mem _ hmem, hcovers⟩

/-- A chunk that holds a record is always pushed. -/
theorem emit_loop_eq (hper : 0 < per_chunk) (fuel pos : Nat) :
    emit_loop start records disk per_chunk record_size fuel pos = split_loop start records disk per_chunk record_size fuel pos := by
  induction fuel generalizing pos with
  | zero => rw [emit_loop, split_loop]
  | succ fuel ih =>
    rw [emit_loop, split_loop]
    split_ifs with hpos
    · dsimp only
      rw [if_pos (by omega), ih]
    · rfl

end Split

variable {map : MftExtentMap}

/-- A piece of the records of an extent. -/
def ReadChunk.OfExtent (map : MftExtentMap) (extent : MftExtent) (chunk : ReadChunk) : Prop :=
  chunk.PieceOf (extent.vcn * map.records_per_cluster) (extent.cluster_count * map.records_per_cluster)
    (extent.lcn.raw_unsigned * map.bytes_per_cluster) map.bytes_per_record

variable {extent : MftExtent} {max_io_size : Nat}

theorem ReadChunk.OfExtent.within (h : chunk.OfExtent map extent) {frs : Nat}
    (hcovers : chunk.Covers frs) : map.Within extent frs := by
  have hlow := h.start_le
  have hhigh := h.end_le
  rw [← Nat.add_mul] at hhigh
  exact ⟨Nat.le_trans hlow hcovers.1, Nat.lt_of_lt_of_le hcovers.2 hhigh⟩

theorem ReadChunk.OfExtent.before {one other : MftExtent} (hle : one.vcn + one.cluster_count ≤ other.vcn) {c d : ReadChunk}
    (hc : c.OfExtent map one) (hd : d.OfExtent map other) : c.Before d := by
  have hend := hc.end_le
  rw [← Nat.add_mul] at hend
  exact Nat.le_trans hend (Nat.le_trans (Nat.mul_le_mul_right _ hle) hd.start_le)

/-- What the planners' lists of chunks are before any merge: pieces of extents that are no holes,
in the order of the record numbers. -/
structure Pieces (map : MftExtentMap) (chunks : List ReadChunk) : Prop where
  of_extent : ∀ chunk ∈ chunks, ∃ extent ∈ map.extents, extent.lcn.is_hole = false ∧ chunk.OfExtent map extent
  ordered : chunks.Pairwise ReadChunk.Before

/-- The chunks of the extents are pieces once those of each extent are. -/
theorem pieces_of_extents (hmap : map.VcnSorted) {chunks : MftExtent → List ReadChunk}
    (hpiece : ∀ extent, ∀ chunk ∈ chunks extent, chunk.OfExtent map extent)
    (hordered : ∀ extent, (chunks extent).Pairwise ReadChunk.Before) :
    Pieces map (map.extents.flatMap fun extent => if extent.lcn.is_hole then [] else chunks extent) where
  of_extent := by
    intro chunk h
    obtain ⟨extent, hmem, hchunk⟩ := List.mem_flatMap.mp h
    by_cases hhole : extent.lcn.is_hole
    · simp [hhole] at hchunk
    · rw [if_neg hhole] at hchunk
      exact ⟨extent, hmem, by simpa using hhole, hpiece extent chunk hchunk⟩
  ordered := by
    rw [List.pairwise_flatMap]
    constructor
    · intro extent _
      split_ifs
      · exact List.Pairwise.nil
      · exact hordered extent
    · apply List.Pairwise.imp _ hmap
      intro one other hle c hc d hd
      split_ifs at hc hd
      · simp at hc
      · simp at hc
      · simp at hd
      · exact (hpiece one c hc).before hle (hpiece other d hd)

theorem extent_chunks_pieces (hmap : map.VcnContiguous) {chunk_size : Nat} (hsize : map.bytes_per_record ≤ chunk_size) :
    Pieces map (extent_chunks map chunk_size) := by
  have hper := Nat.div_pos hsize map.record_pos
  apply pieces_of_extents hmap.sorted
  · intro extent chunk h
    exact (mem_split_loop hper h).1
  · intro extent
    exact split_loop_pairwise hper _ _

/-- Every allocated record is in a chunk. -/
theorem extent_chunks_complete (hwhole : map.WholeRecords) {chunk_size : Nat} (hsize : map.bytes_per_record ≤ chunk_size)
    {frs : Nat} (h : map.Allocated frs) : ∃ chunk ∈ extent_chunks map chunk_size, chunk.Covers frs := by
  obtain ⟨extent, hmem, hhole, hhas⟩ := h
  obtain ⟨hlow, hhigh⟩ := hwhole.has_iff.mp hhas
  rw [Nat.add_mul] at hhigh
  obtain ⟨chunk, hchunk, hcovers⟩ := @exists_split_loop (extent.vcn * map.records_per_cluster)
    (extent.cluster_count * map.records_per_cluster) (extent.lcn.raw_unsigned * map.bytes_per_cluster) _ map.bytes_per_record
    (Nat.div_pos hsize map.record_pos) _ 0 frs (Nat.le_refl _) hlow hhigh
  refine ⟨chunk, List.mem_flatMap.mpr ⟨extent, hmem, ?_⟩, hcovers⟩
  rw [hhole]
  exact hchunk

/-- A chunk of a clipped range is a piece of the extent and of the range. -/
theorem mem_clipped_chunks {range : Nat × Nat} (hsize : map.bytes_per_record ≤ max_io_size)
    (h : chunk ∈ clipped_chunks extent map.records_per_cluster map.bytes_per_record map.bytes_per_cluster max_io_size range) :
    chunk.OfExtent map extent ∧ range.1 * map.records_per_cluster ≤ chunk.start_frs ∧
      chunk.start_frs + chunk.record_count ≤ (range.1 + range.2) * map.records_per_cluster := by
  simp only [clipped_chunks] at h
  split_ifs at h with hapart hnone
  · simp at h
  · simp at h
  · rw [emit_io_chunks, emit_loop_eq (Nat.div_pos hsize map.record_pos)] at h
    obtain ⟨hpiece, -⟩ := mem_split_loop (Nat.div_pos hsize map.record_pos) h
    have hlow := hpiece.start_le
    have hhigh := hpiece.end_le
    refine ⟨hpiece.trans (by omega) (by omega), by omega, ?_⟩
    rw [Nat.add_mul]
    omega

theorem clipped_chunks_pairwise {range : Nat × Nat} (hsize : map.bytes_per_record ≤ max_io_size) :
    (clipped_chunks extent map.records_per_cluster map.bytes_per_record map.bytes_per_cluster max_io_size range).Pairwise
      ReadChunk.Before := by
  simp only [clipped_chunks]
  split_ifs
  · exact List.Pairwise.nil
  · exact List.Pairwise.nil
  · rw [emit_io_chunks, emit_loop_eq (Nat.div_pos hsize map.record_pos)]
    exact split_loop_pairwise (Nat.div_pos hsize map.record_pos) _ _

theorem exists_clipped_chunk {range : Nat × Nat} (hsize : map.bytes_per_record ≤ max_io_size) {frs : Nat}
    (hin : map.Within extent frs) (hlow : range.1 * map.records_per_cluster ≤ frs)
    (hhigh : frs < (range.1 + range.2) * map.records_per_cluster) :
    ∃ chunk ∈ clipped_chunks extent map.records_per_cluster map.bytes_per_record map.bytes_per_cluster max_io_size range,
      chunk.Covers frs := by
  obtain ⟨hlow', hhigh'⟩ := hin
  rw [Nat.add_mul] at hhigh hhigh'
  simp only [clipped_chunks]
  rw [if_neg (by omega), if_neg (by omega), emit_io_chunks, emit_loop_eq (Nat.div_pos hsize map.record_pos)]
  exact exists_split_loop (Nat.div_pos hsize map.record_pos) (Nat.le_refl _) (by omega) (by omega)

theorem precise_chunks_pieces (hmap : map.VcnContiguous) {bitmap : MftBitmap} {cluster_ranges : List (Nat × Nat)}
    (hranges : bitmap.in_use_cluster_ranges map.records_per_cluster = some cluster_ranges)
    (hsize : map.bytes_per_record ≤ max_io_size) : Pieces map (precise_chunks map cluster_ranges max_io_size) := by
  apply pieces_of_extents hmap.sorted
  · intro extent chunk h
    obtain ⟨range, -, hchunk⟩ := List.mem_flatMap.mp h
    exact (mem_clipped_chunks hsize hchunk).1
  · intro extent
    rw [split_extent_into_precise_chunks, List.pairwise_flatMap]
    constructor
    · intro range _
      exact clipped_chunks_pairwise hsize
    · apply (MftBitmap.ranges_pairwise hranges).imp
      intro one other hle c hc d hd
      have hend := (mem_clipped_chunks hsize hc).2.2
      have hstart := (mem_clipped_chunks hsize hd).2.1
      exact Nat.le_trans hend (Nat.le_trans (Nat.mul_le_mul_right _ hle) hstart)

/-- Every allocated record the bitmap marks is in a chunk. -/
theorem precise_chunks_complete (hwhole : map.WholeRecords) {bitmap : MftBitmap} {cluster_ranges : List (Nat × Nat)}
    (hranges : bitmap.in_use_cluster_ranges map.records_per_cluster = some cluster_ranges)
    (hsize : map.bytes_per_record ≤ max_io_size) {frs : Nat} (h : map.Allocated frs)
    (huse : bitmap.is_record_in_use frs = true) :
    ∃ chunk ∈ precise_chunks map cluster_ranges max_io_size, chunk.Covers frs := by
  obtain ⟨extent, hmem, hhole, hhas⟩ := h
  obtain ⟨range, hrange, hlow, hhigh⟩ := MftBitmap.exists_range hranges huse
  obtain ⟨chunk, hchunk, hcovers⟩ := exists_clipped_chunk hsize (hwhole.has_iff.mp hhas) hlow hhigh
  refine ⟨chunk, List.mem_flatMap.mpr ⟨extent, hmem, ?_⟩, hcovers⟩
  rw [hhole]
  exact List.mem_flatMap.mpr ⟨range, hrange, hchunk⟩

end uffs.mft
