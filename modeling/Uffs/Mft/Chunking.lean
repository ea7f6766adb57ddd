import Mathlib.Data.List.Sort
import Uffs.Lib.Coalesce
import Uffs.Mft.Bitmap
import Uffs.Mft.ExtentMap

open uffs.lib

namespace uffs.mft

/-- A contiguous read of MFT records. -/
structure ReadChunk where
  disk_offset : Nat
  start_frs : Nat
  record_count : Nat
  skip_begin : Nat := 0
  skip_end : Nat := 0
deriving DecidableEq

/-- The loop of `split_extent_into_chunks`. Each round takes at least one record where a chunk
holds one, so the number of records is enough fuel. -/
def split_loop (extent_start_frs extent_records extent_disk_offset records_per_chunk record_size : Nat) : Nat → Nat → List ReadChunk
  | 0, _ => []
  | fuel + 1, chunk_start =>
    if chunk_start < extent_records then
      let chunk_records := min (extent_records - chunk_start) records_per_chunk
      { disk_offset := extent_disk_offset + chunk_start * record_size
        start_frs := extent_start_frs + chunk_start
        record_count := chunk_records
        skip_begin := 0
        skip_end := 0 } ::
        split_loop extent_start_frs extent_records extent_disk_offset records_per_chunk record_size fuel
          (chunk_start + chunk_records)
    else []

def split_extent_into_chunks (extent : MftExtent) (records_per_cluster record_size cluster_size chunk_size : Nat) : List ReadChunk :=
  let extent_start_frs := extent.vcn * records_per_cluster
  let extent_records := extent.cluster_count * records_per_cluster
  let extent_disk_offset := extent.lcn.raw_unsigned * cluster_size
  split_loop extent_start_frs extent_records extent_disk_offset (chunk_size / record_size) record_size extent_records 0

/-- The loop of `emit_io_chunks`; a chunk without records is not pushed. -/
def emit_loop (start_frs total_records base_disk_offset records_per_io record_size : Nat) : Nat → Nat → List ReadChunk
  | 0, _ => []
  | fuel + 1, pos =>
    if pos < total_records then
      let chunk_records := min (total_records - pos) records_per_io
      let rest := emit_loop start_frs total_records base_disk_offset records_per_io record_size fuel (pos + chunk_records)
      if 0 < chunk_records then
        { disk_offset := base_disk_offset + pos * record_size
          start_frs := start_frs + pos
          record_count := chunk_records
          skip_begin := 0
          skip_end := 0 } :: rest
      else rest
    else []

def emit_io_chunks (start_frs total_records base_disk_offset records_per_io record_size : Nat) : List ReadChunk :=
  emit_loop start_frs total_records base_disk_offset records_per_io record_size total_records 0

/-- The chunks of one range of clusters, clipped to the extent. -/
def clipped_chunks (extent : MftExtent) (records_per_cluster record_size cluster_size max_io_size : Nat) (range : Nat × Nat) :
    List ReadChunk :=
  let extent_start_frs := extent.vcn * records_per_cluster
  let extent_end_frs := extent_start_frs + extent.cluster_count * records_per_cluster
  let extent_disk_offset := extent.lcn.raw_unsigned * cluster_size
  let range_start_frs := range.1 * records_per_cluster
  let range_end_frs := range_start_frs + range.2 * records_per_cluster
  if range_end_frs ≤ extent_start_frs ∨ extent_end_frs ≤ range_start_frs then []
  else
    let clipped_start := max range_start_frs extent_start_frs
    let clipped_records := min range_end_frs extent_end_frs - clipped_start
    if clipped_records = 0 then []
    else
      emit_io_chunks clipped_start clipped_records
        (extent_disk_offset + (clipped_start - extent_start_frs) * record_size) (max_io_size / record_size) record_size

def split_extent_into_precise_chunks (extent : MftExtent) (cluster_ranges : List (Nat × Nat))
    (records_per_cluster record_size cluster_size max_io_size : Nat) : List ReadChunk :=
  cluster_ranges.flatMap (clipped_chunks extent records_per_cluster record_size cluster_size max_io_size)

/-- Disk address just after the last record of a chunk. -/
def ReadChunk.end_offset (chunk : ReadChunk) (record_size : Nat) : Nat :=
  chunk.disk_offset + chunk.record_count * record_size

/-- 1 GB. -/
def MAX_CHUNK_BYTES : Nat := 1024 * 1024 * 1024

/-- The test of `merge_adjacent_chunks`: near on disk, near in record numbers, and not too large. -/
def adjacent_joins (record_size threshold : Nat) (current next : ReadChunk) : Bool :=
  let current_end_offset := current.end_offset record_size
  let is_physically_contiguous :=
    if current_end_offset ≤ next.disk_offset then
      decide (next.disk_offset - current_end_offset ≤ threshold * record_size)
    else false
  let frs_gap := next.start_frs - (current.start_frs + current.record_count)
  let new_record_count := next.start_frs + next.record_count - current.start_frs
  is_physically_contiguous && decide (frs_gap ≤ threshold) && decide (new_record_count * record_size ≤ MAX_CHUNK_BYTES)

def adjacent_join (current next : ReadChunk) : ReadChunk :=
  { current with
    record_count := next.start_frs + next.record_count - current.start_frs
    skip_end := next.skip_end }

def merge_adjacent_chunks (chunks : List ReadChunk) (record_size threshold : Nat) : List ReadChunk :=
  match chunks with
  | [] => []
  | current :: rest => coalesce (adjacent_joins record_size threshold) adjacent_join current rest

/-- Records: about 64 KB. -/
def MERGE_THRESHOLD : Nat := 64

def maybe_merge_chunks (chunks : List ReadChunk) (record_size : Nat) (has_bitmap : Bool) : List ReadChunk :=
  if has_bitmap then chunks else merge_adjacent_chunks chunks record_size MERGE_THRESHOLD

/-- The test of `merge_precise_chunks`: near on disk and not too large. The gap saturates. -/
def precise_joins (record_size min_gap_bytes max_io_size : Nat) (current next : ReadChunk) : Bool :=
  let gap_bytes := next.disk_offset - current.end_offset record_size
  let merged_bytes := next.end_offset record_size - current.disk_offset
  decide (gap_bytes ≤ min_gap_bytes) && decide (merged_bytes ≤ max_io_size)

def precise_join (record_size : Nat) (current next : ReadChunk) : ReadChunk :=
  { current with
    record_count := (next.end_offset record_size - current.disk_offset) / record_size
    skip_end := next.skip_end }

/-- `sort_by_key(|ch| ch.disk_offset)`, which is stable. -/
def sort_by_disk_offset (chunks : List ReadChunk) : List ReadChunk :=
  chunks.insertionSort fun one other => one.disk_offset ≤ other.disk_offset

def merge_precise_chunks (chunks : List ReadChunk) (record_size min_gap_bytes max_io_size : Nat) : List ReadChunk :=
  match sort_by_disk_offset chunks with
  | [] => []
  | current :: rest =>
    coalesce (precise_joins record_size min_gap_bytes max_io_size) (precise_join record_size) current rest

/-- The chunks of `generate_read_chunks` before the merge. -/
def extent_chunks (extent_map : MftExtentMap) (chunk_size : Nat) : List ReadChunk :=
  extent_map.extents.flatMap fun extent =>
    if extent.lcn.is_hole then []
    else
      split_extent_into_chunks extent extent_map.records_per_cluster extent_map.bytes_per_record extent_map.bytes_per_cluster chunk_size

/-- The bitmap decides only whether the chunks are merged. -/
def generate_read_chunks (extent_map : MftExtentMap) (bitmap : Option MftBitmap) (chunk_size : Nat) : List ReadChunk :=
  maybe_merge_chunks (extent_chunks extent_map chunk_size) extent_map.bytes_per_record bitmap.isSome

/-- The chunks of `generate_precise_read_chunks` before the merge. -/
def precise_chunks (extent_map : MftExtentMap) (cluster_ranges : List (Nat × Nat)) (max_io_size : Nat) : List ReadChunk :=
  extent_map.extents.flatMap fun extent =>
    if extent.lcn.is_hole then []
    else
      split_extent_into_precise_chunks extent cluster_ranges extent_map.records_per_cluster extent_map.bytes_per_record
        extent_map.bytes_per_cluster max_io_size

/-- `none` where the code panics. -/
def generate_precise_read_chunks (extent_map : MftExtentMap) (bitmap : MftBitmap) (max_io_size min_gap_records : Nat) :
    Option (List ReadChunk) :=
  match bitmap.in_use_cluster_ranges extent_map.records_per_cluster with
  | none => none
  | some cluster_ranges =>
    if cluster_ranges.isEmpty then some []
    else
      some (merge_precise_chunks (precise_chunks extent_map cluster_ranges max_io_size) extent_map.bytes_per_record
        (min_gap_records * extent_map.bytes_per_record) max_io_size)

end uffs.mft
