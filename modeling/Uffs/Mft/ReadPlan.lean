import Uffs.Mft.ChunkMerge

open uffs.lib

namespace uffs.mft

/-- Every join of a pass over the chunks is between chunks in the relation. -/
def MergesOnly (joins : ReadChunk → ReadChunk → Bool) (join : ReadChunk → ReadChunk → ReadChunk) (rel : ReadChunk → ReadChunk → Prop)
    (chunks : List ReadChunk) : Prop :=
  match chunks with
  | [] => True
  | current :: rest => JoinsOnly joins join rel current rest

/-- When the two plans read what they should: whole records to a cluster, and no merge of chunks
with anything else between them, on disk or in record numbers. -/
structure PlansHold (map : MftExtentMap) (bitmap : Option MftBitmap) (chunk_size : Nat) (bits : MftBitmap)
    (max_io_size min_gap_records : Nat) : Prop where
  whole : map.WholeRecords
  adjacent : bitmap = none → MergesOnly (adjacent_joins map.bytes_per_record MERGE_THRESHOLD) adjacent_join
    (ReadChunk.Adjacent map.bytes_per_record) (extent_chunks map chunk_size)
  in_line : ∀ cluster_ranges, bits.in_use_cluster_ranges map.records_per_cluster = some cluster_ranges →
    MergesOnly (precise_joins map.bytes_per_record (min_gap_records * map.bytes_per_record) max_io_size)
      (precise_join map.bytes_per_record) (fun one other => map.InLine one.start_frs other.start_frs)
      (sort_by_disk_offset (precise_chunks map cluster_ranges max_io_size))

/-- Both plans are made and read every record they should, where it is, once. -/
structure PlansRight (map : MftExtentMap) (bitmap : Option MftBitmap) (chunk_size : Nat) (bits : MftBitmap)
    (max_io_size min_gap_records : Nat) : Prop where
  read : PlanRight map map.Allocated (generate_read_chunks map bitmap chunk_size)
  precise : ∃ plan, generate_precise_read_chunks map bits max_io_size min_gap_records = some plan ∧
    PlanRight map (fun frs => map.Allocated frs ∧ bits.is_record_in_use frs = true) plan

variable {map : MftExtentMap}

theorem ReadChunk.Before.apart {one other : ReadChunk} (h : one.Before other) (frs : Nat) : ¬ (one.Covers frs ∧ other.Covers frs) := by
  rintro ⟨⟨-, hhigh⟩, hlow, -⟩
  rw [Before] at h
  omega

/-- The plan from the extents is right exactly when the pass joins adjacent chunks only. -/
theorem generate_read_chunks_right_iff (hmap : map.VcnContiguous) (hwhole : map.WholeRecords) {chunk_size : Nat}
    (hsize : map.bytes_per_record ≤ chunk_size) (bitmap : Option MftBitmap) :
    PlanRight map map.Allocated (generate_read_chunks map bitmap chunk_size) ↔
      (bitmap = none → MergesOnly (adjacent_joins map.bytes_per_record MERGE_THRESHOLD) adjacent_join
        (ReadChunk.Adjacent map.bytes_per_record) (extent_chunks map chunk_size)) := by
  have hpieces := extent_chunks_pieces hmap hsize
  have hsound := hpieces.sound hmap hwhole
  have hordered := hpieces.ordered
  have hcomplete := @extent_chunks_complete map hwhole chunk_size hsize
  cases bitmap with
  | some bits =>
    refine ⟨(by rintro _ ⟨⟩), fun _ => ⟨fun chunk hchunk => (hsound chunk hchunk).placed, hordered.imp ReadChunk.Before.apart, ?_⟩⟩
    intro frs hneeded
    exact hcomplete hneeded
  | none =>
    simp only [generate_read_chunks, maybe_merge_chunks, Option.isSome_none, Bool.false_eq_true, if_false, merge_adjacent_chunks,
      MergesOnly, true_imp_iff]
    generalize extent_chunks map chunk_size = chunks at *
    cases chunks with
    | nil =>
      refine ⟨fun _ => trivial, fun _ => ⟨(by rintro _ ⟨⟩), List.Pairwise.nil, ?_⟩⟩
      intro frs hneeded
      exact hcomplete hneeded
    | cons current rest =>
      constructor
      · intro hright
        apply joinsOnly_adjacent_of_placed hsound hordered _ hright.placed
        intro frs offset hfrs hoffset
        obtain ⟨chunk, hchunk, hcovers⟩ := hcomplete (hmap.sorted.allocated_iff.mpr ⟨offset, hoffset⟩)
        rcases List.mem_cons.mp hchunk with rfl | hchunk
        · exact absurd hcovers.2 (by omega)
        · exact ⟨chunk, hchunk, hcovers⟩
      · intro hjoins
        obtain ⟨hmerged, hpairs, hcover⟩ := adjacent_keeps.coalesce hsound hordered hjoins
        refine ⟨fun chunk hchunk => (hmerged chunk hchunk).placed, hpairs.imp ReadChunk.Before.apart, ?_⟩
        intro frs hneeded
        exact hcover frs (hcomplete hneeded)

/-- The order on disk of pieces that share no record. -/
theorem sort_by_disk_offset_ahead {chunks : List ReadChunk} (hordered : chunks.Pairwise ReadChunk.Before)
    (hsome : ∀ chunk ∈ chunks, 0 < chunk.record_count) : (sort_by_disk_offset chunks).Pairwise ReadChunk.Ahead := by
  have hperm := List.perm_insertionSort (fun one other : ReadChunk => one.disk_offset ≤ other.disk_offset) chunks
  have hsorted : (sort_by_disk_offset chunks).Pairwise fun one other => one.disk_offset ≤ other.disk_offset := by
    have : Std.Total fun one other : ReadChunk => one.disk_offset ≤ other.disk_offset := ⟨fun a b => Nat.le_total _ _⟩
    have : IsTrans ReadChunk fun one other => one.disk_offset ≤ other.disk_offset := ⟨fun a b c => Nat.le_trans⟩
    exact List.pairwise_insertionSort _ chunks
  have hapart : (sort_by_disk_offset chunks).Pairwise fun one other => one.Before other ∨ other.Before one := by
    apply (hperm.pairwise_iff fun h => h.symm).mpr
    exact hordered.imp Or.inl
  apply (hsorted.and hapart).imp_of_mem
  intro one other hone hother h
  refine ⟨h.1, ?_⟩
  rintro ⟨hlow, hhigh⟩
  have hpos' := hsome other (hperm.mem_iff.mp hother)
  rcases h.2 with hbefore | hbefore
  · rw [ReadChunk.Before] at hbefore
    omega
  · rw [ReadChunk.Before] at hbefore
    omega

/-- Without ranges there is nothing to merge, so the early return changes nothing. -/
theorem generate_precise_read_chunks_eq {bits : MftBitmap} {cluster_ranges : List (Nat × Nat)}
    (hranges : bits.in_use_cluster_ranges map.records_per_cluster = some cluster_ranges) (max_io_size min_gap_records : Nat) :
    generate_precise_read_chunks map bits max_io_size min_gap_records =
      some (merge_precise_chunks (precise_chunks map cluster_ranges max_io_size) map.bytes_per_record
        (min_gap_records * map.bytes_per_record) max_io_size) := by
  rw [generate_precise_read_chunks, hranges]
  cases cluster_ranges with
  | nil =>
    have hnone : precise_chunks map [] max_io_size = [] := by
      simp [precise_chunks, split_extent_into_precise_chunks]
    simp [hnone, merge_precise_chunks, sort_by_disk_offset]
  | cons range ranges => simp

section Precise

variable {bits : MftBitmap} {cluster_ranges : List (Nat × Nat)} {max_io_size : Nat}

/-- What the merge of the precise plan starts from. -/
structure Sorted (map : MftExtentMap) (bits : MftBitmap) (chunks : List ReadChunk) : Prop where
  sound : ∀ chunk ∈ chunks, chunk.Sound map
  ahead : chunks.Pairwise ReadChunk.Ahead
  complete : ∀ frs, map.Allocated frs ∧ bits.is_record_in_use frs = true → ∃ chunk ∈ chunks, chunk.Covers frs

theorem precise_chunks_sorted (hmap : map.VcnContiguous) (hwhole : map.WholeRecords)
    (hranges : bits.in_use_cluster_ranges map.records_per_cluster = some cluster_ranges) (hsize : map.bytes_per_record ≤ max_io_size) :
    Sorted map bits (sort_by_disk_offset (precise_chunks map cluster_ranges max_io_size)) := by
  have hpieces := precise_chunks_pieces hmap hranges hsize
  have hsound := hpieces.sound hmap hwhole
  have hmem : ∀ {chunk}, chunk ∈ sort_by_disk_offset (precise_chunks map cluster_ranges max_io_size) ↔
      chunk ∈ precise_chunks map cluster_ranges max_io_size :=
    (List.perm_insertionSort _ _).mem_iff
  refine ⟨fun chunk hchunk => hsound chunk (hmem.mp hchunk), ?_, ?_⟩
  · exact sort_by_disk_offset_ahead hpieces.ordered fun chunk hchunk => (hsound chunk hchunk).some_record
  · rintro frs ⟨halloc, huse⟩
    obtain ⟨chunk, hchunk, hcovers⟩ := precise_chunks_complete hwhole hranges hsize halloc huse
    exact ⟨chunk, hmem.mpr hchunk, hcovers⟩

/-- The merged precise plan is right when the pass joins chunks in line only; where no two records
share an address, exactly then. -/
theorem merge_precise_right (hmap : map.VcnContiguous) (hwhole : map.WholeRecords) {chunks : List ReadChunk}
    (hsorted : Sorted map bits (sort_by_disk_offset chunks)) (min_gap_bytes : Nat) :
    (MergesOnly (precise_joins map.bytes_per_record min_gap_bytes max_io_size) (precise_join map.bytes_per_record)
        (fun one other => map.InLine one.start_frs other.start_frs) (sort_by_disk_offset chunks) →
      PlanRight map (fun frs => map.Allocated frs ∧ bits.is_record_in_use frs = true)
        (merge_precise_chunks chunks map.bytes_per_record min_gap_bytes max_io_size)) ∧
    (map.DisjointOnDisk → PlanRight map (fun frs => map.Allocated frs ∧ bits.is_record_in_use frs = true)
        (merge_precise_chunks chunks map.bytes_per_record min_gap_bytes max_io_size) →
      MergesOnly (precise_joins map.bytes_per_record min_gap_bytes max_io_size) (precise_join map.bytes_per_record)
        (fun one other => map.InLine one.start_frs other.start_frs) (sort_by_disk_offset chunks)) := by
  rw [merge_precise_chunks]
  obtain ⟨hsound, hahead, hcomplete⟩ := hsorted
  generalize sort_by_disk_offset chunks = sorted at *
  cases sorted with
  | nil => exact ⟨fun _ => ⟨nofun, List.Pairwise.nil, hcomplete⟩, fun _ _ => trivial⟩
  | cons current rest =>
    constructor
    · intro hjoins
      obtain ⟨hmerged, hpairs, hcover⟩ := (inLine_keeps hmap hwhole).coalesce hsound hahead hjoins
      refine ⟨fun chunk hchunk => (hmerged chunk hchunk).placed, ?_, fun frs hneeded => hcover frs (hcomplete frs hneeded)⟩
      apply hpairs.imp_of_mem
      intro one other hone hother h
      exact h.apart (hmerged one hone) (hmerged other hother)
    · intro hdisjoint hright
      exact joinsOnly_inLine_of_placed hmap hwhole hdisjoint hsound hahead hright.placed

end Precise

/-- Without whole records to a cluster there is no precise plan: the division by the number of
records in a cluster panics. -/
theorem whole_of_plan (hsizes : map.bytes_per_record ∣ map.bytes_per_cluster ∨ map.bytes_per_cluster ∣ map.bytes_per_record)
    {bits : MftBitmap} {max_io_size min_gap_records : Nat} {plan : List ReadChunk}
    (h : generate_precise_read_chunks map bits max_io_size min_gap_records = some plan) : map.WholeRecords := by
  rcases hsizes with hwhole | hsmall
  · exact hwhole
  · have hle := Nat.le_of_dvd map.record_pos hsmall
    rcases Nat.lt_or_eq_of_le hle with hlt | heq
    · have hzero : map.records_per_cluster = 0 := Nat.div_eq_of_lt hlt
      simp [generate_precise_read_chunks, MftBitmap.in_use_cluster_ranges, hzero] at h
    · rw [MftExtentMap.WholeRecords, heq]

/-- The read plans of a volume whose extents follow each other in the file: they read every record
at its place, once, and all they should, when clusters hold whole records and the merge passes
join only chunks with nothing else between them. Where no cluster of the volume is in two extents,
exactly then. -/
theorem read_plans_right_iff (hmap : map.VcnContiguous)
    (hsizes : map.bytes_per_record ∣ map.bytes_per_cluster ∨ map.bytes_per_cluster ∣ map.bytes_per_record)
    (bitmap : Option MftBitmap) {chunk_size : Nat} (hchunk : map.bytes_per_record ≤ chunk_size) (bits : MftBitmap)
    {max_io_size : Nat} (hio : map.bytes_per_record ≤ max_io_size) (min_gap_records : Nat) :
    (PlansHold map bitmap chunk_size bits max_io_size min_gap_records →
      PlansRight map bitmap chunk_size bits max_io_size min_gap_records) ∧
    (map.DisjointOnDisk → PlansRight map bitmap chunk_size bits max_io_size min_gap_records →
      PlansHold map bitmap chunk_size bits max_io_size min_gap_records) := by
  constructor
  · intro hhold
    have hwhole := hhold.whole
    obtain ⟨cluster_ranges, hranges⟩ : ∃ ranges, bits.in_use_cluster_ranges map.records_per_cluster = some ranges := by
      rw [MftBitmap.in_use_cluster_ranges, if_neg (Nat.ne_of_gt hwhole.per_cluster_pos)]
      exact ⟨_, rfl⟩
    refine ⟨(generate_read_chunks_right_iff hmap hwhole hchunk bitmap).mpr hhold.adjacent, _,
      generate_precise_read_chunks_eq hranges _ _, ?_⟩
    exact (merge_precise_right hmap hwhole (precise_chunks_sorted hmap hwhole hranges hio) _).1 (hhold.in_line _ hranges)
  · intro hdisjoint hright
    obtain ⟨plan, hplan, hprecise⟩ := hright.precise
    have hwhole := whole_of_plan hsizes hplan
    refine ⟨hwhole, (generate_read_chunks_right_iff hmap hwhole hchunk bitmap).mp hright.read, ?_⟩
    intro cluster_ranges hranges
    rw [generate_precise_read_chunks_eq hranges, Option.some.injEq] at hplan
    subst hplan
    exact (merge_precise_right hmap hwhole (precise_chunks_sorted hmap hwhole hranges hio) _).2 hdisjoint hprecise

/-- Two extents a cluster apart on disk, 4 KB clusters and 1 KB records. -/
def gap_map : MftExtentMap where
  extents := [⟨0, 1, ⟨100⟩⟩, ⟨1, 1, ⟨102⟩⟩]
  bytes_per_cluster := 4096
  bytes_per_record := 1024
  cluster_pos := cluster_4096_pos
  record_pos := record_1024_pos
  addressable := by decide

/-- One extent of three clusters. -/
def single_map : MftExtentMap where
  extents := [⟨0, 3, ⟨100⟩⟩]
  bytes_per_cluster := 4096
  bytes_per_record := 1024
  cluster_pos := cluster_4096_pos
  record_pos := record_1024_pos
  addressable := by decide

/-- Records 0 and 8 are in use, so the precise plan reads through the cluster between them. -/
theorem read_plans_right_iff_single :
    single_map.VcnContiguous ∧ PlansRight single_map none 4096 (MftBitmap.from_bytes [0x01, 0x01]) 16384 4 := by
  have hmap : single_map.VcnContiguous := List.isChain_singleton _
  refine ⟨hmap, ?_⟩
  apply (read_plans_right_iff hmap (Or.inl (by decide)) none (by decide) (MftBitmap.from_bytes [0x01, 0x01]) (by decide) 4).1
  refine ⟨⟨4, rfl⟩, fun _ => ?_, ?_⟩
  · have hchunks : extent_chunks single_map 4096 =
        [{ disk_offset := 409600, start_frs := 0, record_count := 4 }, { disk_offset := 413696, start_frs := 4, record_count := 4 },
          { disk_offset := 417792, start_frs := 8, record_count := 4 }] := by decide
    rw [hchunks, MergesOnly]
    refine (joinsOnly_join (by decide)).mpr ⟨⟨by decide, by decide⟩, ?_⟩
    apply (joinsOnly_join (by decide)).mpr
    exact ⟨⟨by decide, by decide⟩, trivial⟩
  · intro cluster_ranges hranges
    have heq : cluster_ranges = [(0, 1), (2, 1)] := by
      have hcomputed : (MftBitmap.from_bytes [0x01, 0x01]).in_use_cluster_ranges single_map.records_per_cluster =
          some [(0, 1), (2, 1)] := by decide
      rw [hcomputed] at hranges
      exact (Option.some.inj hranges).symm
    have hchunks : sort_by_disk_offset (precise_chunks single_map cluster_ranges 16384) =
        [{ disk_offset := 409600, start_frs := 0, record_count := 4 }, { disk_offset := 417792, start_frs := 8, record_count := 4 }] := by
      rw [heq]
      decide
    rw [hchunks, MergesOnly]
    refine (joinsOnly_join (by decide)).mpr ⟨⟨by decide, 100, ?_⟩, trivial⟩
    intro vcn _ hhigh
    have hlt : vcn < 3 := Nat.lt_of_le_of_lt hhigh (by decide)
    exact ⟨⟨0, 3, ⟨100⟩⟩, List.mem_cons_self, by decide, ⟨Nat.zero_le _, by simpa using hlt⟩, by decide⟩

/-- The pass takes the gap on disk for records: record 4, the first of the second extent, is read
from the cluster between the extents. -/
theorem read_plan_wrong_across_gap :
    gap_map.VcnContiguous ∧ gap_map.DisjointOnDisk ∧
      generate_read_chunks gap_map none 4096 = [{ disk_offset := 409600, start_frs := 0, record_count := 8 }] ∧
      gap_map.physical_offset 4 = some 417792 ∧ ¬ PlanRight gap_map gap_map.Allocated (generate_read_chunks gap_map none 4096) := by
  have hplan : generate_read_chunks gap_map none 4096 = [{ disk_offset := 409600, start_frs := 0, record_count := 8 }] := by decide
  have haddress : gap_map.physical_offset 4 = some 417792 := by decide
  refine ⟨by simp [MftExtentMap.VcnContiguous, gap_map], by simp [MftExtentMap.DisjointOnDisk, gap_map, Lcn.raw_unsigned], hplan,
    haddress, ?_⟩
  intro hright
  rw [hplan] at hright
  have hread := hright.placed _ List.mem_cons_self 4 (by decide)
  rw [Nat.zero_add, haddress] at hread
  exact absurd hread (by decide)

end uffs.mft
