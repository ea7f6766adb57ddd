import Mathlib.Tactic.Ring
import Mathlib.Tactic.Linarith
import Uffs.Mft.ChunkPlan

open uffs.lib

namespace uffs.mft

/-- The chunk reads each of its records at the record's own address. -/
def ReadChunk.Placed (map : MftExtentMap) (chunk : ReadChunk) : Prop :=
  ∀ i < chunk.record_count, map.physical_offset (chunk.start_frs + i) = some (chunk.disk_offset + i * map.bytes_per_record)

/-- A plan reads every record at its address, none twice, and all that are needed. -/
structure PlanRight (map : MftExtentMap) (needed : Nat → Prop) (plan : List ReadChunk) : Prop where
  placed : ∀ chunk ∈ plan, chunk.Placed map
  once : plan.Pairwise fun one other => ∀ frs, ¬ (one.Covers frs ∧ other.Covers frs)
  complete : ∀ frs, needed frs → ∃ chunk ∈ plan, chunk.Covers frs

/-- The second chunk goes on where the first ends, on disk and in record numbers. -/
def ReadChunk.Adjacent (record_size : Nat) (current next : ReadChunk) : Prop :=
  next.disk_offset = current.end_offset record_size ∧ next.start_frs = current.start_frs + current.record_count

/-- The records from the one to the other lie in extents that follow each other on disk as they do
in the file, without holes. -/
def MftExtentMap.InLine (map : MftExtentMap) (first last : Nat) : Prop :=
  first ≤ last ∧ ∃ shift : Int, ∀ vcn, first * map.bytes_per_record / map.bytes_per_cluster ≤ vcn →
    vcn ≤ last * map.bytes_per_record / map.bytes_per_cluster →
      ∃ extent ∈ map.extents, extent.lcn.is_hole = false ∧ extent.Has vcn ∧ extent.lcn.raw - extent.vcn = shift

variable {map : MftExtentMap} {chunk : ReadChunk}

theorem ReadChunk.Placed.at (h : chunk.Placed map) {frs : Nat} (hcovers : chunk.Covers frs) :
    map.physical_offset frs = some (chunk.disk_offset + (frs - chunk.start_frs) * map.bytes_per_record) := by
  obtain ⟨hlow, hhigh⟩ := hcovers
  have := h (frs - chunk.start_frs) (by omega)
  rwa [Nat.add_sub_cancel' hlow] at this

theorem ReadChunk.covers_start (h : 0 < chunk.record_count) : chunk.Covers chunk.start_frs :=
  ⟨Nat.le_refl _, by omega⟩

theorem ReadChunk.Placed.at_start (h : chunk.Placed map) (hsome : 0 < chunk.record_count) :
    map.physical_offset chunk.start_frs = some chunk.disk_offset := by
  rw [h.at (covers_start hsome), Nat.sub_self, Nat.zero_mul, Nat.add_zero]

theorem ReadChunk.OfExtent.placed (hmap : map.VcnContiguous) (hwhole : map.WholeRecords) {extent : MftExtent}
    (hmem : extent ∈ map.extents) (hhole : extent.lcn.is_hole = false) (h : chunk.OfExtent map extent) :
    chunk.Placed map := by
  intro i hi
  have hlow := h.start_le
  have hsum : chunk.start_frs + i - extent.vcn * map.records_per_cluster =
      (chunk.start_frs - extent.vcn * map.records_per_cluster) + i := by omega
  rw [hmap.sorted.physical_offset_eq hwhole hmem hhole (h.within ⟨Nat.le_add_right _ _, by omega⟩), h.disk_eq, hsum, Nat.add_mul,
    Nat.add_assoc]

/-- What the passes over the chunks rest on: each chunk reads its records at their addresses, has
some, and starts at a multiple of the record size. -/
structure ReadChunk.Sound (map : MftExtentMap) (chunk : ReadChunk) : Prop where
  placed : chunk.Placed map
  some_record : 0 < chunk.record_count
  aligned : map.bytes_per_record ∣ chunk.disk_offset

theorem Pieces.sound {chunks : List ReadChunk} (h : Pieces map chunks) (hmap : map.VcnContiguous) (hwhole : map.WholeRecords) :
    ∀ chunk ∈ chunks, chunk.Sound map := by
  intro chunk hchunk
  obtain ⟨extent, hmem, hhole, hof⟩ := h.of_extent chunk hchunk
  refine ⟨hof.placed hmap hwhole hmem hhole, hof.some_record, ?_⟩
  rw [hof.disk_eq]
  exact Nat.dvd_add (Nat.dvd_mul_left_of_dvd hwhole _) (Nat.dvd_mul_left _ _)

section Adjacent

variable {current next : ReadChunk} {rest : List ReadChunk}

section

variable (h : current.Adjacent map.bytes_per_record next)

include h

theorem adjacent_join_count : (adjacent_join current next).record_count = current.record_count + next.record_count := by
  rw [adjacent_join, h.2]
  dsimp only
  omega

theorem adjacent_join_covers {frs : Nat} :
    (adjacent_join current next).Covers frs ↔ current.Covers frs ∨ next.Covers frs := by
  have hcount := adjacent_join_count h
  have hstart := h.2
  simp only [ReadChunk.Covers, hcount]
  dsimp only [adjacent_join]
  omega

/-- Joining two sound chunks gives a sound one. -/
theorem adjacent_join_sound (hcurrent : current.Sound map) (hnext : next.Sound map) : (adjacent_join current next).Sound map where
  placed := by
    intro i hi
    rw [adjacent_join_count h] at hi
    by_cases hin : i < current.record_count
    · exact hcurrent.placed i hin
    · have hat := hnext.placed (i - current.record_count) (by omega)
      have hfrs : next.start_frs + (i - current.record_count) = current.start_frs + i := by
        rw [h.2]
        omega
      have hsum : i * map.bytes_per_record =
          current.record_count * map.bytes_per_record + (i - current.record_count) * map.bytes_per_record := by
        rw [← Nat.add_mul, Nat.add_sub_cancel' (by omega)]
      rw [hfrs, h.1, ReadChunk.end_offset, Nat.add_assoc, ← hsum] at hat
      exact hat
  some_record := by
    have := hnext.some_record
    rw [adjacent_join_count h]
    omega
  aligned := hcurrent.aligned

end

/-- Joins keep the start of their left chunk. -/
def ReadChunk.SameStart (one other : ReadChunk) : Prop :=
  other.start_frs = one.start_frs ∧ other.disk_offset = one.disk_offset

theorem ReadChunk.SameStart.trans {a b c : ReadChunk} (h : a.SameStart b) (h' : b.SameStart c) : a.SameStart c :=
  ⟨h'.1.trans h.1, h'.2.trans h.2⟩

/-- Joins of adjacent chunks keep that the chunks read their records at their addresses, in order, and the records read. -/
theorem adjacent_keeps : JoinKeeps adjacent_join (ReadChunk.Adjacent map.bytes_per_record) ReadChunk.Before (ReadChunk.Sound map)
    ReadChunk.Covers where
  joined hadj hcurrent hnext _ := adjacent_join_sound hadj hcurrent hnext
  behind hbefore := hbefore
  before := by
    intro current next later hadj _ _ _ _ _ hbefore
    have hcount := adjacent_join_count hadj
    have hstart := hadj.2
    simp only [ReadChunk.Before, adjacent_join] at hbefore hcount ⊢
    omega
  covered hadj _ _ _ := (adjacent_join_covers hadj).mpr

/-- The chunk the pass is on never loses records it has taken in. -/
theorem coalesce_adjacent_head {joins : ReadChunk → ReadChunk → Bool} {bound : Nat}
    (hcurrent : bound ≤ current.start_frs + current.record_count)
    (hrest : ∀ chunk ∈ rest, bound ≤ chunk.start_frs + chunk.record_count) :
    ∃ head ∈ coalesce joins adjacent_join current rest,
      current.SameStart head ∧ bound ≤ head.start_frs + head.record_count := by
  obtain ⟨head, tail, heq, hsame, hbound⟩ := @coalesce_head _ joins adjacent_join current rest
    (fun one other => one.SameStart other ∧
      (bound ≤ one.start_frs + one.record_count → bound ≤ other.start_frs + other.record_count))
    (fun _ => ⟨⟨rfl, rfl⟩, id⟩) (fun h h' => ⟨h.1.trans h'.1, h'.2 ∘ h.2⟩)
    (by
      intro one other hother
      refine ⟨⟨rfl, rfl⟩, fun _ => ?_⟩
      have := hrest other hother
      simp only [adjacent_join]
      omega)
  exact ⟨head, heq ▸ List.mem_cons_self, hsame, hbound hcurrent⟩

/-- A join of chunks that are not adjacent leaves a chunk that reads some record elsewhere, or one
that has no place on disk: between two neighbours of the list there are holes only. -/
theorem joinsOnly_adjacent_of_placed {joins : ReadChunk → ReadChunk → Bool} (hsound : ∀ chunk ∈ current :: rest, chunk.Sound map)
    (hordered : (current :: rest).Pairwise ReadChunk.Before)
    (hholes : ∀ frs offset, current.start_frs + current.record_count ≤ frs → map.physical_offset frs = some offset →
      ∃ chunk ∈ rest, chunk.Covers frs)
    (hplaced : ∀ chunk ∈ coalesce joins adjacent_join current rest, chunk.Placed map) :
    JoinsOnly joins adjacent_join (ReadChunk.Adjacent map.bytes_per_record) current rest := by
  induction rest generalizing current with
  | nil => exact trivial
  | cons next rest ih =>
    rw [List.pairwise_cons] at hordered
    have hordered' := List.pairwise_cons.mp hordered.2
    have hnext := hsound next (List.mem_cons_of_mem _ List.mem_cons_self)
    have hbefore := hordered.1 next List.mem_cons_self
    have hafter : ∀ chunk ∈ rest, next.start_frs + next.record_count ≤ chunk.start_frs := hordered'.1
    have hholes' : ∀ frs offset, next.start_frs + next.record_count ≤ frs → map.physical_offset frs = some offset →
        ∃ chunk ∈ rest, chunk.Covers frs := by
      intro frs offset hfrs hoffset
      rw [ReadChunk.Before] at hbefore
      obtain ⟨chunk, hchunk, hcovers⟩ := hholes frs offset (by omega) hoffset
      rcases List.mem_cons.mp hchunk with rfl | hchunk
      · exact absurd hcovers.2 (by omega)
      · exact ⟨chunk, hchunk, hcovers⟩
    by_cases hjoin : joins current next
    · rw [coalesce_join hjoin] at hplaced
      have hpos' := hnext.some_record
      rw [ReadChunk.Before] at hbefore
      obtain ⟨head, hhead, ⟨hstart, hdisk⟩, hbound⟩ := @coalesce_adjacent_head (adjacent_join current next) rest joins
        (next.start_frs + next.record_count) (by simp only [adjacent_join]; omega)
        (fun chunk hchunk => by have := hafter chunk hchunk; omega)
      have hheadPlaced := hplaced head hhead
      dsimp only [adjacent_join] at hstart hdisk
      -- the first record after the current chunk is read from the disk, so it is no hole
      have hmeet : next.start_frs = current.start_frs + current.record_count := by
        by_contra hne
        obtain ⟨chunk, hchunk, hcovers⟩ := hholes (current.start_frs + current.record_count) _ (Nat.le_refl _)
          (hheadPlaced.at ⟨by omega, by omega⟩)
        rcases List.mem_cons.mp hchunk with rfl | hchunk
        · exact absurd hcovers.1 (by omega)
        · have := hafter chunk hchunk
          exact absurd hcovers.1 (by omega)
      have hadj : current.Adjacent map.bytes_per_record next := by
        have hat := @ReadChunk.Placed.at map head hheadPlaced next.start_frs ⟨by omega, by omega⟩
        rw [hnext.placed.at_start hpos', hdisk, hstart, hmeet, Nat.add_sub_cancel_left, Option.some.injEq] at hat
        exact ⟨hat, hmeet⟩
      have hcount := adjacent_join_count hadj
      obtain ⟨hsound', hordered''⟩ := adjacent_keeps.join_head hadj hsound (List.pairwise_cons.mpr hordered)
      apply (joinsOnly_join hjoin).mpr
      refine ⟨hadj, @ih (adjacent_join current next) hsound' hordered'' ?_ hplaced⟩
      intro frs offset hfrs
      apply hholes'
      simp only [adjacent_join] at hfrs hcount
      omega
    · rw [coalesce_push hjoin] at hplaced
      apply (joinsOnly_push hjoin).mpr
      exact ih (fun chunk hchunk => hsound chunk (List.mem_cons_of_mem _ hchunk)) hordered.2 hholes'
        (fun chunk hchunk => hplaced chunk (List.mem_cons_of_mem _ hchunk))

end Adjacent

/-- On a map whose extents share no cluster of the volume, no two records share an address. -/
theorem MftExtentMap.DisjointOnDisk.address_injective (h : map.DisjointOnDisk) (hmap : map.VcnContiguous)
    (hwhole : map.WholeRecords) {one other offset : Nat} (hone : map.physical_offset one = some offset)
    (hother : map.physical_offset other = some offset) : one = other := by
  obtain ⟨e, hmem, hhole, hhas⟩ := hmap.sorted.allocated_iff.mpr ⟨offset, hone⟩
  obtain ⟨e', hmem', hhole', hhas'⟩ := hmap.sorted.allocated_iff.mpr ⟨offset, hother⟩
  have hin := hwhole.has_iff.mp hhas
  have hin' := hwhole.has_iff.mp hhas'
  rw [hmap.sorted.physical_offset_eq hwhole hmem hhole hin, Option.some.injEq] at hone
  rw [hmap.sorted.physical_offset_eq hwhole hmem' hhole' hin', Option.some.injEq] at hother
  obtain ⟨hlow, hhigh⟩ := hin
  obtain ⟨hlow', hhigh'⟩ := hin'
  -- the address of a record lies below the end of its extent
  have hbelow : ∀ (extent : MftExtent) (frs : Nat), extent.vcn * map.records_per_cluster ≤ frs →
      frs < (extent.vcn + extent.cluster_count) * map.records_per_cluster →
      extent.lcn.raw_unsigned * map.bytes_per_cluster + (frs - extent.vcn * map.records_per_cluster) * map.bytes_per_record <
        (extent.lcn.raw_unsigned + extent.cluster_count) * map.bytes_per_cluster := by
    intro extent frs hle hlt
    rw [Nat.add_mul] at hlt ⊢
    have hcount : (frs - extent.vcn * map.records_per_cluster) * map.bytes_per_record <
        extent.cluster_count * map.records_per_cluster * map.bytes_per_record :=
      Nat.mul_lt_mul_of_pos_right (by omega) map.record_pos
    rw [Nat.mul_assoc, ← hwhole.cluster_eq] at hcount
    omega
  have hend := hbelow e one hlow hhigh
  have hend' := hbelow e' other hlow' hhigh'
  by_cases heq : e = e'
  · subst heq
    have hsame := Nat.add_left_cancel (hone.trans hother.symm)
    have := Nat.eq_of_mul_eq_mul_right map.record_pos hsame
    omega
  · have : Std.Symm fun one other : MftExtent => one.lcn.is_hole = false → other.lcn.is_hole = false →
        one.lcn.raw_unsigned + one.cluster_count ≤ other.lcn.raw_unsigned ∨
          other.lcn.raw_unsigned + other.cluster_count ≤ one.lcn.raw_unsigned :=
      ⟨fun a b hab ha hb => (hab hb ha).symm⟩
    rcases List.Pairwise.forall h hmem hmem' heq hhole hhole' with hle | hle
    · have := Nat.mul_le_mul_right map.bytes_per_cluster hle
      omega
    · have := Nat.mul_le_mul_right map.bytes_per_cluster hle
      omega

/-- The address of a record by the displacement of its extent. -/
theorem MftExtentMap.VcnContiguous.address_shift (hmap : map.VcnContiguous) (hwhole : map.WholeRecords) {extent : MftExtent}
    (hmem : extent ∈ map.extents) (hhole : extent.lcn.is_hole = false) {frs : Nat}
    (hhas : extent.Has (frs * map.bytes_per_record / map.bytes_per_cluster)) {offset : Nat} :
    map.physical_offset frs = some offset ↔
      (offset : Int) = (extent.lcn.raw - extent.vcn) * map.bytes_per_cluster + frs * map.bytes_per_record := by
  have hin := hwhole.has_iff.mp hhas
  have hlow := hin.1
  rw [hmap.sorted.physical_offset_eq hwhole hmem hhole hin, Option.some.injEq]
  have hraw : (extent.lcn.raw_unsigned : Int) = extent.lcn.raw := by
    simp only [Lcn.is_hole, decide_eq_false_iff_not, Int.not_lt] at hhole
    rw [Lcn.raw_unsigned, Int.toNat_of_nonneg hhole]
  have hcluster : (map.bytes_per_cluster : Int) = map.records_per_cluster * map.bytes_per_record := by
    exact_mod_cast hwhole.cluster_eq
  have hvalue : ((extent.lcn.raw_unsigned * map.bytes_per_cluster +
      (frs - extent.vcn * map.records_per_cluster) * map.bytes_per_record : Nat) : Int) =
      (extent.lcn.raw - extent.vcn) * map.bytes_per_cluster + frs * map.bytes_per_record := by
    push_cast [Nat.cast_sub hlow]
    rw [hraw, hcluster]
    ring
  omega

/-- In line means: the addresses go up by one record for each record. -/
theorem MftExtentMap.VcnContiguous.inLine_iff (hmap : map.VcnContiguous) (hwhole : map.WholeRecords) {first last offset : Nat}
    (hfirst : map.physical_offset first = some offset) :
    map.InLine first last ↔ first ≤ last ∧ ∀ frs, first ≤ frs → frs ≤ last →
      map.physical_offset frs = some (offset + (frs - first) * map.bytes_per_record) := by
  have hmono : ∀ {a b : Nat}, a ≤ b → a * map.bytes_per_record / map.bytes_per_cluster ≤ b * map.bytes_per_record / map.bytes_per_cluster :=
    fun hab => Nat.div_le_div_right (Nat.mul_le_mul_right _ hab)
  constructor
  · rintro ⟨hle, shift, hline⟩
    refine ⟨hle, ?_⟩
    intro frs hlow hhigh
    obtain ⟨e, hmem, hhole, hhas, hshift⟩ := hline _ (Nat.le_refl _) (hmono hle)
    obtain ⟨e', hmem', hhole', hhas', hshift'⟩ := hline _ (hmono hlow) (hmono hhigh)
    rw [hmap.address_shift hwhole hmem hhole hhas, hshift] at hfirst
    rw [hmap.address_shift hwhole hmem' hhole' hhas', hshift']
    push_cast [Nat.cast_sub hlow]
    rw [hfirst]
    ring
  · rintro ⟨hle, hline⟩
    obtain ⟨e, hmem, hhole, hhas⟩ := hmap.sorted.allocated_iff.mpr ⟨offset, hfirst⟩
    refine ⟨hle, e.lcn.raw - e.vcn, ?_⟩
    intro vcn hlow hhigh
    rw [hwhole.vcn_eq] at hlow hhigh
    have hpos := hwhole.per_cluster_pos
    -- a record of the cluster between the two
    obtain ⟨frs, hfrs, hfrs', hcluster⟩ : ∃ frs, first ≤ frs ∧ frs ≤ last ∧ frs / map.records_per_cluster = vcn := by
      have hend := (Nat.le_div_iff_mul_le hpos).mp hhigh
      by_cases hin : first ≤ vcn * map.records_per_cluster
      · exact ⟨_, hin, hend, Nat.mul_div_cancel _ hpos⟩
      · refine ⟨first, Nat.le_refl _, hle, Nat.le_antisymm hlow ?_⟩
        exact (Nat.le_div_iff_mul_le hpos).mpr (by omega)
    have haddress := hline frs hfrs hfrs'
    obtain ⟨e', hmem', hhole', hhas'⟩ := hmap.sorted.allocated_iff.mpr ⟨_, haddress⟩
    rw [hmap.address_shift hwhole hmem hhole hhas] at hfirst
    rw [hmap.address_shift hwhole hmem' hhole' hhas'] at haddress
    rw [hwhole.vcn_eq, hcluster] at hhas'
    refine ⟨e', hmem', hhole', hhas', ?_⟩
    push_cast [Nat.cast_sub hfrs] at haddress
    have hmul : (e'.lcn.raw - e'.vcn) * (map.bytes_per_cluster : Int) = (e.lcn.raw - e.vcn) * map.bytes_per_cluster := by
      linarith
    have hcpos : (map.bytes_per_cluster : Int) ≠ 0 := by
      have := map.cluster_pos
      omega
    exact Int.eq_of_mul_eq_mul_right hcpos hmul

section Precise

/-- The second chunk starts at or after the first on disk, with a record the first does not read. -/
def ReadChunk.Ahead (one other : ReadChunk) : Prop :=
  one.disk_offset ≤ other.disk_offset ∧ ¬ one.Covers other.start_frs

variable {current next : ReadChunk} {rest : List ReadChunk}

/-- Two sound chunks that share a record: the one further on starts inside the other. -/
theorem ReadChunk.Ahead.apart {one other : ReadChunk} (h : one.Ahead other) (hone : one.Sound map) (hother : other.Sound map)
    (frs : Nat) : ¬ (one.Covers frs ∧ other.Covers frs) := by
  rintro ⟨hcovers, hcovers'⟩
  have heq := (hone.placed.at hcovers).symm.trans (hother.placed.at hcovers')
  rw [Option.some.injEq] at heq
  have hdisk := h.1
  have hle : frs - other.start_frs ≤ frs - one.start_frs :=
    Nat.le_of_mul_le_mul_right (by omega : (frs - other.start_frs) * map.bytes_per_record ≤
      (frs - one.start_frs) * map.bytes_per_record) map.record_pos
  obtain ⟨hlow, hhigh⟩ := hcovers
  have hlow' := hcovers'.1
  exact h.2 ⟨by omega, by omega⟩

/-- What a join of two chunks in line comes to. -/
structure Joined (map : MftExtentMap) (current next : ReadChunk) : Prop where
  meets : current.start_frs + current.record_count ≤ next.start_frs
  disk_eq : next.disk_offset = current.disk_offset + (next.start_frs - current.start_frs) * map.bytes_per_record
  count_eq : (precise_join map.bytes_per_record current next).record_count = next.start_frs - current.start_frs + next.record_count
  sound : (precise_join map.bytes_per_record current next).Sound map

theorem joined_of_inLine (hmap : map.VcnContiguous) (hwhole : map.WholeRecords) (hcurrent : current.Sound map) (hnext : next.Sound map)
    (hahead : current.Ahead next) (h : map.InLine current.start_frs next.start_frs) : Joined map current next := by
  have hfirst := hcurrent.placed.at_start hcurrent.some_record
  obtain ⟨hle, hline⟩ := (hmap.inLine_iff hwhole hfirst).mp h
  have hmeets : current.start_frs + current.record_count ≤ next.start_frs := by
    by_contra hnot
    exact hahead.2 ⟨hle, by omega⟩
  have hdisk : next.disk_offset = current.disk_offset + (next.start_frs - current.start_frs) * map.bytes_per_record := by
    have := hline next.start_frs hle (Nat.le_refl _)
    rwa [hnext.placed.at_start hnext.some_record, Option.some.injEq] at this
  have hcount : (precise_join map.bytes_per_record current next).record_count =
      next.start_frs - current.start_frs + next.record_count := by
    rw [precise_join, ReadChunk.end_offset, hdisk, Nat.add_assoc, Nat.add_sub_cancel_left, ← Nat.add_mul,
      Nat.mul_div_cancel _ map.record_pos]
  refine ⟨hmeets, hdisk, hcount, ?_, ?_, hcurrent.aligned⟩
  · intro i hi
    rw [hcount] at hi
    by_cases hin : i ≤ next.start_frs - current.start_frs
    · have := hline (current.start_frs + i) (by omega) (by omega)
      rwa [Nat.add_sub_cancel_left] at this
    · have hat := hnext.placed (i - (next.start_frs - current.start_frs)) (by omega)
      have hfrs : next.start_frs + (i - (next.start_frs - current.start_frs)) = current.start_frs + i := by omega
      have hsum : i = (next.start_frs - current.start_frs) + (i - (next.start_frs - current.start_frs)) := by omega
      rw [hfrs, hdisk, Nat.add_assoc, ← Nat.add_mul, ← hsum] at hat
      exact hat
  · have := hnext.some_record
    rw [hcount]
    omega

theorem Joined.covers_iff (h : Joined map current next) {frs : Nat} :
    (precise_join map.bytes_per_record current next).Covers frs ↔
      current.start_frs ≤ frs ∧ frs < next.start_frs + next.record_count := by
  have hmeets := h.meets
  have hcount := h.count_eq
  have hstart : (precise_join map.bytes_per_record current next).start_frs = current.start_frs := rfl
  rw [ReadChunk.Covers, hcount, hstart]
  omega

/-- The records between the two chunks lie before the second on disk, so no later chunk starts
there. -/
theorem Joined.ahead (h : Joined map current next) {later : ReadChunk} (hcurrent : current.Ahead later) (hnext : next.Ahead later)
    (hlater : later.Sound map) : (precise_join map.bytes_per_record current next).Ahead later := by
  refine ⟨hcurrent.1, ?_⟩
  intro hcovers
  have hat := h.sound.placed.at hcovers
  rw [hlater.placed.at_start hlater.some_record, Option.some.injEq] at hat
  obtain ⟨hlow, hhigh⟩ := h.covers_iff.mp hcovers
  have hnot : ¬ next.Covers later.start_frs := hnext.2
  have hbelow : later.start_frs < next.start_frs := by
    by_contra hge
    exact hnot ⟨by omega, hhigh⟩
  have hlt : (later.start_frs - current.start_frs) * map.bytes_per_record <
      (next.start_frs - current.start_frs) * map.bytes_per_record := Nat.mul_lt_mul_of_pos_right (by omega) map.record_pos
  have hdisk := h.disk_eq
  have hle := hnext.1
  dsimp only [precise_join] at hat
  omega

/-- Joins of chunks in line keep that the chunks are sound and apart from each other, and the records read. -/
theorem inLine_keeps (hmap : map.VcnContiguous) (hwhole : map.WholeRecords) : JoinKeeps (precise_join map.bytes_per_record)
    (fun one other => map.InLine one.start_frs other.start_frs) ReadChunk.Ahead (ReadChunk.Sound map) ReadChunk.Covers where
  joined hline hcurrent hnext hahead := (joined_of_inLine hmap hwhole hcurrent hnext hahead hline).sound
  behind hahead := hahead
  before hline hcurrent hnext hlater hahead hfirst hsecond :=
    (joined_of_inLine hmap hwhole hcurrent hnext hahead hline).ahead hfirst hsecond hlater
  covered := by
    intro current next frs hline hcurrent hnext hahead hcovers
    have hjoined := joined_of_inLine hmap hwhole hcurrent hnext hahead hline
    have hmeets := hjoined.meets
    rw [hjoined.covers_iff]
    simp only [ReadChunk.Covers] at hcovers
    omega

/-- A join reaches beyond the start of its right chunk. -/
theorem lt_precise_join_end {bound : Nat} (hdisk : bound ≤ next.disk_offset) (hsome : 0 < next.record_count) :
    bound < (precise_join map.bytes_per_record current next).end_offset map.bytes_per_record := by
  have hpos := map.record_pos
  have hend : bound + map.bytes_per_record ≤ next.end_offset map.bytes_per_record := by
    have := Nat.mul_le_mul_right map.bytes_per_record (Nat.succ_le_of_lt hsome)
    rw [ReadChunk.end_offset]
    omega
  have hfloor := Nat.div_add_mod (next.end_offset map.bytes_per_record - current.disk_offset) map.bytes_per_record
  have hmod := Nat.mod_lt (next.end_offset map.bytes_per_record - current.disk_offset) hpos
  rw [Nat.mul_comm map.bytes_per_record] at hfloor
  have hjoined : (precise_join map.bytes_per_record current next).end_offset map.bytes_per_record = current.disk_offset +
      (next.end_offset map.bytes_per_record - current.disk_offset) / map.bytes_per_record * map.bytes_per_record := by
    simp only [precise_join, ReadChunk.end_offset]
  omega

/-- The chunk the pass is on keeps reaching beyond the start of the chunks it has taken in. -/
theorem coalesce_precise_head {joins : ReadChunk → ReadChunk → Bool} {bound : Nat}
    (hcurrent : bound < current.end_offset map.bytes_per_record)
    (hrest : ∀ chunk ∈ rest, bound ≤ chunk.disk_offset ∧ 0 < chunk.record_count) :
    ∃ head ∈ coalesce joins (precise_join map.bytes_per_record) current rest,
      current.SameStart head ∧ bound < head.end_offset map.bytes_per_record := by
  obtain ⟨head, tail, heq, hsame, hbound⟩ := @coalesce_head _ joins (precise_join map.bytes_per_record) current rest
    (fun one other => one.SameStart other ∧
      (bound < one.end_offset map.bytes_per_record → bound < other.end_offset map.bytes_per_record))
    (fun _ => ⟨⟨rfl, rfl⟩, id⟩) (fun h h' => ⟨h.1.trans h'.1, h'.2 ∘ h.2⟩)
    (by
      intro one other hother
      obtain ⟨hdisk, hsome⟩ := hrest other hother
      exact ⟨⟨rfl, rfl⟩, fun _ => lt_precise_join_end hdisk hsome⟩)
  exact ⟨head, heq ▸ List.mem_cons_self, hsame, hbound hcurrent⟩

/-- Where no two records share an address, a pass that leaves every record at its address has
joined chunks in line only. -/
theorem joinsOnly_inLine_of_placed {joins : ReadChunk → ReadChunk → Bool} (hmap : map.VcnContiguous) (hwhole : map.WholeRecords)
    (hdisjoint : map.DisjointOnDisk) (hsound : ∀ chunk ∈ current :: rest, chunk.Sound map)
    (hahead : (current :: rest).Pairwise ReadChunk.Ahead)
    (hplaced : ∀ chunk ∈ coalesce joins (precise_join map.bytes_per_record) current rest, chunk.Placed map) :
    JoinsOnly joins (precise_join map.bytes_per_record) (fun one other => map.InLine one.start_frs other.start_frs) current rest := by
  induction rest generalizing current with
  | nil => exact trivial
  | cons next rest ih =>
    have hcurrent := hsound current List.mem_cons_self
    have hnext := hsound next (List.mem_cons_of_mem _ List.mem_cons_self)
    have hpairs := List.pairwise_cons.mp hahead
    by_cases hjoin : joins current next
    · rw [coalesce_join hjoin] at hplaced
      obtain ⟨head, hhead, ⟨hstart, hdisk⟩, hbound⟩ := @coalesce_precise_head map (precise_join map.bytes_per_record current next)
        rest joins next.disk_offset (lt_precise_join_end (Nat.le_refl _) hnext.some_record)
        (fun chunk hchunk => ⟨((List.pairwise_cons.mp hpairs.2).1 chunk hchunk).1,
          (hsound chunk (List.mem_cons_of_mem _ (List.mem_cons_of_mem _ hchunk))).some_record⟩)
      have hheadPlaced := hplaced head hhead
      dsimp only [precise_join] at hstart hdisk
      have hle := (hpairs.1 next List.mem_cons_self).1
      -- the head reads the address where the next chunk starts, as its record number `steps`
      obtain ⟨steps, hsteps⟩ : map.bytes_per_record ∣ next.disk_offset - current.disk_offset :=
        Nat.dvd_sub hnext.aligned hcurrent.aligned
      rw [Nat.mul_comm] at hsteps
      have hreach : steps < head.record_count := by
        rw [ReadChunk.end_offset, hdisk] at hbound
        exact Nat.lt_of_mul_lt_mul_right (by omega : steps * map.bytes_per_record < head.record_count * map.bytes_per_record)
      have hat := hheadPlaced steps hreach
      have haddress : head.disk_offset + steps * map.bytes_per_record = next.disk_offset := by omega
      rw [haddress, hstart] at hat
      have hfrs := hdisjoint.address_injective hmap hwhole hat (hnext.placed.at_start hnext.some_record)
      have hline : map.InLine current.start_frs next.start_frs := by
        rw [hmap.inLine_iff hwhole (hcurrent.placed.at_start hcurrent.some_record)]
        refine ⟨by omega, ?_⟩
        intro frs hlow hhigh
        have := @ReadChunk.Placed.at map head hheadPlaced frs ⟨by omega, by omega⟩
        rwa [hdisk, hstart] at this
      obtain ⟨hsound', hahead'⟩ := (inLine_keeps hmap hwhole).join_head hline hsound hahead
      apply (joinsOnly_join hjoin).mpr
      exact ⟨hline, ih hsound' hahead' hplaced⟩
    · rw [coalesce_push hjoin] at hplaced
      apply (joinsOnly_push hjoin).mpr
      exact ih (fun chunk hchunk => hsound chunk (List.mem_cons_of_mem _ hchunk)) hpairs.2
        (fun chunk hchunk => hplaced chunk (List.mem_cons_of_mem _ hchunk))

end Precise

end uffs.mft
