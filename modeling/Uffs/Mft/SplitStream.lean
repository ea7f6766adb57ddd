import Uffs.Lib.Fold
import Uffs.Mft.MetafileParts

open uffs.lib uffs.lib.overflow uffs.text

namespace uffs.mft.metafile

/-! Streams in several attributes, on a volume whose MFT lies anywhere: what of them the readers find. -/

section image

/-- The VCNs that runs map, in their order. -/
def vcns (runs : List DataRun) : List Int :=
  runs.flatMap fun run => (List.range run.cluster_count.toNat).map fun (i : Nat) => run.vcn.toInt + i

def extent_vcns (extents : List MftExtent) : List Int :=
  extents.flatMap fun extent => (List.range extent.cluster_count).map fun (i : Nat) => (extent.vcn : Int) + i

/-- Every VCN of a stream once, ascending. -/
def whole (clusters : Nat) : List Int := (List.range clusters).map fun (i : Nat) => (i : Int)

variable (vol : Volume) (layout : List DataRun)

/-- The run that has a cluster of the MFT. -/
def run_at (cluster : Nat) : Option DataRun :=
  layout.find? fun run => run.vcn.toInt ≤ cluster ∧ (cluster : Int) < run.vcn.toInt + run.cluster_count.toNat

/-- Where on the volume a byte of the MFT is. -/
def place (offset : Nat) : Option Int :=
  (run_at layout (offset / vol.bytes_per_cluster)).map fun run =>
    (run.lcn.toInt + ((offset / vol.bytes_per_cluster : Nat) - run.vcn.toInt)) * vol.bytes_per_cluster +
      (offset % vol.bytes_per_cluster : Nat)

def record_start (frs : UInt64) : Nat := frs.toNat * vol.bytes_per_file_record_segment

/-- The record of a number: the bytes at their places, fixed up. -/
def record_at (frs : UInt64) : Option (List UInt8) := do
  let bytes ← (List.range vol.bytes_per_file_record_segment).mapM fun i =>
    (place vol layout (record_start vol frs + i)).map fun position => vol.bytes position.toNat
  let (_, record) ← apply_fixup bytes
  return record

def attributes_at (frs : UInt64) : Option (List AttributeRef) := (record_at vol layout frs).bind attributes

/-- The record is read from where it is. -/
def AtPlace (read : RecordRead) : Prop :=
  ∀ i < vol.bytes_per_file_record_segment, place vol layout (record_start vol read.1 + i) = some ((read.2 + i : Nat) : Int)

/-- The runs that have the record lie as far into the volume as those of an MFT in one piece would. -/
def Linear (frs : UInt64) : Prop :=
  ∀ i < vol.bytes_per_file_record_segment, ∃ run,
    run_at layout ((record_start vol frs + i) / vol.bytes_per_cluster) = some run ∧
      run.lcn.toInt = vol.mft_start_lcn + run.vcn.toInt

/-- A segment of a stream: an attribute in the record of a number, and its runs. -/
structure StreamSegment where
  record : UInt64
  attr : AttributeRef
  runs : List DataRun

/-- The value of an attribute, in its record or in the clusters of its runs. -/
inductive HasValue (attr : AttributeRef) : List UInt8 → Prop
  | resident {value : List UInt8} : attr.resident_value = some value → HasValue attr value
  | non_resident {non_resident : NonResidentAttributeData} {runs : List DataRun} :
      attr.resident_value = none → attr.non_resident_data = some non_resident →
      attr.data_runs = (.ok runs : Checked MetafileError _) → (runs.map (run_bytes vol)).sum < 2 ^ 64 →
      (∀ run ∈ runs, in_i64 (run.lcn.toInt * vol.bytes_per_cluster) = true) →
      non_resident.data_size.toUInt64.toNat ≤ (runs.map (run_bytes vol)).sum →
      HasValue attr ((stored_bytes vol runs).take non_resident.data_size.toUInt64.toNat)

/-- A non-resident `$DATA` stream of the file of record `frs`, in segments by VCN. Where one of them is not in
that record, the record has an `$ATTRIBUTE_LIST`, with an entry for each segment in the same order. -/
structure Stored (frs : UInt64) (stream_name : Option Str) where
  segments : List StreamSegment
  clusters : Nat
  entries : List ListEntry
  whole : vcns (segments.flatMap StreamSegment.runs) = whole clusters
  split : (∀ segment ∈ segments, vcns segment.runs ≠ []) ∨ ∃ segment, segments = [segment]
  nonempty : segments ≠ []
  runs : ∀ segment ∈ segments, segment.attr.non_resident_data.isSome ∧
    segment.attr.data_runs = (.ok segment.runs : Checked MetafileError _)
  /-- A record of the file has these segments of the stream, and no others. -/
  records : ∀ record, record = frs ∨ record ∈ entries.map ListEntry.frs → ∃ attrs, attributes_at vol layout record = some attrs ∧
    attrs.filter (is_wanted (stream_name.map encode_utf16)) =
      (segments.filter fun segment => segment.record = record).map StreamSegment.attr
  list : (∃ segment ∈ segments, segment.record ≠ frs) → ∃ attrs list_attr list, attributes_at vol layout frs = some attrs ∧
    (attrs.find? fun attr => attr.header.type_code == ATTRIBUTE_LIST_TYPE) = some list_attr ∧
    HasValue vol list_attr list ∧ Listed list 0 entries ∧
    (entries.filter fun entry => entry.type_code = DATA_TYPE ∧ entry.name = ((stream_name.map encode_utf16).getD [])).map ListEntry.frs =
      segments.map StreamSegment.record

/-- A volume whose MFT lies as its own record says: the record is at the start of the MFT, and so is the
first segment of its `$DATA` in it. -/
structure Image where
  vol : Volume
  layout : List DataRun
  mft_data : Stored vol layout 0 none
  layout_eq : layout = mft_data.segments.flatMap StreamSegment.runs
  starts : Linear vol layout 0
  first : mft_data.segments.head?.map StreamSegment.record = some 0
  solid : ∀ run ∈ layout, run.is_sparse = false
  cluster_pos : 0 < vol.bytes_per_cluster
  addressable : ∀ offset position, place vol layout offset = some position → position < 2 ^ 64

end image

section places

variable {vol : Volume} {layout : List DataRun} {frs : UInt64}

/-- Where the readers look for a record. -/
def linear_offset (vol : Volume) (frs : UInt64) : Nat := vol.mft_start_lcn * vol.bytes_per_cluster + record_start vol frs

theorem at_place_iff (hcluster : 0 < vol.bytes_per_cluster) :
    AtPlace vol layout (frs, linear_offset vol frs) ↔ Linear vol layout frs := by
  apply forall₂_congr
  intro i _
  obtain ⟨offset, hoffset⟩ : ∃ offset, offset = record_start vol frs + i := ⟨_, rfl⟩
  have hsplit : ((offset / vol.bytes_per_cluster : Nat) : Int) * vol.bytes_per_cluster + (offset % vol.bytes_per_cluster : Nat) =
      (offset : Int) := by
    rw [Int.mul_comm]
    exact_mod_cast Nat.div_add_mod offset vol.bytes_per_cluster
  have hposition : ((linear_offset vol frs + i : Nat) : Int) = vol.mft_start_lcn * vol.bytes_per_cluster + offset := by
    rw [linear_offset, hoffset]
    push_cast
    omega
  rw [← hoffset, place, Option.map_eq_some_iff, hposition]
  apply exists_congr
  intro run
  apply and_congr_right
  intro _
  have hne : (vol.bytes_per_cluster : Int) ≠ 0 := by omega
  constructor
  · intro heq
    have hmul : (run.lcn.toInt + ((offset / vol.bytes_per_cluster : Nat) - run.vcn.toInt)) * (vol.bytes_per_cluster : Int) =
        (vol.mft_start_lcn + (offset / vol.bytes_per_cluster : Nat)) * (vol.bytes_per_cluster : Int) := by
      rw [Int.add_mul (vol.mft_start_lcn : Int)]
      omega
    have := Int.eq_of_mul_eq_mul_right hne hmul
    omega
  · intro heq
    have hsum : run.lcn.toInt + (((offset / vol.bytes_per_cluster : Nat) : Int) - run.vcn.toInt) =
        vol.mft_start_lcn + (offset / vol.bytes_per_cluster : Nat) := by omega
    rw [hsum, Int.add_mul]
    omega

/-- A record that can be parsed is not empty. -/
theorem record_size_pos {attrs : List AttributeRef} (h : attributes_at vol layout frs = some attrs) :
    0 < vol.bytes_per_file_record_segment := by
  apply Nat.pos_of_ne_zero
  intro hzero
  have hrecord : record_at vol layout frs = some [] := by
    rw [record_at, hzero]
    rfl
  rw [attributes_at, hrecord] at h
  cases h

/-- A record that lies where the readers look for it is read as it is stored. -/
theorem read_frs_record_eq (haddressable : ∀ offset position, place vol layout offset = some position → position < 2 ^ 64)
    (hplace : AtPlace vol layout (frs, linear_offset vol frs)) {attrs : List AttributeRef}
    (hattrs : attributes_at vol layout frs = some attrs) :
    ∃ record, read_frs_record vol frs = ⟨[(frs, linear_offset vol frs)], .ok record⟩ ∧ attributes record = some attrs := by
  obtain ⟨record, hrecord, hparse⟩ := Option.bind_eq_some_iff.mp hattrs
  have hfits : linear_offset vol frs < 2 ^ 64 := by
    have := haddressable _ _ (hplace 0 (record_size_pos hattrs))
    omega
  have hbytes : (List.range vol.bytes_per_file_record_segment).mapM (fun i =>
      (place vol layout (record_start vol frs + i)).map fun position => vol.bytes position.toNat) =
      some (read_handle_at vol (linear_offset vol frs) vol.bytes_per_file_record_segment) := by
    apply mapM_eq_some
    intro i hi
    rw [hplace i (List.mem_range.mp hi), Option.map_some, Int.toNat_natCast]
  have hfixed : fixed_up (read_handle_at vol (linear_offset vol frs) vol.bytes_per_file_record_segment) =
      (.ok record : Checked MetafileError _) := by
    rw [record_at, hbytes, Option.bind_eq_bind, Option.bind_some, Option.bind_eq_bind, Option.bind_eq_some_iff] at hrecord
    obtain ⟨⟨passed, fixed⟩, hfixup, hfixed⟩ := hrecord
    obtain rfl := Option.some.inj hfixed
    rw [fixed_up, hfixup]
  rw [linear_offset, record_start] at hfits
  refine ⟨record, ?_, hparse⟩
  rw [read_frs_record, mft_byte_offset, Checked.fits_eq (by omega), Traced.of_ok_bind, Checked.fits_eq (by omega), Traced.of_ok_bind,
    Checked.fits_eq hfits, Traced.of_ok_bind, Traced.read_bind, ← record_start, ← linear_offset, hfixed]
  rfl

/-- Wherever a record is read at all, it is read at its linear offset. -/
theorem read_frs_record_reads {reads : List RecordRead} {record : List UInt8}
    (h : read_frs_record vol frs = ⟨reads, .ok record⟩) : reads = [(frs, linear_offset vol frs)] := by
  rw [read_frs_record, Traced.of_bind_eq_ok] at h
  obtain ⟨start, hstart, h⟩ := h
  rw [Traced.of_bind_eq_ok] at h
  obtain ⟨behind, hbehind, h⟩ := h
  rw [Traced.of_bind_eq_ok] at h
  obtain ⟨offset, hoffset, h⟩ := h
  obtain ⟨_, rfl⟩ := Checked.fits_eq_ok.mp hstart
  obtain ⟨_, rfl⟩ := Checked.fits_eq_ok.mp hbehind
  obtain ⟨_, rfl⟩ := Checked.fits_eq_ok.mp hoffset
  rw [Traced.read_bind, Traced.mk.injEq] at h
  exact h.1.symm

end places

end uffs.mft.metafile
