import Uffs.Mft.SplitStreamRead

open uffs.lib uffs.lib.bytes uffs.text

namespace uffs.mft.metafile

/-! The MFT's own stream, and all streams of a volume. -/

namespace Image

/-- The extents from the MFT's own record have all of its VCNs. -/
def MftWhole (image : Image) : Prop :=
  ∃ extents, mft_extents_from_frs0 image.vol = .ok extents ∧ extent_vcns extents = metafile.whole image.mft_data.clusters

theorem toUInt64_nonneg {value : Int64} (h : 0 ≤ value.toInt) : ((value.toUInt64.toNat : Nat) : Int) = value.toInt := by
  have hle : (0 : Int64) ≤ value := Int64.le_iff_toInt_le.mpr h
  rw [Int64.toNat_toUInt64_of_le hle, ← Int64.toNat_toInt]
  exact Int.toNat_of_nonneg h

/-- Runs on the volume become extents of the same VCNs. -/
theorem extent_vcns_eq {runs : List DataRun} (hsolid : ∀ run ∈ runs, run.is_sparse = false) (hvcns : ∀ vcn ∈ vcns runs, 0 ≤ vcn) :
    extent_vcns (data_runs_to_extents runs) = vcns runs := by
  have hfilter : (runs.filter fun run => !run.is_sparse) = runs := by
    rw [List.filter_eq_self]
    intro run hmem
    rw [hsolid run hmem]
    rfl
  rw [extent_vcns, data_runs_to_extents, hfilter, List.flatMap_map]
  apply List.flatMap_congr
  intro run hmem
  apply List.map_congr_left
  intro i hi
  have hfirst : run.vcn.toInt ∈ vcns runs := by
    refine List.mem_flatMap.mpr ⟨run, hmem, List.mem_map.mpr ⟨0, ?_, by simp⟩⟩
    have hlt : i < run.cluster_count.toNat := List.mem_range.mp hi
    exact List.mem_range.mpr (by omega)
  rw [toUInt64_nonneg (hvcns _ hfirst)]

/-- The run at a cluster is one of the layout, and maps the cluster. -/
theorem run_at_spec {layout : List DataRun} {cluster : Nat} {run : DataRun} (h : run_at layout cluster = some run) :
    run ∈ layout ∧ run.vcn.toInt ≤ cluster ∧ (cluster : Int) < run.vcn.toInt + run.cluster_count.toNat := by
  refine ⟨List.mem_of_find?_eq_some h, ?_⟩
  have hsome := List.find?_some h
  simpa using hsome

/-- The first record is read from the start of the MFT. -/
theorem read_frs0 {vol : Volume} {reads : List RecordRead} {record : List UInt8} (h : read_frs_record vol 0 = ⟨reads, .ok record⟩) :
    ∃ offset, mft_byte_offset vol = (.ok offset : Checked MetafileError _) ∧
      fixed_up (read_handle_at vol offset vol.bytes_per_file_record_segment) = (.ok record : Checked MetafileError _) := by
  rw [read_frs_record, Traced.of_bind_eq_ok] at h
  obtain ⟨start, hstart, h⟩ := h
  obtain ⟨behind, hbehind, h⟩ := Traced.of_bind_eq_ok.mp h
  obtain ⟨offset, hoffset, h⟩ := Traced.of_bind_eq_ok.mp h
  obtain ⟨_, rfl⟩ := Checked.fits_eq_ok.mp hbehind
  obtain ⟨_, rfl⟩ := Checked.fits_eq_ok.mp hoffset
  rw [Traced.read_bind, Traced.mk.injEq] at h
  refine ⟨start, hstart, ?_⟩
  have hzero : start + (0 : UInt64).toNat * vol.bytes_per_file_record_segment = start := by
    rw [UInt64.toNat_zero, Nat.zero_mul, Nat.add_zero]
  rw [hzero] at h
  exact h.2

variable (image : Image)

/-- The MFT's own record has a first segment, with runs on the volume. -/
theorem first_segment : ∃ segment rest, image.mft_data.segments = segment :: rest ∧ segment.record = 0 ∧ segment.runs ≠ [] ∧
    ∀ run ∈ segment.runs, run.is_sparse = false := by
  obtain ⟨segment, rest, hcons⟩ := List.exists_cons_of_ne_nil image.mft_data.nonempty
  have hfirst := image.first
  rw [hcons, List.head?_cons, Option.map_some, Option.some.injEq] at hfirst
  refine ⟨segment, rest, hcons, hfirst, ?_, ?_⟩
  · intro hnil
    rcases image.mft_data.split with hsplit | ⟨other, hother⟩
    · exact hsplit segment (hcons ▸ List.mem_cons_self) (by rw [hnil]; rfl)
    · obtain ⟨attrs, hattrs, _⟩ := image.mft_data.records 0 (.inl rfl)
      obtain ⟨run, hrun, _⟩ := image.starts 0 (record_size_pos hattrs)
      have hmem := (run_at_spec hrun).1
      rw [hother] at hcons
      obtain ⟨rfl, _⟩ := List.cons.inj hcons
      rw [image.layout_eq, hother, List.flatMap_singleton, hnil] at hmem
      cases hmem
  · intro run hmem
    apply image.solid
    rw [image.layout_eq, hcons, List.flatMap_cons]
    exact List.mem_append_left _ hmem

/-- The extents are the runs of the first segment. -/
theorem mft_extents_eq {segment : StreamSegment} {rest : List StreamSegment} (hcons : image.mft_data.segments = segment :: rest)
    (hrecord : segment.record = 0) (hruns : segment.runs ≠ []) (hsolid : ∀ run ∈ segment.runs, run.is_sparse = false) :
    mft_extents_from_frs0 image.vol = .ok (data_runs_to_extents segment.runs) := by
  obtain ⟨attrs, hattrs, hsegments⟩ := image.mft_data.records 0 (.inl rfl)
  have hplace := (at_place_iff image.cluster_pos).mpr image.starts
  obtain ⟨record, hread, hparse⟩ := read_frs_record_eq image.addressable hplace hattrs
  obtain ⟨offset, hoffset, hfixed⟩ := read_frs0 hread
  have hfind : attrs.find? (is_wanted none) = some segment.attr := by
    rw [Option.map_none] at hsegments
    rw [← List.head?_filter, hsegments, hcons, List.filter_cons_of_pos (by simpa using hrecord)]
    rfl
  have hdata := (image.mft_data.runs segment (hcons ▸ List.mem_cons_self)).2
  have hextents : (data_runs_to_extents segment.runs).isEmpty = false := by
    obtain ⟨run, others, hrun⟩ := List.exists_cons_of_ne_nil hruns
    rw [data_runs_to_extents, hrun, List.filter_cons_of_pos]
    · rfl
    · rw [hsolid run (hrun ▸ List.mem_cons_self)]
      rfl
  rw [mft_extents_from_frs0, hoffset, Checked.ok_bind, hfixed, Checked.ok_bind, hparse, Option.bind_some, hfind]
  simp only [hdata, Checked.ok_bind, hextents, Bool.false_eq_true, if_false]
  rfl

theorem mft_whole_iff : image.MftWhole ↔ ∃ segment, image.mft_data.segments = [segment] := by
  obtain ⟨segment, rest, hcons, hrecord, hruns, hsolid⟩ := image.first_segment
  have hmem : segment ∈ image.mft_data.segments := hcons ▸ List.mem_cons_self
  have hextents := image.mft_extents_eq hcons hrecord hruns hsolid
  have hnonneg : ∀ vcn ∈ vcns segment.runs, 0 ≤ vcn := by
    intro vcn hvcn
    have hwhole : vcn ∈ metafile.whole image.mft_data.clusters := by
      rw [← image.mft_data.whole, hcons, List.flatMap_cons, Stored.vcns_append]
      exact List.mem_append_left _ hvcn
    obtain ⟨i, _, rfl⟩ := List.mem_map.mp hwhole
    exact Int.natCast_nonneg i
  have hone : image.MftWhole ↔ vcns segment.runs = metafile.whole image.mft_data.clusters := by
    rw [MftWhole, ← extent_vcns_eq hsolid hnonneg]
    constructor
    · rintro ⟨extents, heq, hwhole⟩
      rw [hextents, Checked.ok.injEq] at heq
      rwa [heq]
    · exact fun hwhole => ⟨_, hextents, hwhole⟩
  rw [hone, image.mft_data.single_whole_iff hmem]
  constructor
  · exact fun heq => ⟨segment, heq⟩
  · rintro ⟨other, hother⟩
    rw [hother] at hmem ⊢
    rw [List.mem_singleton.mp hmem]

/-- The MFT's own stream is read whole where it is one segment, another one where the readers' ways lead to
all of it. -/
theorem streams_read_whole_iff : (image.MftWhole ↔ ∃ segment, image.mft_data.segments = [segment]) ∧
    ∀ (frs : UInt64) (stream_name : Option Str) (stream : Stored image.vol image.layout frs stream_name),
      stream.ReadWhole (resolve_data_runs image.vol frs stream_name) ↔ stream.Reachable :=
  ⟨image.mft_whole_iff, fun _ _ stream => stream.read_whole_iff image.cluster_pos image.addressable⟩

end Image

section divided

/-- The two entries of the list: the `$DATA` goes on in record 1. -/
def divided_entries : List ListEntry := [⟨DATA_TYPE, [], 0, 0, 0⟩, ⟨DATA_TYPE, [], 2, 1, 0⟩]

def divided_list : List UInt8 :=
  divided_entries.flatMap fun entry => entry.fixed_part 32 0 ++ List.replicate 6 0

/-- A record of 256 bytes with the attributes. -/
def sample_record (attrs : List UInt8) : List UInt8 :=
  let header := u32.to_bytes FILE_RECORD_MAGIC ++ List.replicate 16 0 ++ u16.to_bytes 48 ++ u16.to_bytes 1 ++
    u32.to_bytes (UInt32.ofNat (52 + attrs.length)) ++ List.replicate 20 0
  header ++ attrs ++ u32.to_bytes END_MARKER ++ List.replicate (204 - attrs.length) 0

/-- A resident `$ATTRIBUTE_LIST`. -/
def sample_list (value : List UInt8) : List UInt8 :=
  u32.to_bytes ATTRIBUTE_LIST_TYPE ++ u32.to_bytes (UInt32.ofNat (24 + value.length)) ++ List.replicate 8 0 ++
    u32.to_bytes (UInt32.ofNat value.length) ++ u16.to_bytes 24 ++ u16.to_bytes 0 ++ value

/-- An unnamed non-resident `$DATA` of one run. -/
def sample_data (lowest_vcn : Int64) (clusters lcn : UInt8) : List UInt8 :=
  u32.to_bytes DATA_TYPE ++ u32.to_bytes 72 ++ [1, 0] ++ List.replicate 6 0 ++
    i64.to_bytes lowest_vcn ++ i64.to_bytes (lowest_vcn + 1) ++ u16.to_bytes 64 ++ List.replicate 6 0 ++
    i64.to_bytes 1024 ++ i64.to_bytes 1024 ++ i64.to_bytes 1024 ++ [0x11, clusters, lcn, 0] ++ List.replicate 4 0

def divided_bytes : List UInt8 :=
  sample_record (sample_list divided_list ++ sample_data 0 2 1) ++ sample_record (sample_data 2 2 5)

/-- A volume with two records of its MFT behind its first cluster. -/
def divided_volume : Volume where
  bytes position := divided_bytes.getD (position - 256) 0
  bytes_per_cluster := 256
  bytes_per_file_record_segment := 256
  mft_start_lcn := 1
  mft_valid_data_length := 1024

def divided_layout : List DataRun := [⟨0, 2, 1⟩, ⟨2, 2, 5⟩]

def divided_list_attr : AttributeRef := ⟨sample_list divided_list, AttributeRecordHeader.read_header (sample_list divided_list) 0⟩

def divided_segment (number : UInt64) (lowest_vcn : Int64) (clusters lcn : UInt8) : StreamSegment where
  record := number
  attr := ⟨sample_data lowest_vcn clusters lcn, AttributeRecordHeader.read_header (sample_data lowest_vcn clusters lcn) 0⟩
  runs := [⟨lowest_vcn, clusters.toUInt64, lcn.toUInt64.toInt64⟩]

theorem divided_attributes : attributes_at divided_volume divided_layout 0 =
      some [divided_list_attr, (divided_segment 0 0 2 1).attr] ∧
    attributes_at divided_volume divided_layout 1 = some [(divided_segment 1 2 2 5).attr] := by
  decide +kernel

theorem divided_listed : Listed divided_list 0 divided_entries := by
  refine .cons 32 0 (by decide) (by decide) ⟨[], divided_list.drop 26, by decide, rfl⟩ ⟨[], divided_list, rfl, rfl⟩ ?_
  refine .cons 32 0 (by decide) (by decide) ⟨divided_list.take 32, List.replicate 6 0, by decide, by decide⟩
    ⟨divided_list.take 32, divided_list.drop 32, by decide, by decide⟩ ?_
  exact .nil (by decide)

def divided_stream : Stored divided_volume divided_layout 0 none where
  segments := [divided_segment 0 0 2 1, divided_segment 1 2 2 5]
  clusters := 4
  entries := divided_entries
  whole := by decide
  split := .inl (by decide)
  nonempty := List.cons_ne_nil _ _
  runs := by decide
  records := by
    intro record h
    have hrecord : record = 0 ∨ record = 1 := by
      rcases h with rfl | hmem
      · exact .inl rfl
      · have hfrs : divided_entries.map ListEntry.frs = [0, 1] := by decide
        simpa [hfrs] using hmem
    rcases hrecord with rfl | rfl
    · exact ⟨_, divided_attributes.1, by decide⟩
    · exact ⟨_, divided_attributes.2, by decide⟩
  list _ := ⟨_, divided_list_attr, divided_list, divided_attributes.1, by decide, .resident (by decide), divided_listed,
    by decide⟩

theorem divided_layout_eq : divided_layout = divided_stream.segments.flatMap StreamSegment.runs := rfl

theorem divided_starts : Linear divided_volume divided_layout 0 := by
  intro i hi
  have hcluster : (record_start divided_volume 0 + i) / divided_volume.bytes_per_cluster = 0 := by
    rw [record_start, UInt64.toNat_zero, Nat.zero_mul, Nat.zero_add]
    exact Nat.div_eq_of_lt hi
  rw [hcluster]
  exact ⟨⟨0, 2, 1⟩, by decide, by decide⟩

theorem divided_first : divided_stream.segments.head?.map StreamSegment.record = some 0 := rfl

theorem divided_solid : ∀ run ∈ divided_layout, run.is_sparse = false := by decide

theorem divided_cluster_pos : 0 < divided_volume.bytes_per_cluster := by decide

theorem divided_addressable : ∀ offset position, place divided_volume divided_layout offset = some position → position < 2 ^ 64 := by
  intro offset position h
  obtain ⟨run, hrun, rfl⟩ := Option.map_eq_some_iff.mp h
  obtain ⟨hmem, hstart, hend⟩ := Image.run_at_spec hrun
  have hsize : divided_volume.bytes_per_cluster = 256 := rfl
  have hall : ∀ run ∈ divided_layout, run.lcn.toInt ≤ 5 ∧ run.cluster_count.toNat ≤ 2 := by decide
  have hbelow := hall run hmem
  rw [hsize] at hstart hend ⊢
  omega

/-- An MFT of four clusters in two pieces, the second of which only record 1 tells. -/
def divided_image : Image where
  vol := divided_volume
  layout := divided_layout
  mft_data := divided_stream
  layout_eq := divided_layout_eq
  starts := divided_starts
  first := divided_first
  solid := divided_solid
  cluster_pos := divided_cluster_pos
  addressable := divided_addressable

/-- Half of that MFT is found. -/
theorem divided_mft_not_whole : ¬ ∀ image : Image, image.MftWhole ∧
    ∀ (frs : UInt64) (stream_name : Option Str) (stream : Stored image.vol image.layout frs stream_name),
      stream.ReadWhole (resolve_data_runs image.vol frs stream_name) := by
  intro hall
  obtain ⟨extents, hextents, hwhole⟩ := (hall divided_image).1
  have hhalf : mft_extents_from_frs0 divided_volume = .ok [⟨0, 2, ⟨1⟩⟩] := by decide +kernel
  have heq : extents = [⟨0, 2, ⟨1⟩⟩] := Checked.ok.inj (hextents.symm.trans hhalf)
  rw [heq] at hwhole
  exact absurd hwhole (by decide)

end divided

end uffs.mft.metafile
