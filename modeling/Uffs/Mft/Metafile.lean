import Uffs.Lib.Pieces
import Uffs.Lib.Traced
import Uffs.Mft.DataRuns
import Uffs.Mft.ExtentMap
import Uffs.Mft.Fixup
import Uffs.Mft.NameLossless

open uffs.lib uffs.lib.bytes uffs.lib.overflow uffs.text

namespace uffs.mft.metafile

/-! The readers of a live volume that find a stream's runs through the records of the MFT. -/

/-- The bytes of a volume, and what `NTFS_VOLUME_DATA` says of it. -/
structure Volume where
  bytes : Nat → UInt8
  bytes_per_cluster : Nat
  bytes_per_file_record_segment : Nat
  mft_start_lcn : Nat
  mft_valid_data_length : Nat

inductive MetafileError where
  | invalid_header
  | no_matching_stream (frs : UInt64) (stream_name : Option Str)
  | run_exceeds_buffer (offset run_bytes capacity : Nat)
deriving DecidableEq

section records

def ATTRIBUTE_LIST_TYPE : UInt32 := 0x20

deriving instance DecidableEq for AttributeRecordHeader

structure AttributeRef where
  data : List UInt8
  header : AttributeRecordHeader
deriving DecidableEq

/-- What `next` yields from an offset on. Every attribute is at least a header long, so as many steps as
the record has bytes are enough. -/
def attribute_items (data : List UInt8) (max_offset : Nat) : Nat → Nat → List AttributeRef
  | 0, _ => []
  | fuel + 1, offset =>
    match slice? data offset (offset + ATTRIBUTE_HEADER_SIZE) with
    | none => []
    | some _ =>
      if max_offset < offset + ATTRIBUTE_HEADER_SIZE then []
      else
        let header := AttributeRecordHeader.read_header data offset
        if header.type_code = END_MARKER then []
        else
          let length := header.length.toNat
          if length < ATTRIBUTE_HEADER_SIZE ∨ max_offset < offset + length then []
          else
            match slice? data offset (offset + length) with
            | none => []
            | some attr_data => ⟨attr_data, header⟩ :: attribute_items data max_offset fuel (offset + length)

/-- The attributes of `AttributeIterator::new(record)`. -/
def attributes (record : List UInt8) : Option (List AttributeRef) :=
  if record.length < HEADER_SIZE then none
  else
    let header := FileRecordSegmentHeader.read_header record
    if header.magic ≠ FILE_RECORD_MAGIC then none
    else
      let first_attr := header.first_attribute_offset.toNat
      let bytes_in_use := header.bytes_in_use.toNat
      if record.length ≤ first_attr ∨ record.length < bytes_in_use then none
      else some (attribute_items record bytes_in_use record.length first_attr)

structure NonResidentAttributeData where
  lowest_vcn : Int64
  mapping_pairs_offset : UInt16
  data_size : Int64

def RESIDENT_SIZE : Nat := 8
def NON_RESIDENT_SIZE : Nat := 48

namespace AttributeRef

def is_non_resident (self : AttributeRef) : Bool := self.header.is_non_resident != 0

def resident_value (self : AttributeRef) : Option (List UInt8) :=
  if self.is_non_resident then none
  else if self.data.length < ATTRIBUTE_HEADER_SIZE + RESIDENT_SIZE then none
  else
    let value_length := (rd_u32 self.data ATTRIBUTE_HEADER_SIZE).toNat
    let value_offset := (rd_u16 self.data (ATTRIBUTE_HEADER_SIZE + 4)).toNat
    slice? self.data value_offset (value_offset + value_length)

def non_resident_data (self : AttributeRef) : Option NonResidentAttributeData :=
  if !self.is_non_resident then none
  else if self.data.length < ATTRIBUTE_HEADER_SIZE + NON_RESIDENT_SIZE then none
  else some {
    lowest_vcn := rd_i64 self.data ATTRIBUTE_HEADER_SIZE
    mapping_pairs_offset := rd_u16 self.data (ATTRIBUTE_HEADER_SIZE + 16)
    data_size := rd_i64 self.data (ATTRIBUTE_HEADER_SIZE + 32) }

/-- The mapping pairs to their end. An overflow in them is a panic; their decoder always finishes. -/
def data_runs {ε : Type} (self : AttributeRef) : Checked ε (List DataRun) :=
  match self.non_resident_data with
  | none => .ok []
  | some nr_data =>
    match slice? self.data nr_data.mapping_pairs_offset.toNat self.data.length with
    | none => .ok []
    | some mapping_pairs_data =>
      match parse_data_runs mapping_pairs_data nr_data.lowest_vcn with
      | .ok runs => .ok runs
      | .error _ => .panic

def name (self : AttributeRef) : Option (List UInt16) :=
  if self.header.name_length = 0 then none
  else
    let name_offset := self.header.name_offset.toNat
    (slice? self.data name_offset (name_offset + self.header.name_length.toNat * 2)).map utf16_units

end AttributeRef

end records

section reads

/-- A read of the volume gives the bytes of its image. -/
def read_handle_at (vol : Volume) (offset length : Nat) : List UInt8 := (List.range length).map fun i => vol.bytes (offset + i)

def mft_byte_offset {ε : Type} (vol : Volume) : Checked ε Nat := Checked.fits 64 (vol.mft_start_lcn * vol.bytes_per_cluster)

/-- What `apply_fixup` leaves of a record; whether it went through is not looked at. -/
def fixed_up {ε : Type} (record : List UInt8) : Checked ε (List UInt8) :=
  match apply_fixup record with
  | none => .panic
  | some (_, record) => .ok record

/-- A record number, and the offset its record is read from. -/
abbrev RecordRead := UInt64 × Nat

abbrev Reading (α : Type) := Traced RecordRead MetafileError α

def read_frs_record (vol : Volume) (frs : UInt64) : Reading (List UInt8) := do
  let start ← .of (mft_byte_offset vol)
  let behind ← .of (Checked.fits 64 (frs.toNat * vol.bytes_per_file_record_segment))
  let offset ← .of (Checked.fits 64 (start + behind))
  .read (frs, offset)
  .of (fixed_up (read_handle_at vol offset vol.bytes_per_file_record_segment))

def saturating_add_usize (a b : Nat) : Nat := min (a + b) (2 ^ 64 - 1)

/-- The loop of `read_runs`: the offset of the next run in the buffer, and the buffer. -/
def fill_runs (vol : Volume) (capacity : Nat) : List DataRun → Nat → List UInt8 → Checked MetafileError (List UInt8)
  | [], _, buf => .ok buf
  | run :: rest, offset, buf => do
    let run_bytes ← Checked.fits 64 (run.cluster_count.toNat * vol.bytes_per_cluster)
    if run.is_sparse then fill_runs vol capacity rest (saturating_add_usize offset run_bytes) buf
    else
      let position := run.lcn.toInt * vol.bytes_per_cluster
      let disk_offset ← if in_i64 position then .ok position.toNat else .panic
      let stop ← Checked.fits 64 (offset + run_bytes)
      if buf.length < stop then .error (.run_exceeds_buffer offset run_bytes capacity)
      else
        fill_runs vol capacity rest (saturating_add_usize offset run_bytes)
          (overwrite buf offset (read_handle_at vol disk_offset run_bytes))

def read_runs (vol : Volume) (runs : List DataRun) (data_size : Nat) : Checked MetafileError (List UInt8) := do
  let allocated ← runs.foldlM (fun total run => do
    let run_bytes ← Checked.fits 64 (run.cluster_count.toNat * vol.bytes_per_cluster)
    Checked.fits 64 (total + run_bytes)) 0
  let capacity := max allocated data_size
  let buf ← fill_runs vol capacity runs 0 (List.replicate capacity 0)
  return buf.take (min data_size capacity)

end reads

section streams

/-- The smallest entry of an `$ATTRIBUTE_LIST`. -/
def MIN_ENTRY : Nat := 0x1A

/-- The loop over the entries from a position on; none is shorter than `MIN_ENTRY`, so as many steps as
the list has bytes are enough. -/
def list_data_frs (list : List UInt8) (stream_name : Str) : Nat → Nat → List UInt64 → List UInt64
  | 0, _, out => out
  | fuel + 1, pos, out =>
    if pos + MIN_ENTRY ≤ list.length then
      let entry_len := (rd_u16 list (pos + 4)).toNat
      if entry_len < MIN_ENTRY then out
      else
        let name_len := (rd_u8 list (pos + 6)).toNat
        let name_off := (rd_u8 list (pos + 7)).toNat
        let name := ((slice? list (pos + name_off) (pos + name_off + name_len * 2)).map fun bytes => (decode_utf16le bytes).1).getD []
        let frs := file_reference_to_frs (rd_u64 list (pos + 0x10))
        let found := rd_u32 list pos = DATA_TYPE ∧ name = stream_name
        list_data_frs list stream_name fuel (pos + entry_len) (if found ∧ frs ∉ out then out ++ [frs] else out)
    else out

def attribute_list_data_frs (list : List UInt8) (stream_name : Str) : List UInt64 :=
  list_data_frs list stream_name list.length 0 []

/-- The attribute is a non-resident `$DATA` with the name that is wanted, unnamed for none. -/
def is_wanted (want_name : Option (List UInt16)) (attr : AttributeRef) : Bool :=
  attr.header.type_code == DATA_TYPE && attr.is_non_resident &&
    match want_name with
    | none => attr.header.name_length == 0
    | some want => attr.name == some want

def find_data_attr {ε : Type} (record : List UInt8) (want_name : Option (List UInt16)) :
    Checked ε (Option (List DataRun × UInt64)) :=
  match attributes record with
  | none => .ok none
  | some attrs =>
    match attrs.find? (is_wanted want_name) with
    | none => .ok none
    | some attr =>
      match attr.non_resident_data with
      | none => .ok none
      | some non_resident => do
        let runs ← attr.data_runs
        return some (runs, non_resident.data_size.toUInt64)

/-- The payload of the `$ATTRIBUTE_LIST`, resident or not; none without one. -/
def attribute_list (vol : Volume) (base_record : List UInt8) : Checked MetafileError (Option (List UInt8)) :=
  match attributes base_record with
  | none => .error .invalid_header
  | some attrs =>
    match attrs.find? fun attr => attr.header.type_code == ATTRIBUTE_LIST_TYPE with
    | none => .ok none
    | some list_attr =>
      match list_attr.resident_value with
      | some resident => .ok (some resident)
      | none =>
        match list_attr.non_resident_data with
        | none => .ok none
        | some non_resident => do
          let runs ← list_attr.data_runs
          let list ← read_runs vol runs non_resident.data_size.toUInt64.toNat
          return some list

/-- The loop over the extension records: the runs so far, and the size the first of them told. -/
def extension_runs (vol : Volume) (want : List UInt16) :
    List UInt64 → List DataRun → UInt64 → Reading (List DataRun × UInt64)
  | [], runs, data_size => pure (runs, data_size)
  | ext_frs :: rest, runs, data_size => do
    let ext ← read_frs_record vol ext_frs
    let found ← .of (find_data_attr ext (some want))
    match found with
    | some (ext_runs, ext_size) =>
      extension_runs vol want rest (runs ++ ext_runs) (if data_size = 0 then ext_size else data_size)
    | none => extension_runs vol want rest runs data_size

def find_data_in_extensions (vol : Volume) (base_record : List UInt8) (stream_name : Str) :
    Reading (Option (List DataRun × UInt64)) := do
  let list ← .of (attribute_list vol base_record)
  match list with
  | none => return none
  | some list =>
    let (runs, data_size) ←
      extension_runs vol (encode_utf16 stream_name) (attribute_list_data_frs list stream_name) [] 0
    if runs.isEmpty then return none else return some (runs, data_size)

def resolve_data_runs (vol : Volume) (frs : UInt64) (stream_name : Option Str) : Reading (List DataRun × UInt64) := do
  let record ← read_frs_record vol frs
  let found ← .of (find_data_attr record (stream_name.map encode_utf16))
  match found with
  | some found => return found
  | none =>
    match stream_name with
    | none => .error (.no_matching_stream frs stream_name)
    | some name =>
      let found ← find_data_in_extensions vol record name
      match found with
      | some found => return found
      | none => .error (.no_matching_stream frs stream_name)

end streams

section mft

/-- Sparse runs are dropped. -/
def data_runs_to_extents (runs : List DataRun) : List MftExtent :=
  (runs.filter fun run => !run.is_sparse).map fun run => {
    vcn := run.vcn.toUInt64.toNat
    cluster_count := run.cluster_count.toNat
    lcn := ⟨run.lcn.toInt⟩ }

def single_contiguous_extent (vol : Volume) : List MftExtent :=
  [{ vcn := 0
     cluster_count := vol.mft_valid_data_length / vol.bytes_per_cluster
     lcn := ⟨(UInt64.ofNat vol.mft_start_lcn).toInt64.toInt⟩ }]

/-- The extents of the MFT, from the first matching attribute of its own record. -/
def mft_extents_from_frs0 (vol : Volume) : Checked MetafileError (List MftExtent) := do
  let offset ← mft_byte_offset vol
  let record ← fixed_up (read_handle_at vol offset vol.bytes_per_file_record_segment)
  let runs ←
    match (attributes record).bind fun attrs => attrs.find? (is_wanted none) with
    | none => .ok []
    | some attr => attr.data_runs
  let extents := data_runs_to_extents runs
  if extents.isEmpty then return single_contiguous_extent vol else return extents

end mft

end uffs.mft.metafile
