import Uffs.Lib.Bytes
import Uffs.Mft.Index
import Uffs.Mft.NameCodec

open uffs.lib uffs.lib.bytes

namespace uffs.mft

/-- Little-endian field at an offset; zero past the end of the record. -/
def rd {α : Type} (pod : Pod α) (zero : α) (buf : List UInt8) (off : Nat) : α :=
  ((slice? buf off (off + pod.size)).map pod.from_bytes).getD zero

def rd_u8 (buf : List UInt8) (off : Nat) : UInt8 := rd u8 0 buf off

def rd_u16 (buf : List UInt8) (off : Nat) : UInt16 := rd u16 0 buf off

def rd_u32 (buf : List UInt8) (off : Nat) : UInt32 := rd u32 0 buf off

def rd_u64 (buf : List UInt8) (off : Nat) : UInt64 := rd u64 0 buf off

def rd_i64 (buf : List UInt8) (off : Nat) : Int64 := rd i64 0 buf off

/-- Low 48 bits of a file reference. -/
def file_reference_to_frs (file_reference : UInt64) : UInt64 := file_reference &&& 0xFFFFFFFFFFFF

/-- The magic `FILE`. -/
def FILE_RECORD_MAGIC : UInt32 := 0x454C4946

def HEADER_SIZE : Nat := 48

/-- Fields of the record header the parser reads. -/
structure FileRecordSegmentHeader where
  magic : UInt32
  log_file_sequence_number : UInt64
  sequence_number : UInt16
  first_attribute_offset : UInt16
  flags : UInt16
  bytes_in_use : UInt32
  base_file_record_segment : UInt64

def FileRecordSegmentHeader.read_header (data : List UInt8) : FileRecordSegmentHeader where
  magic := rd_u32 data 0
  log_file_sequence_number := rd_u64 data 8
  sequence_number := rd_u16 data 16
  first_attribute_offset := rd_u16 data 20
  flags := rd_u16 data 22
  bytes_in_use := rd_u32 data 24
  base_file_record_segment := rd_u64 data 32

def FileRecordSegmentHeader.is_in_use (self : FileRecordSegmentHeader) : Bool := self.flags &&& 1 != 0

def FileRecordSegmentHeader.is_directory (self : FileRecordSegmentHeader) : Bool := self.flags &&& 2 != 0

def FileRecordSegmentHeader.is_base_record (self : FileRecordSegmentHeader) : Bool :=
  self.base_file_record_segment == 0

/-- Common header of an attribute. -/
structure AttributeRecordHeader where
  type_code : UInt32
  length : UInt32
  is_non_resident : UInt8
  name_length : UInt8
  name_offset : UInt16
  flags : UInt16

def AttributeRecordHeader.read_header (data : List UInt8) (offset : Nat) : AttributeRecordHeader where
  type_code := rd_u32 data offset
  length := rd_u32 data (offset + 4)
  is_non_resident := rd_u8 data (offset + 8)
  name_length := rd_u8 data (offset + 9)
  name_offset := rd_u16 data (offset + 10)
  flags := rd_u16 data (offset + 12)

def AttributeRecordHeader.is_resident (self : AttributeRecordHeader) : Bool := self.is_non_resident == 0

def STANDARD_INFORMATION_TYPE : UInt32 := 0x10
def FILE_NAME_TYPE : UInt32 := 0x30
def DATA_TYPE : UInt32 := 0x80
def INDEX_ROOT_TYPE : UInt32 := 0x90
def INDEX_ALLOCATION_TYPE : UInt32 := 0xA0
def BITMAP_TYPE : UInt32 := 0xB0
def REPARSE_POINT_TYPE : UInt32 := 0xC0
def END_MARKER : UInt32 := 0xFFFFFFFF

/-- A `$FILE_NAME` value: the name, its parent directory, and the times stored with it. -/
structure FileNameAttribute where
  name : DecodedName
  parent_frs : UInt64
  name_space : UInt8
  creation_time : Int64
  modification_time : Int64
  mft_change_time : Int64
  access_time : Int64
deriving DecidableEq, Inhabited

/-- What one attribute adds to its file. -/
inductive Attribute where
  | standard_information (info : StandardInfo)
  | file_name (attr : FileNameAttribute)
  | index_i30 (size : SizeInfo) (flags : UInt8)
  | default_data (size : SizeInfo) (flags : UInt8)
  | named_data (name : DecodedName) (size : SizeInfo) (flags : UInt8)
  | internal (size : SizeInfo) (flags : UInt8) (reparse_tag : Option UInt32)
deriving DecidableEq, Inhabited

/-- File attributes kept in the index; the directory bit is not one of them. -/
def KEPT_ATTRIBUTES : UInt32 := 0x1BFF27

def STANDARD_INFO_SIZE_V12 : Nat := 36
def STANDARD_INFO_SIZE_V30 : Nat := 72

/-- Absolute offset of a resident value. -/
def resident_value_offset (data : List UInt8) (attr_offset : Nat) : Nat :=
  attr_offset + (rd_u16 data (attr_offset + 20)).toNat

/-- `$STANDARD_INFORMATION`: the long form, else the short one; all zero when it does not fit. -/
def parse_standard_info_full (data : List UInt8) (attr_offset : Nat) : StandardInfo :=
  if data.length < attr_offset + 22 then {}
  else
    let value_length := (rd_u32 data (attr_offset + 16)).toNat
    let si_offset := resident_value_offset data attr_offset
    let short : StandardInfo := {
      created := rd_i64 data si_offset
      modified := rd_i64 data (si_offset + 8)
      mft_changed := rd_i64 data (si_offset + 16)
      accessed := rd_i64 data (si_offset + 24)
      flags := rd_u32 data (si_offset + 32) &&& KEPT_ATTRIBUTES }
    if STANDARD_INFO_SIZE_V30 ≤ value_length ∧ si_offset + STANDARD_INFO_SIZE_V30 ≤ data.length then
      { short with
        owner_id := rd_u32 data (si_offset + 48)
        security_id := rd_u32 data (si_offset + 52)
        usn := rd_u64 data (si_offset + 64) }
    else if STANDARD_INFO_SIZE_V12 ≤ value_length ∧ si_offset + STANDARD_INFO_SIZE_V12 ≤ data.length then short
    else {}

def FILE_NAME_SIZE : Nat := 66

/-- A `$FILE_NAME` with its name; DOS-only names and names that overrun the record are skipped. -/
def read_file_name (data : List UInt8) (offset : Nat) : Option FileNameAttribute :=
  let fn_off := resident_value_offset data offset
  if data.length < fn_off + FILE_NAME_SIZE then none
  else if rd_u8 data (fn_off + 65) = 2 then none
  else
    let ns := fn_off + FILE_NAME_SIZE
    (slice? data ns (ns + 2 * (rd_u8 data (fn_off + 64)).toNat)).map fun nb =>
      { name := .of_utf16le nb
        parent_frs := file_reference_to_frs (rd_u64 data fn_off)
        name_space := rd_u8 data (fn_off + 65)
        creation_time := rd_i64 data (fn_off + 8)
        modification_time := rd_i64 data (fn_off + 16)
        mft_change_time := rd_i64 data (fn_off + 24)
        access_time := rd_i64 data (fn_off + 32) }

/-- A stream is described by its first run only. -/
def is_primary (data : List UInt8) (offset : Nat) (header : AttributeRecordHeader) : Bool :=
  header.is_resident || (slice? data (offset + 16) (offset + 24)).map i64.from_bytes == some 0

/-- `$I30` in UTF-16LE. -/
def I30_NAME : List UInt8 := [0x24, 0, 0x49, 0, 0x33, 0, 0x30, 0]

def is_i30 (data : List UInt8) (offset : Nat) (header : AttributeRecordHeader) : Bool :=
  (header.type_code == BITMAP_TYPE || header.type_code == INDEX_ROOT_TYPE ||
    header.type_code == INDEX_ALLOCATION_TYPE) && header.name_length == 4 &&
    slice? data (offset + header.name_offset.toNat) (offset + header.name_offset.toNat + 8) == some I30_NAME

/-- Name of a stream, when its bytes are inside the record. -/
def read_stream_name (data : List UInt8) (offset : Nat) (header : AttributeRecordHeader) : Option DecodedName :=
  let no := offset + header.name_offset.toNat
  (slice? data no (no + 2 * header.name_length.toNat)).map .of_utf16le

/-- `$BadClus:$Bad` covers the whole volume; its initialized size stands for its sizes. -/
def is_badclus_bad (frs_base : UInt64) (header : AttributeRecordHeader) (name : Option DecodedName) : Bool :=
  frs_base == 8 && header.name_length == 4 && name.map DecodedName.display == some ['$', 'B', 'a', 'd']

def read_size (data : List UInt8) (offset : Nat) (header : AttributeRecordHeader) (badclus : Bool) : SizeInfo :=
  if header.is_resident then { length := (rd_u32 data (offset + 16)).toUInt64 }
  else
    let nr := offset + 16
    if nr + 48 ≤ data.length then
      { length := if badclus then rd_u64 data (nr + 40) else rd_u64 data (nr + 32)
        allocated :=
          if rd_u16 data (nr + 18) > 0 then rd_u64 data (nr + 48)
          else if badclus then rd_u64 data (nr + 40)
          else rd_u64 data (nr + 24) }
    else {}

/-- Flag bits of a stream: sparse, resident, and the type `$DATA` or none. -/
def stream_flags (header : AttributeRecordHeader) (data_type : Bool) : UInt8 :=
  let is_sparse : UInt8 := if !header.is_resident && header.flags &&& 0x8000 != 0 then 1 else 0
  let is_resident : UInt8 := if header.is_resident then 2 else 0
  let type_name_id : UInt8 := if data_type then (8 : UInt8) <<< 2 else 0
  is_sparse ||| is_resident ||| type_name_id

def read_stream (data : List UInt8) (frs_base : UInt64) (offset : Nat) (header : AttributeRecordHeader) :
    Option Attribute :=
  if is_i30 data offset header then
    some (.index_i30 (read_size data offset header false) (stream_flags header false))
  else
    let name := if header.name_length = 0 then none else read_stream_name data offset header
    let size := read_size data offset header (is_badclus_bad frs_base header name)
    if header.type_code = DATA_TYPE then
      if header.name_length = 0 then some (.default_data size (stream_flags header true))
      else name.map fun name => .named_data name size (stream_flags header true)
    else
      some (.internal size (stream_flags header false)
        (if header.type_code = REPARSE_POINT_TYPE ∧ header.is_resident then
          some (rd_u32 data (resident_value_offset data offset))
        else none))

def read_attribute (data : List UInt8) (frs_base : UInt64) (offset : Nat) (header : AttributeRecordHeader) :
    Option Attribute :=
  if header.type_code = STANDARD_INFORMATION_TYPE then
    if header.is_resident then some (.standard_information (parse_standard_info_full data offset)) else none
  else if header.type_code = FILE_NAME_TYPE then
    if header.is_resident then (read_file_name data offset).map .file_name else none
  else if is_primary data offset header then read_stream data frs_base offset header
  else none

def ATTRIBUTE_HEADER_SIZE : Nat := 16

/-- The attribute loop. The offset grows with every attribute and stays inside the record, so as many
steps as the record has bytes are enough. -/
def read_attributes (data : List UInt8) (frs_base : UInt64) (max_offset : Nat) : Nat → Nat → List Attribute
  | 0, _ => []
  | fuel + 1, offset =>
    if offset + ATTRIBUTE_HEADER_SIZE ≤ max_offset then
      let header := AttributeRecordHeader.read_header data offset
      if header.type_code = END_MARKER then []
      else if header.length = 0 ∨ data.length < offset + header.length.toNat then []
      else
        (read_attribute data frs_base offset header).toList ++
          read_attributes data frs_base max_offset fuel (offset + header.length.toNat)
    else []

/-- An accepted record buffer: the file it belongs to, what a base record's header sets, and its
attributes in order. -/
structure Segment where
  base : UInt64
  stamp : Option (UInt16 × UInt64) := none
  is_directory : Bool := false
  attributes : List Attribute := []
deriving DecidableEq, Inhabited

/-- The reading half of `process_record`: `none` for a buffer it rejects. -/
def read_segment (data : List UInt8) (frs : UInt64) : Option Segment :=
  if data.length < HEADER_SIZE then none
  else
    let header := FileRecordSegmentHeader.read_header data
    if header.is_in_use && header.magic == FILE_RECORD_MAGIC then
      let base := if header.is_base_record then frs else file_reference_to_frs header.base_file_record_segment
      some {
        base := base
        stamp := if header.is_base_record then some (header.sequence_number, header.log_file_sequence_number) else none
        is_directory := header.is_directory
        attributes := read_attributes data base (min header.bytes_in_use.toNat data.length) data.length
          header.first_attribute_offset.toNat }
    else none

/-- Names are at most 255 code units, so that their bytes fit the ten bits of a name reference. -/
theorem read_stream_name_length {data : List UInt8} {offset : Nat} {header : AttributeRecordHeader} {name : DecodedName}
    (h : read_stream_name data offset header = some name) : name.stored.length < 1024 := by
  obtain ⟨bytes, hslice, rfl⟩ := Option.map_eq_some_iff.mp h
  have hlen := slice?_length hslice
  have hstored := DecodedName.stored_length_le bytes
  have hunits := header.name_length.toNat_lt_size
  have hsize : UInt8.size = 256 := rfl
  omega

theorem read_file_name_length {data : List UInt8} {offset : Nat} {attr : FileNameAttribute}
    (h : read_file_name data offset = some attr) : attr.name.stored.length < 1024 := by
  rw [read_file_name] at h
  split at h
  · cases h
  · split at h
    · cases h
    · obtain ⟨bytes, hslice, rfl⟩ := Option.map_eq_some_iff.mp h
      have hlen := slice?_length hslice
      have hstored := DecodedName.stored_length_le bytes
      have hunits := (rd_u8 data (resident_value_offset data offset + 64)).toNat_lt_size
      have hsize : UInt8.size = 256 := rfl
      dsimp only
      omega

end uffs.mft
