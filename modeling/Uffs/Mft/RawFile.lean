import Uffs.Lib.Checked
import Uffs.Mft.Convert
import Uffs.Client.Shmem

open uffs.lib uffs.lib.bytes uffs.client

namespace uffs.mft.raw

/-! MFT captures as files: the raw format, written at once or as a stream, and the chunks of a capture in
the order in which their reads completed. -/

inductive MftError where
  | Io
  | InvalidData (message : String)
deriving DecidableEq

abbrev Result (α : Type) := Checked MftError α

def check (ok : Bool) (e : MftError) : Result Unit := if ok then .ok () else .error e

/-- What fits a `Vec` of bytes. -/
def capacity (size : Nat) : Result Unit := if size < 2 ^ 63 then .ok () else .panic

/-- The compressor: a stream of writes at a level, and a whole stream. -/
structure Zstd where
  encode : Int32 → List (List UInt8) → List UInt8
  decode : List UInt8 → Option (List UInt8)

def Zstd.Lossless (zstd : Zstd) : Prop := ∀ level writes, zstd.decode (zstd.encode level writes) = some writes.flatten

def Zstd.decode_all (zstd : Zstd) (data : List UInt8) : Result (List UInt8) :=
  match zstd.decode data with
  | some decoded => .ok decoded
  | none => .error .Io

/-- `b"UFFS-MFT"`. -/
def MAGIC : List UInt8 := [0x55, 0x46, 0x46, 0x53, 0x2D, 0x4D, 0x46, 0x54]

/-- `b"UFFS-IOC"`. -/
def IOCP_MAGIC_PREFIX : List UInt8 := [0x55, 0x46, 0x46, 0x53, 0x2D, 0x49, 0x4F, 0x43]

/-- `b"FILE"`. -/
def NTFS_FILE_MAGIC : List UInt8 := [0x46, 0x49, 0x4C, 0x45]

def VERSION : UInt32 := 3

def FLAG_COMPRESSED : UInt32 := 0x0001

def HEADER_SIZE : Nat := 64

def DEFAULT_RECORD_SIZE : UInt32 := 1024

structure RawMftHeader where
  version : UInt32
  flags : UInt32
  record_size : UInt32
  record_count : UInt64
  original_size : UInt64
  compressed_size : UInt64
  volume_letter : DriveLetter
  reserved_allocated_bytes : UInt64
deriving DecidableEq

namespace RawMftHeader

def is_compressed (self : RawMftHeader) : Bool := self.flags &&& FLAG_COMPRESSED ≠ 0

/-- What stands between the magic and the reserved bytes. -/
def fields : Pod (UInt32 × UInt32 × UInt32 × UInt64 × UInt64 × UInt64 × UInt8 × UInt64) :=
  u32.pair <| u32.pair <| u32.pair <| u64.pair <| u64.pair <| u64.pair <| u8.pair u64

def to_bytes (self : RawMftHeader) : List UInt8 :=
  MAGIC ++ fields.to_bytes (self.version, self.flags, self.record_size, self.record_count, self.original_size,
    self.compressed_size, self.volume_letter.byte, self.reserved_allocated_bytes) ++ List.replicate 11 0

def from_bytes (buf : List UInt8) : Result RawMftHeader := do
  check (buf.take 8 = MAGIC) (.InvalidData "Invalid raw MFT file magic")
  let (version, flags, record_size, record_count, original_size, compressed_size, letter, reserved) :=
    fields.from_bytes ((buf.drop 8).take fields.size)
  check (version ≤ VERSION) (.InvalidData s!"Unsupported raw MFT version: {version}")
  let volume_letter := if 2 ≤ version then (DriveLetter.try_from letter).getD .X else .X
  let reserved_allocated_bytes := if 3 ≤ version then reserved else 0
  pure { version, flags, record_size, record_count, original_size, compressed_size, volume_letter, reserved_allocated_bytes }

end RawMftHeader

structure SaveRawOptions where
  compress : Bool := true
  compression_level : Int32 := 3
  volume_letter : DriveLetter := .X
  /-- No header, the MFT bytes alone. -/
  raw_compat : Bool := false
  reserved_allocated_bytes : UInt64 := 0

structure LoadRawOptions where
  header_only : Bool := false
  volume_letter : Option DriveLetter := none

structure RawMftData where
  header : RawMftHeader
  data : List UInt8
deriving DecidableEq

namespace RawMftData

def get_record (self : RawMftData) (frs : UInt64) : Result (Option (List UInt8)) := do
  let record_size := self.header.record_size.toNat
  let offset ← .fits 64 (frs.toNat * record_size)
  let stop ← .fits 64 (offset + record_size)
  pure (slice? self.data offset stop)

/-- `chunks_exact` takes no size of zero. -/
def iter_records (self : RawMftData) : Result (List (List UInt8 × Nat)) :=
  let record_size := self.header.record_size.toNat
  if record_size = 0 then .panic else pure ((chunks record_size self.data).take (self.data.length / record_size)).zipIdx

end RawMftData

/-- The number of whole records; there is none of size zero. -/
def count_records (size : Nat) (record_size : UInt32) : Result Nat :=
  if record_size = 0 then .panic else pure (size / record_size.toNat)

/-- The header and the bytes of the file. -/
def save_raw_mft (zstd : Zstd) (data : List UInt8) (record_size : UInt32) (options : SaveRawOptions) :
    Result (RawMftHeader × List UInt8) := do
  let record_count ← count_records data.length record_size
  let write_data := if options.compress then zstd.encode options.compression_level [data] else data
  let header : RawMftHeader :=
    { version := VERSION, flags := if options.compress then FLAG_COMPRESSED else 0, record_size
      record_count := .ofNat record_count, original_size := .ofNat data.length
      compressed_size := if options.compress then .ofNat write_data.length else 0
      volume_letter := options.volume_letter, reserved_allocated_bytes := options.reserved_allocated_bytes }
  pure (header, header.to_bytes ++ write_data)

structure StreamingRawMftWriter where
  record_size : UInt32
  /-- What has been written behind the header. -/
  written : List (List UInt8) := []
  bytes_written : Nat := 0
  compress : Bool
  compression_level : Int32
  volume_letter : DriveLetter
  reserved_allocated_bytes : UInt64
  raw_compat : Bool

namespace StreamingRawMftWriter

def new (record_size : UInt32) (options : SaveRawOptions) : StreamingRawMftWriter :=
  { record_size, compress := !options.raw_compat && options.compress, compression_level := options.compression_level
    volume_letter := options.volume_letter, reserved_allocated_bytes := options.reserved_allocated_bytes
    raw_compat := options.raw_compat }

def write_chunk (self : StreamingRawMftWriter) (data : List UInt8) : Result StreamingRawMftWriter := do
  let bytes_written ← .fits 64 (self.bytes_written + data.length)
  pure { self with written := self.written ++ [data], bytes_written }

def write_chunks (self : StreamingRawMftWriter) : List (List UInt8) → Result StreamingRawMftWriter
  | [] => pure self
  | data :: rest => do
    let self ← self.write_chunk data
    self.write_chunks rest

/-- The header goes over the placeholder at the front. -/
def finish (zstd : Zstd) (self : StreamingRawMftWriter) : Result (RawMftHeader × List UInt8) := do
  let record_count ← count_records self.bytes_written self.record_size
  let header : RawMftHeader :=
    { version := VERSION, flags := 0, record_size := self.record_size, record_count := .ofNat record_count
      original_size := .ofNat self.bytes_written, compressed_size := 0, volume_letter := self.volume_letter
      reserved_allocated_bytes := self.reserved_allocated_bytes }
  if self.raw_compat then pure ({ header with version := 0 }, self.written.flatten)
  else
    let body := if self.compress then zstd.encode self.compression_level self.written else self.written.flatten
    let header := { header with
      flags := if self.compress then FLAG_COMPRESSED else 0
      compressed_size := if self.compress then .ofNat body.length else 0 }
    pure (header, header.to_bytes ++ body)

end StreamingRawMftWriter

/-- A capture written chunk by chunk. -/
def save_streaming (zstd : Zstd) (writes : List (List UInt8)) (record_size : UInt32) (options : SaveRawOptions) :
    Result (RawMftHeader × List UInt8) := do
  let writer ← (StreamingRawMftWriter.new record_size options).write_chunks writes
  writer.finish zstd

def detect_record_size_from_first_record (data : List UInt8) : UInt32 :=
  match slice? data 28 32 with
  | some bytes =>
    let bytes_allocated := u32.from_bytes bytes
    if bytes_allocated = 1024 ∨ bytes_allocated = 2048 ∨ bytes_allocated = 4096 then bytes_allocated else DEFAULT_RECORD_SIZE
  | none => DEFAULT_RECORD_SIZE

end uffs.mft.raw

namespace uffs.mft.raw_iocp

open raw

/-- `b"UFFS-IOCP"`. -/
def MAGIC : List UInt8 := IOCP_MAGIC_PREFIX ++ [0x50]

def VERSION : UInt32 := 1

def FLAG_COMPRESSED : UInt32 := 0x0001

def HEADER_SIZE : Nat := 96

structure IocpCaptureHeader where
  version : UInt32
  flags : UInt32
  record_size : UInt32
  chunk_count : UInt32
  total_records : UInt64
  total_data_size : UInt64
  volume_letter : DriveLetter
  concurrency : UInt8
  reserved_allocated_bytes : UInt64
deriving DecidableEq

namespace IocpCaptureHeader

def is_compressed (self : IocpCaptureHeader) : Bool := self.flags &&& FLAG_COMPRESSED ≠ 0

/-- What stands between the padding and the reserved bytes. -/
def fields : Pod (UInt32 × UInt32 × UInt32 × UInt32 × UInt64 × UInt64 × UInt8 × UInt8 × UInt64) :=
  u32.pair <| u32.pair <| u32.pair <| u32.pair <| u64.pair <| u64.pair <| u8.pair <| u8.pair u64

def to_bytes (self : IocpCaptureHeader) : List UInt8 :=
  MAGIC ++ List.replicate 3 0 ++ fields.to_bytes (self.version, self.flags, self.record_size, self.chunk_count,
    self.total_records, self.total_data_size, self.volume_letter.byte, self.concurrency, self.reserved_allocated_bytes) ++
    List.replicate 42 0

def from_bytes (buf : List UInt8) : Result IocpCaptureHeader := do
  check (buf.take 9 = MAGIC) (.InvalidData "Invalid IOCP capture file magic")
  let (version, flags, record_size, chunk_count, total_records, total_data_size, letter, concurrency, reserved_allocated_bytes) :=
    fields.from_bytes ((buf.drop 12).take fields.size)
  check (version ≤ VERSION) (.InvalidData s!"Unsupported IOCP capture version: {version}")
  pure { version, flags, record_size, chunk_count, total_records, total_data_size
         volume_letter := (DriveLetter.try_from letter).getD .X, concurrency, reserved_allocated_bytes }

end IocpCaptureHeader

structure CapturedChunk where
  completion_seq : UInt32
  start_frs : UInt64
  record_count : UInt32
  data_offset : UInt64
  data_size : UInt32
deriving DecidableEq

/-- Four bytes that say nothing. -/
def reserved : Pod Unit := Pod.word 3 (fun _ => 0) (fun _ => ()) (fun _ => by decide) fun _ => rfl

def chunk_pod : Pod CapturedChunk :=
  (u32.pair <| u64.pair <| u32.pair <| u64.pair <| u32.pair reserved).iso
    (fun chunk => (chunk.completion_seq, chunk.start_frs, chunk.record_count, chunk.data_offset, chunk.data_size, ()))
    (fun (completion_seq, start_frs, record_count, data_offset, data_size, _) =>
      { completion_seq, start_frs, record_count, data_offset, data_size })
    fun _ => rfl

example : chunk_pod.size = 32 := rfl

structure IocpCaptureOptions where
  compress : Bool := true
  compression_level : Int32 := 3
  volume_letter : DriveLetter := .X
  concurrency : UInt8 := 8
  reserved_allocated_bytes : UInt64 := 0

structure IocpCaptureWriter where
  chunks : List (CapturedChunk × List UInt8) := []
  record_size : UInt32
  options : IocpCaptureOptions
  next_seq : UInt32 := 0

namespace IocpCaptureWriter

def record_chunk (self : IocpCaptureWriter) (start_frs : UInt64) (data : List UInt8) : Result IocpCaptureWriter := do
  let record_count ← count_records data.length self.record_size
  let chunk : CapturedChunk :=
    { completion_seq := self.next_seq, start_frs, record_count := len_to_u32 record_count, data_offset := 0
      data_size := len_to_u32 data.length }
  let next_seq ← .fits 32 (self.next_seq.toNat + 1)
  pure { self with chunks := self.chunks ++ [(chunk, data)], next_seq := .ofNat next_seq }

def record_chunks (self : IocpCaptureWriter) : List (UInt64 × List UInt8) → Result IocpCaptureWriter
  | [] => pure self
  | (start_frs, data) :: rest => do
    let self ← self.record_chunk start_frs data
    self.record_chunks rest

/-- The chunks with their offsets, and where the data ends. -/
def place (offset : Nat) : List (CapturedChunk × List UInt8) → Result (List (CapturedChunk × List UInt8) × Nat)
  | [] => pure ([], offset)
  | (chunk, data) :: rest => do
    let next ← .fits 64 (offset + data.length)
    let (placed, total) ← place next rest
    pure (({ chunk with data_offset := .ofNat offset }, data) :: placed, total)

def write_to_file (zstd : Zstd) (self : IocpCaptureWriter) : Result (IocpCaptureHeader × List UInt8) := do
  let (placed, data_offset) ← place 0 self.chunks
  let total_records ← .fits 64 (placed.map fun (chunk, _) => chunk.record_count.toNat).sum
  let header : IocpCaptureHeader :=
    { version := VERSION, flags := if self.options.compress then FLAG_COMPRESSED else 0, record_size := self.record_size
      chunk_count := len_to_u32 placed.length, total_records := .ofNat total_records, total_data_size := .ofNat data_offset
      volume_letter := self.options.volume_letter, concurrency := self.options.concurrency
      reserved_allocated_bytes := self.options.reserved_allocated_bytes }
  let datas := placed.map Prod.snd
  let body := if self.options.compress then zstd.encode self.options.compression_level datas else datas.flatten
  pure (header, header.to_bytes ++ cast_slice chunk_pod (placed.map Prod.fst) ++ body)

end IocpCaptureWriter

structure IocpCaptureData where
  header : IocpCaptureHeader
  chunks : List CapturedChunk
  data : List UInt8

/-- The chunks with their data, empty where it is out of bounds. -/
def iter_chunks (data : List UInt8) : List CapturedChunk → Result (List (CapturedChunk × List UInt8))
  | [] => pure []
  | chunk :: rest => do
    let stop ← .fits 64 (chunk.data_offset.toNat + chunk.data_size.toNat)
    let rest ← iter_chunks data rest
    pure ((chunk, (slice? data chunk.data_offset.toNat stop).getD []) :: rest)

def load_iocp_capture (zstd : Zstd) (file : List UInt8) : Result IocpCaptureData := do
  check (HEADER_SIZE ≤ file.length) .Io
  let header ← IocpCaptureHeader.from_bytes (file.take HEADER_SIZE)
  let index_size := header.chunk_count.toNat * chunk_pod.size
  check (HEADER_SIZE + index_size ≤ file.length) .Io
  let chunks := aligned_vec_from_bytes chunk_pod ((file.drop HEADER_SIZE).take index_size)
  let compressed := file.drop (HEADER_SIZE + index_size)
  if header.is_compressed then do
    capacity header.total_data_size.toNat
    let data ← zstd.decode_all compressed
    pure { header, chunks, data }
  else pure { header, chunks, data := compressed }

end uffs.mft.raw_iocp

namespace uffs.mft.raw

open raw_iocp

/-- Copy every chunk to the place of its records. -/
def copy_chunks (record_size : Nat) (data : List UInt8) : List (CapturedChunk × List UInt8) → Result (List UInt8)
  | [] => pure data
  | (chunk, chunk_data) :: rest => do
    let start_offset ← .fits 64 (chunk.start_frs.toNat * record_size)
    let expected_size := chunk.record_count.toNat * record_size
    check (chunk_data.length = expected_size) (.InvalidData
      s!"IOCP chunk at FRS {chunk.start_frs} has wrong size: expected {expected_size}, got {chunk_data.length}")
    let end_offset ← .fits 64 (start_offset + expected_size)
    check (end_offset ≤ data.length) (.InvalidData
      s!"IOCP chunk at FRS {chunk.start_frs} extends beyond MFT bounds: {end_offset} > {data.length}")
    copy_chunks record_size (overwrite data start_offset chunk_data) rest

def load_iocp_as_raw_mft (zstd : Zstd) (options : LoadRawOptions) (file : List UInt8) : Result RawMftData := do
  let capture ← load_iocp_capture zstd file
  let record_size := capture.header.record_size
  let original_size ← .fits 64 (capture.header.total_records.toNat * record_size.toNat)
  let header : RawMftHeader :=
    { version := VERSION, flags := 0, record_size, record_count := capture.header.total_records
      original_size := .ofNat original_size, compressed_size := 0
      volume_letter := options.volume_letter.getD capture.header.volume_letter, reserved_allocated_bytes := 0 }
  if options.header_only then pure { header, data := [] }
  else do
    let total_size ← .fits 64 (capture.header.total_records.toNat * record_size.toNat)
    capacity total_size
    let chunks ← iter_chunks capture.data capture.chunks
    let chunks := chunks.mergeSort fun a b => a.1.start_frs ≤ b.1.start_frs
    let data ← copy_chunks record_size.toNat (List.replicate total_size 0) chunks
    pure { header, data }

def load_raw_mft (zstd : Zstd) (options : LoadRawOptions) (file : List UInt8) : Result RawMftData := do
  check (8 ≤ file.length) .Io
  let magic_buf := file.take 8
  if magic_buf = MAGIC then do
    check (HEADER_SIZE ≤ file.length) .Io
    let header ← RawMftHeader.from_bytes (file.take HEADER_SIZE)
    if options.header_only then pure { header, data := [] }
    else do
      let compressed_data := file.drop HEADER_SIZE
      let data ← if header.is_compressed then zstd.decode_all compressed_data else pure compressed_data
      let expected_size ← .fits 64 (header.record_count.toNat * header.record_size.toNat)
      check (data.length = expected_size) (.InvalidData s!"Data size mismatch: expected {expected_size}, got {data.length}")
      pure { header, data }
  else if magic_buf = IOCP_MAGIC_PREFIX then load_iocp_as_raw_mft zstd options file
  else if magic_buf.take 4 = NTFS_FILE_MAGIC then do
    let record_size := detect_record_size_from_first_record file
    check (file.length % record_size.toNat = 0) (.InvalidData
      s!"File size {file.length} is not a multiple of record size {record_size}")
    let header : RawMftHeader :=
      { version := 0, flags := 0, record_size, record_count := .ofNat (file.length / record_size.toNat)
        original_size := .ofNat file.length, compressed_size := 0, volume_letter := options.volume_letter.getD .X
        reserved_allocated_bytes := 0 }
    if options.header_only then pure { header, data := [] } else pure { header, data := file }
  else .error (.InvalidData "Invalid MFT file: expected UFFS-MFT, UFFS-IOCP, or raw NTFS FILE records")

end uffs.mft.raw
