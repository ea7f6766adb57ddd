import Uffs.Lib.Bytes
import Uffs.Text.Utf8

open uffs.lib uffs.lib.bytes uffs.text

namespace uffs.client

/-! Bulk search results through a file: fixed-size records with their texts in one table behind them. -/

/-- A drive letter is one of `A` to `Z`. -/
structure DriveLetter where
  byte : UInt8
  upper : 65 ≤ byte.toNat ∧ byte.toNat ≤ 90
deriving DecidableEq

def DriveLetter.X : DriveLetter := ⟨88, by decide⟩

/-- The letter of a byte, in either case. -/
def DriveLetter.try_from (byte : UInt8) : Option DriveLetter :=
  let upper := if 97 ≤ byte.toNat ∧ byte.toNat ≤ 122 then byte - 32 else byte
  if h : 65 ≤ upper.toNat ∧ upper.toNat ≤ 90 then some ⟨upper, h⟩ else none

theorem DriveLetter.try_from_byte (letter : DriveLetter) : try_from letter.byte = some letter := by
  have hupper := letter.upper
  have hcase : ¬ (97 ≤ letter.byte.toNat ∧ letter.byte.toNat ≤ 122) := by omega
  simp only [try_from, if_neg hcase, dif_pos hupper]

structure SearchRow where
  drive : DriveLetter
  path : Str
  name : Str
  size : UInt64
  is_directory : Bool
  modified : Int64
  created : Int64
  accessed : Int64
  flags : UInt32
  allocated : UInt64
  descendants : UInt32
  treesize : UInt64
  tree_allocated : UInt64
  malformed : Bool
  malformed_path : Bool
  name_hex : Option Str
  file_reference : UInt64
deriving DecidableEq

/-- A row as far as the records carry it. -/
def SearchRow.carried (row : SearchRow) : SearchRow := { row with name_hex := none }

namespace shmem

def MAGIC : UInt32 := 0x53464655

def VERSION : UInt32 := 4

structure ShmemHeader where
  magic : UInt32
  version : UInt32
  row_count : UInt64
  strings_offset : UInt64
  duration_ms : UInt64
  records_scanned : UInt64
  truncated : UInt32
  reserved : UInt32

structure ShmemRecord where
  drive : UInt8
  is_directory : UInt8
  malformed : UInt8
  malformed_path : UInt8
  flags : UInt32
  size : UInt64
  allocated : UInt64
  modified : Int64
  created : Int64
  accessed : Int64
  file_reference : UInt64
  descendants : UInt32
  pad2 : UInt32
  treesize : UInt64
  tree_allocated : UInt64
  path_off : UInt32
  path_len : UInt32
  name_off : UInt32
  name_len : UInt32

/-- Both structures are `repr(C)` and have no gaps. -/
def header_pod : Pod ShmemHeader :=
  (u32.pair <| u32.pair <| u64.pair <| u64.pair <| u64.pair <| u64.pair <| u32.pair u32).iso
    (fun header => (header.magic, header.version, header.row_count, header.strings_offset, header.duration_ms,
      header.records_scanned, header.truncated, header.reserved))
    (fun (magic, version, row_count, strings_offset, duration_ms, records_scanned, truncated, reserved) =>
      { magic, version, row_count, strings_offset, duration_ms, records_scanned, truncated, reserved })
    fun _ => rfl

def record_pod : Pod ShmemRecord :=
  (u8.pair <| u8.pair <| u8.pair <| u8.pair <| u32.pair <| u64.pair <| u64.pair <| i64.pair <| i64.pair <| i64.pair <|
    u64.pair <| u32.pair <| u32.pair <| u64.pair <| u64.pair <| u32.pair <| u32.pair <| u32.pair u32).iso
    (fun rec => (rec.drive, rec.is_directory, rec.malformed, rec.malformed_path, rec.flags, rec.size, rec.allocated,
      rec.modified, rec.created, rec.accessed, rec.file_reference, rec.descendants, rec.pad2, rec.treesize,
      rec.tree_allocated, rec.path_off, rec.path_len, rec.name_off, rec.name_len))
    (fun (drive, is_directory, malformed, malformed_path, flags, size, allocated, modified, created, accessed,
        file_reference, descendants, pad2, treesize, tree_allocated, path_off, path_len, name_off, name_len) =>
      { drive, is_directory, malformed, malformed_path, flags, size, allocated, modified, created, accessed,
        file_reference, descendants, pad2, treesize, tree_allocated, path_off, path_len, name_off, name_len })
    fun _ => rfl

@[simp] theorem header_pod_size : header_pod.size = 48 := rfl

@[simp] theorem record_pod_size : record_pod.size = 96 := rfl

/-- `u32::try_from(len).unwrap_or(u32::MAX)`. -/
def len_or_max (len : Nat) : UInt32 := .ofNat (min len (2 ^ 32 - 1))

@[simp] theorem toNat_len_or_max (len : Nat) : (len_or_max len).toNat = min len (2 ^ 32 - 1) :=
  UInt32.toNat_ofNat_of_lt (Nat.lt_of_le_of_lt (Nat.min_le_right _ _) (by decide))

/-- The texts of a row go behind those before it, and its record says where they are. -/
def push_row : List UInt8 × List ShmemRecord → SearchRow → List UInt8 × List ShmemRecord
  | (string_table, records), row =>
    let path_off := len_or_max string_table.length
    let path_bytes := as_bytes row.path
    let string_table := string_table ++ path_bytes
    let path_len := len_or_max path_bytes.length
    let name_off := len_or_max string_table.length
    let name_bytes := as_bytes row.name
    let string_table := string_table ++ name_bytes
    let name_len := len_or_max name_bytes.length
    (string_table, records ++
      [{ drive := row.drive.byte, is_directory := row.is_directory.toUInt8, malformed := row.malformed.toUInt8
         malformed_path := row.malformed_path.toUInt8, flags := row.flags, size := row.size, allocated := row.allocated
         modified := row.modified, created := row.created, accessed := row.accessed, file_reference := row.file_reference
         descendants := row.descendants, pad2 := 0, treesize := row.treesize, tree_allocated := row.tree_allocated
         path_off, path_len, name_off, name_len }])

/-- The bytes of the file; none where its size overflows. -/
def write_search_results (rows : List SearchRow) (duration_ms records_scanned : UInt64) (truncated : Bool) :
    Option (List UInt8) :=
  let (string_table, records) := rows.foldl push_row ([], [])
  let records_size := rows.length * record_pod.size
  let strings_offset := header_pod.size + records_size
  let total_size := strings_offset + string_table.length
  if 2 ^ 64 ≤ total_size then none
  else
    let header : ShmemHeader :=
      { magic := MAGIC, version := VERSION, row_count := .ofNat rows.length, strings_offset := .ofNat strings_offset
        duration_ms, records_scanned, truncated := truncated.toUInt8.toUInt32, reserved := 0 }
    some (header_pod.to_bytes header ++ cast_slice record_pod records ++ string_table)

inductive ShmemError where
  | too_small
  | bad_magic (magic : UInt32)
  | unsupported_version (version : UInt32)
  | truncated
  | out_of_bounds (row : Nat)
  | invalid_utf8
deriving DecidableEq

/-- The fields of the response that are not left empty. -/
structure SearchResponse where
  rows : List SearchRow
  total_count : UInt64
  records_scanned : UInt64
  duration_ms : UInt64
  truncated : Bool
deriving DecidableEq

/-- `core::str::from_utf8` on a range of the table; none where the range is out of bounds. -/
def read_text (string_table : List UInt8) (start stop : Nat) : Option (Except ShmemError Str) :=
  (slice? string_table start stop).map fun bytes =>
    match from_utf8 bytes with
    | some text => .ok text
    | none => .error .invalid_utf8

/-- The row with its two texts. -/
def ShmemRecord.to_row (rec : ShmemRecord) (path name : Str) : SearchRow :=
  { drive := (DriveLetter.try_from rec.drive).getD .X, path, name, size := rec.size, is_directory := rec.is_directory ≠ 0
    modified := rec.modified, created := rec.created, accessed := rec.accessed, flags := rec.flags
    allocated := rec.allocated, descendants := rec.descendants, treesize := rec.treesize
    tree_allocated := rec.tree_allocated, malformed := rec.malformed ≠ 0, malformed_path := rec.malformed_path ≠ 0
    name_hex := none, file_reference := rec.file_reference }

/-- One turn of the reader's loop. None is an access out of range. -/
def read_row (mmap string_table : List UInt8) (i : Nat) : Option (Except ShmemError SearchRow) := do
  let offset := header_pod.size + i * record_pod.size
  let block ← slice? mmap offset (offset + record_pod.size)
  let record := record_pod.from_bytes block
  let path_start := record.path_off.toNat
  let path_end := path_start + record.path_len.toNat
  let name_start := record.name_off.toNat
  let name_end := name_start + record.name_len.toNat
  if string_table.length < path_end ∨ string_table.length < name_end then return .error (.out_of_bounds i)
  match ← read_text string_table path_start path_end with
  | .error e => return .error e
  | .ok path =>
    match ← read_text string_table name_start name_end with
    | .error e => return .error e
    | .ok name => return .ok (record.to_row path name)

/-- The first error ends the loop. -/
def read_rows (mmap string_table : List UInt8) : Nat → Nat → Option (Except ShmemError (List SearchRow))
  | 0, _ => some (.ok [])
  | count + 1, i => do
    match ← read_row mmap string_table i with
    | .error e => return .error e
    | .ok row =>
      match ← read_rows mmap string_table count (i + 1) with
      | .error e => return .error e
      | .ok rows => return .ok (row :: rows)

/-- None is an arithmetic overflow or an access out of range. -/
def read_search_results (mmap : List UInt8) : Option (Except ShmemError SearchResponse) :=
  if mmap.length < header_pod.size then some (.error .too_small)
  else
    let header := header_pod.from_bytes (mmap.take header_pod.size)
    if header.magic ≠ MAGIC then some (.error (.bad_magic header.magic))
    else if header.version ≠ VERSION then some (.error (.unsupported_version header.version))
    else
      let row_count := header.row_count.toNat
      let records_end := header_pod.size + row_count * record_pod.size
      -- the product and the sum are those of a `usize`
      if 2 ^ 64 ≤ records_end then none
      else
        let strings_offset := header.strings_offset.toNat
        if mmap.length < records_end ∨ mmap.length < strings_offset then some (.error .truncated)
        else
          (read_rows mmap (mmap.drop strings_offset) row_count 0).map fun result => result.map fun rows =>
            { rows, total_count := header.row_count, records_scanned := header.records_scanned
              duration_ms := header.duration_ms, truncated := header.truncated ≠ 0 }

end shmem

end uffs.client
