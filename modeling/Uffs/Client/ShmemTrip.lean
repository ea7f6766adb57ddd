import Uffs.Client.Shmem

open uffs.lib uffs.lib.bytes uffs.text

namespace uffs.client.shmem

/-! Which results come back from the file as they went in, and which files the reader survives. -/

/-- The texts of the rows behind each other. -/
def texts (rows : List SearchRow) : List UInt8 := rows.flatMap fun row => as_bytes row.path ++ as_bytes row.name

/-- A text whose place and length fit their 32-bit fields, or that stands by chance where its record points. -/
def Stands (table : List UInt8) (offset : Nat) (text : Str) : Prop :=
  (as_bytes text).length < 2 ^ 32 ∧
    (table.drop (min offset (2 ^ 32 - 1))).take (as_bytes text).length = as_bytes text

/-- Every text of the rows from an offset of the table on. -/
def Transportable (table : List UInt8) : Nat → List SearchRow → Prop
  | _, [] => True
  | offset, row :: rest => Stands table offset row.path ∧ Stands table (offset + (as_bytes row.path).length) row.name ∧
      Transportable table (offset + (as_bytes row.path ++ as_bytes row.name).length) rest

@[simp] theorem texts_cons (row : SearchRow) (rows : List SearchRow) :
    texts (row :: rows) = as_bytes row.path ++ as_bytes row.name ++ texts rows := rfl

/-- The record of a row whose texts begin at the offset. -/
def record_at (offset : Nat) (row : SearchRow) : ShmemRecord :=
  { drive := row.drive.byte, is_directory := row.is_directory.toUInt8, malformed := row.malformed.toUInt8
    malformed_path := row.malformed_path.toUInt8, flags := row.flags, size := row.size, allocated := row.allocated
    modified := row.modified, created := row.created, accessed := row.accessed, file_reference := row.file_reference
    descendants := row.descendants, pad2 := 0, treesize := row.treesize, tree_allocated := row.tree_allocated
    path_off := len_or_max offset, path_len := len_or_max (as_bytes row.path).length
    name_off := len_or_max (offset + (as_bytes row.path).length), name_len := len_or_max (as_bytes row.name).length }

def records_from : Nat → List SearchRow → List ShmemRecord
  | _, [] => []
  | offset, row :: rest =>
    record_at offset row :: records_from (offset + (as_bytes row.path ++ as_bytes row.name).length) rest

section writer

theorem foldl_push_row (rows : List SearchRow) (table : List UInt8) (records : List ShmemRecord) :
    rows.foldl push_row (table, records) = (table ++ texts rows, records ++ records_from table.length rows) := by
  induction rows generalizing table records with
  | nil => simp [texts, records_from]
  | cons row rest ih =>
    have hpush : push_row (table, records) row =
        (table ++ (as_bytes row.path ++ as_bytes row.name), records ++ [record_at table.length row]) := by
      simp only [push_row, record_at, List.length_append, List.append_assoc]
    rw [List.foldl_cons, hpush, ih, texts_cons, records_from]
    simp only [List.append_assoc, List.length_append, List.singleton_append]

theorem length_records_from (offset : Nat) (rows : List SearchRow) : (records_from offset rows).length = rows.length := by
  induction rows generalizing offset with
  | nil => rfl
  | cons row rest ih => rw [records_from, List.length_cons, ih, List.length_cons]

/-- What a written file consists of. -/
theorem write_eq_some {rows : List SearchRow} {duration_ms records_scanned : UInt64} {truncated : Bool}
    {data : List UInt8} (h : write_search_results rows duration_ms records_scanned truncated = some data) :
    48 + rows.length * 96 + (texts rows).length < 2 ^ 64 ∧
      data = header_pod.to_bytes
          { magic := MAGIC, version := VERSION, row_count := .ofNat rows.length
            strings_offset := .ofNat (48 + rows.length * 96), duration_ms, records_scanned
            truncated := truncated.toUInt8.toUInt32, reserved := 0 } ++
        cast_slice record_pod (records_from 0 rows) ++ texts rows := by
  simp only [write_search_results, foldl_push_row, List.nil_append, List.length_nil, header_pod_size, record_pod_size] at h
  split at h
  · cases h
  · next hsize => exact ⟨Nat.lt_of_not_le hsize, (Option.some.inj h).symm⟩

end writer

section rows

variable {mmap table : List UInt8}

theorem read_text_eq_some_iff {start stop : Nat} {text : Str} (hle : start ≤ stop) (hstop : stop ≤ table.length) :
    read_text table start stop = some (.ok text) ↔ (table.drop start).take (stop - start) = as_bytes text := by
  unfold read_text slice?
  rw [if_pos ⟨hle, hstop⟩, Option.map_some, Option.some.injEq]
  constructor
  · intro htext
    split at htext
    · next found hfound =>
      rw [← Except.ok.inj htext, as_bytes_of_from_utf8 hfound]
    · cases htext
  · intro hbytes
    rw [hbytes, from_utf8_as_bytes]

theorem toUInt8_ne_zero (flag : Bool) : flag.toUInt8 ≠ 0 ↔ flag = true := by
  cases flag <;> decide

theorem to_row_record_at (offset : Nat) (row : SearchRow) (path name : Str) :
    (record_at offset row).to_row path name = { row.carried with path, name } := by
  simp only [ShmemRecord.to_row, record_at, SearchRow.carried, DriveLetter.try_from_byte, Option.getD_some, toUInt8_ne_zero,
    Bool.decide_eq_true]

/-- What the reader makes of a record: its row, where both texts are in bounds and valid. -/
theorem read_row_eq_ok_iff {i : Nat} {record : ShmemRecord} {row : SearchRow}
    (hblock : slice? mmap (48 + i * 96) (48 + i * 96 + 96) = some (record_pod.to_bytes record)) :
    read_row mmap table i = some (.ok row) ↔
      record.path_off.toNat + record.path_len.toNat ≤ table.length ∧
      record.name_off.toNat + record.name_len.toNat ≤ table.length ∧
      ∃ path name, read_text table record.path_off.toNat (record.path_off.toNat + record.path_len.toNat) = some (.ok path) ∧
        read_text table record.name_off.toNat (record.name_off.toNat + record.name_len.toNat) = some (.ok name) ∧
        record.to_row path name = row := by
  simp only [read_row, header_pod_size, record_pod_size, hblock, Option.bind_eq_bind, Option.bind_some, Pod.from_to_bytes]
  by_cases hbounds : table.length < record.path_off.toNat + record.path_len.toNat ∨
      table.length < record.name_off.toNat + record.name_len.toNat
  · rw [if_pos hbounds]
    constructor
    · intro h
      cases h
    · rintro ⟨hpath, hname, _⟩
      omega
  · rw [if_neg hbounds]
    rw [not_or, Nat.not_lt, Nat.not_lt] at hbounds
    simp only [hbounds.1, hbounds.2, true_and]
    cases hpath : read_text table record.path_off.toNat (record.path_off.toNat + record.path_len.toNat) with
    | none => simp
    | some path =>
      cases path with
      | error e => simp
      | ok path =>
        cases hname : read_text table record.name_off.toNat (record.name_off.toNat + record.name_len.toNat) with
        | none => simp
        | some name =>
          cases name with
          | error e => simp
          | ok name => simp

theorem stands_iff {offset : Nat} {text : Str} (hfits : offset + (as_bytes text).length ≤ table.length) :
    read_text table (min offset (2 ^ 32 - 1)) (min offset (2 ^ 32 - 1) + min (as_bytes text).length (2 ^ 32 - 1)) =
      some (.ok text) ↔ Stands table offset text := by
  rw [read_text_eq_some_iff (Nat.le_add_right _ _) (by omega), Nat.add_sub_cancel_left, Stands]
  by_cases hlong : (as_bytes text).length < 2 ^ 32
  · rw [Nat.min_eq_left (a := (as_bytes text).length) (by omega)]
    exact (and_iff_right hlong).symm
  · refine iff_of_false ?_ fun h => hlong h.1
    intro heq
    have hlen := congrArg List.length heq
    rw [List.length_take] at hlen
    omega

/-- A record whose texts stand in the table is read as its row, and otherwise is not. -/
theorem read_row_iff {offset i : Nat} {row : SearchRow}
    (hat : At mmap (48 + i * 96) (record_pod.to_bytes (record_at offset row)))
    (hfits : offset + (as_bytes row.path ++ as_bytes row.name).length ≤ table.length) :
    read_row mmap table i = some (.ok row.carried) ↔
      Stands table offset row.path ∧ Stands table (offset + (as_bytes row.path).length) row.name := by
  have hblock : slice? mmap (48 + i * 96) (48 + i * 96 + 96) = some (record_pod.to_bytes (record_at offset row)) := by
    have hslice := hat.slice
    rwa [record_pod.length_to_bytes] at hslice
  rw [List.length_append] at hfits
  rw [read_row_eq_ok_iff hblock, ← stands_iff (by omega), ← stands_iff (by omega)]
  simp only [to_row_record_at]
  simp only [record_at, toNat_len_or_max]
  constructor
  · rintro ⟨_, _, path, name, hpath, hname, hrow⟩
    have hpath_eq : path = row.path := congrArg SearchRow.path hrow
    have hname_eq : name = row.name := congrArg SearchRow.name hrow
    exact ⟨hpath_eq ▸ hpath, hname_eq ▸ hname⟩
  · rintro ⟨hpath, hname⟩
    exact ⟨by omega, by omega, row.path, row.name, hpath, hname, rfl⟩

theorem read_rows_cons_iff {count i : Nat} {row : SearchRow} {rows : List SearchRow} :
    read_rows mmap table (count + 1) i = some (.ok (row :: rows)) ↔
      read_row mmap table i = some (.ok row) ∧ read_rows mmap table count (i + 1) = some (.ok rows) := by
  rw [read_rows]
  cases read_row mmap table i with
  | none => simp
  | some outcome =>
    cases outcome with
    | error e => simp
    | ok first =>
      cases read_rows mmap table count (i + 1) with
      | none => simp
      | some outcome =>
        cases outcome with
        | error e => simp
        | ok rest => simp

/-- The loop gives the rows back exactly when all their texts stand where their records point. -/
theorem read_rows_iff {rows : List SearchRow} {offset i : Nat}
    (hat : ∀ k record, (records_from offset rows)[k]? = some record → At mmap (48 + (i + k) * 96) (record_pod.to_bytes record))
    (hfits : offset + (texts rows).length ≤ table.length) :
    read_rows mmap table rows.length i = some (.ok (rows.map SearchRow.carried)) ↔ Transportable table offset rows := by
  induction rows generalizing offset i with
  | nil => exact iff_of_true rfl True.intro
  | cons row rest ih =>
    rw [texts_cons, List.length_append] at hfits
    have hfirst : At mmap (48 + i * 96) (record_pod.to_bytes (record_at offset row)) := hat 0 _ rfl
    have hrest : ∀ k record,
        (records_from (offset + (as_bytes row.path ++ as_bytes row.name).length) rest)[k]? = some record →
          At mmap (48 + (i + 1 + k) * 96) (record_pod.to_bytes record) := by
      intro k record hrecord
      have hat' := hat (k + 1) record (by rw [records_from, List.getElem?_cons_succ, hrecord])
      rwa [Nat.add_assoc i 1 k, Nat.add_comm 1 k]
    rw [List.map_cons, List.length_cons, read_rows_cons_iff, read_row_iff hfirst (by omega), ih hrest (by omega), and_assoc]
    exact Iff.rfl

theorem read_row_isSome {i : Nat} (hroom : 48 + i * 96 + 96 ≤ mmap.length) : (read_row mmap table i).isSome := by
  have hblock : slice? mmap (48 + i * 96) (48 + i * 96 + 96) = some ((mmap.drop (48 + i * 96)).take (48 + i * 96 + 96 - (48 + i * 96))) :=
    if_pos ⟨Nat.le_add_right _ _, hroom⟩
  simp only [read_row, header_pod_size, record_pod_size, hblock, Option.bind_eq_bind, Option.bind_some]
  split
  · rfl
  · next hbounds =>
    rw [not_or, Nat.not_lt, Nat.not_lt] at hbounds
    simp only [read_text, slice?, if_pos (And.intro (Nat.le_add_right _ _) hbounds.1),
      if_pos (And.intro (Nat.le_add_right _ _) hbounds.2), Option.map_some, Option.bind_some]
    split
    · rfl
    · split <;> rfl

theorem read_rows_isSome {count i : Nat} (hroom : 48 + (i + count) * 96 ≤ mmap.length) :
    (read_rows mmap table count i).isSome := by
  induction count generalizing i with
  | zero => rfl
  | succ count ih =>
    obtain ⟨row, hrow⟩ := Option.isSome_iff_exists.mp (@read_row_isSome mmap table i (by omega))
    obtain ⟨rest, hrest⟩ := Option.isSome_iff_exists.mp (ih (i := i + 1) (by omega))
    rw [read_rows, hrow]
    cases row with
    | error e => rfl
    | ok row =>
      simp only [Option.bind_eq_bind, Option.bind_some, hrest]
      cases rest <;> rfl

end rows

/-- A file with a good header whose row count, times the record size, is no `usize`. -/
def Overflowing (data : List UInt8) : Prop :=
  48 ≤ data.length ∧ (header_pod.from_bytes (data.take 48)).magic = MAGIC ∧
    (header_pod.from_bytes (data.take 48)).version = VERSION ∧
    2 ^ 64 ≤ 48 + (header_pod.from_bytes (data.take 48)).row_count.toNat * 96

/-- Behind a good header whose sizes fit, the file is refused as too short or its rows are read. -/
theorem read_of_good_header {data : List UInt8} {header : ShmemHeader} (hlong : 48 ≤ data.length)
    (hheader : header_pod.from_bytes (data.take 48) = header) (hmagic : header.magic = MAGIC)
    (hversion : header.version = VERSION) (hsize : header.row_count.toNat * 96 + 48 < 2 ^ 64) :
    read_search_results data =
      if data.length < 48 + header.row_count.toNat * 96 ∨ data.length < header.strings_offset.toNat then
        some (.error .truncated)
      else
        (read_rows data (data.drop header.strings_offset.toNat) header.row_count.toNat 0).map fun result =>
          result.map fun rows =>
            { rows, total_count := header.row_count, records_scanned := header.records_scanned
              duration_ms := header.duration_ms, truncated := header.truncated ≠ 0 } := by
  subst hheader
  have hover : ¬ 2 ^ 64 ≤ 48 + (header_pod.from_bytes (data.take 48)).row_count.toNat * 96 := by omega
  exact (if_neg (Nat.not_lt.mpr hlong)).trans ((if_neg (not_not.mpr hmagic)).trans
    ((if_neg (not_not.mpr hversion)).trans (if_neg hover)))

theorem read_isSome_iff (data : List UInt8) : (read_search_results data).isSome ↔ ¬ Overflowing data := by
  by_cases hshort : data.length < 48
  · have hread : read_search_results data = some (.error .too_small) := if_pos hshort
    rw [hread]
    exact iff_of_true rfl fun h => by have := h.1; omega
  · by_cases hmagic : (header_pod.from_bytes (data.take 48)).magic = MAGIC
    · by_cases hversion : (header_pod.from_bytes (data.take 48)).version = VERSION
      · by_cases hover : 2 ^ 64 ≤ 48 + (header_pod.from_bytes (data.take 48)).row_count.toNat * 96
        · have hread : read_search_results data = none :=
            (if_neg hshort).trans ((if_neg (not_not.mpr hmagic)).trans ((if_neg (not_not.mpr hversion)).trans (if_pos hover)))
          rw [hread]
          exact iff_of_false (by simp) fun h => h ⟨by omega, hmagic, hversion, hover⟩
        · rw [read_of_good_header (by omega) rfl hmagic hversion (by omega)]
          refine iff_of_true ?_ fun h => hover h.2.2.2
          split
          · rfl
          · next hroom =>
            rw [Option.isSome_map]
            exact read_rows_isSome (by omega)
      · have hread : read_search_results data =
            some (.error (.unsupported_version (header_pod.from_bytes (data.take 48)).version)) :=
          (if_neg hshort).trans ((if_neg (not_not.mpr hmagic)).trans (if_pos hversion))
        rw [hread]
        exact iff_of_true rfl fun h => hversion h.2.2.1
    · have hread : read_search_results data =
          some (.error (.bad_magic (header_pod.from_bytes (data.take 48)).magic)) :=
        (if_neg hshort).trans (if_pos hmagic)
      rw [hread]
      exact iff_of_true rfl fun h => hmagic h.2.1

theorem truncated_ne_zero (flag : Bool) : flag.toUInt8.toUInt32 ≠ 0 ↔ flag = true := by
  cases flag <;> decide

/-- A written file comes back as what was written exactly when all texts stand where their records point. -/
theorem read_write_iff {rows : List SearchRow} {duration_ms records_scanned : UInt64} {truncated : Bool}
    {data : List UInt8} (h : write_search_results rows duration_ms records_scanned truncated = some data) :
    read_search_results data =
        some (.ok ⟨rows.map SearchRow.carried, .ofNat rows.length, records_scanned, duration_ms, truncated⟩) ↔
      Transportable (texts rows) 0 rows := by
  obtain ⟨hsize, hdata⟩ := write_eq_some h
  let header : ShmemHeader :=
    { magic := MAGIC, version := VERSION, row_count := .ofNat rows.length
      strings_offset := .ofNat (48 + rows.length * 96), duration_ms, records_scanned
      truncated := truncated.toUInt8.toUInt32, reserved := 0 }
  have hcount : header.row_count.toNat = rows.length := UInt64.toNat_ofNat_of_lt (by show _ < 2 ^ 64; omega)
  have hstrings : header.strings_offset.toNat = 48 + rows.length * 96 :=
    UInt64.toNat_ofNat_of_lt (by show _ < 2 ^ 64; omega)
  have hheader_len : (header_pod.to_bytes header).length = 48 := header_pod.length_to_bytes header
  have hrecords_len : (cast_slice record_pod (records_from 0 rows)).length = rows.length * 96 := by
    rw [length_cast_slice, length_records_from, record_pod_size]
  have hparts : data = header_pod.to_bytes header ++ cast_slice record_pod (records_from 0 rows) ++ texts rows := hdata
  have hlen : data.length = 48 + rows.length * 96 + (texts rows).length := by
    rw [hparts, List.length_append, List.length_append, hheader_len, hrecords_len]
  have hheader : header_pod.from_bytes (data.take 48) = header := by
    rw [hparts, List.append_assoc, List.take_left' hheader_len, header_pod.from_to_bytes]
  have htable : data.drop (48 + rows.length * 96) = texts rows := by
    rw [hparts, List.drop_left' (by rw [List.length_append, hheader_len, hrecords_len])]
  have hat : ∀ k record, (records_from 0 rows)[k]? = some record →
      At data (48 + (0 + k) * 96) (record_pod.to_bytes record) := by
    intro k record hrecord
    have hrecords : At data 48 (cast_slice record_pod (records_from 0 rows)) := ⟨_, _, hparts, hheader_len⟩
    rw [Nat.zero_add]
    exact hrecords.nested (at_cast_slice hrecord)
  rw [read_of_good_header (by omega) hheader rfl rfl (by omega), hcount, hstrings, if_neg (by omega), htable]
  have hrows := @read_rows_iff _ (texts rows) rows 0 0 hat (by omega)
  rw [← hrows]
  constructor
  · intro hread
    obtain ⟨result, hresult, hmap⟩ := Option.map_eq_some_iff.mp hread
    cases result with
    | error e => cases hmap
    | ok found =>
      have heq : found = rows.map SearchRow.carried := congrArg SearchResponse.rows (Except.ok.inj hmap)
      rw [hresult, heq]
  · intro hread
    rw [hread]
    simp [header, Except.map, truncated_ne_zero]

/-- Written results come back unless a text lies beyond the 32-bit fields, and a file is answered unless its row count
overflows the reader's sizes. -/
theorem shmem_transport_iff (rows : List SearchRow) (duration_ms records_scanned : UInt64) (truncated : Bool)
    (data : List UInt8) :
    (write_search_results rows duration_ms records_scanned truncated = some data →
      (read_search_results data =
          some (.ok ⟨rows.map SearchRow.carried, .ofNat rows.length, records_scanned, duration_ms, truncated⟩) ↔
        Transportable (texts rows) 0 rows)) ∧
    ((read_search_results data).isSome ↔ ¬ Overflowing data) :=
  ⟨fun hwrite => read_write_iff hwrite, read_isSome_iff data⟩

/-- A file of `C:` with these texts and nothing else. -/
def plain_row (path name : Str) : SearchRow :=
  { drive := ⟨67, by decide⟩, path, name, size := 0, is_directory := false, modified := 0, created := 0, accessed := 0
    flags := 0, allocated := 0, descendants := 0, treesize := 0, tree_allocated := 0, malformed := false
    malformed_path := false, name_hex := none, file_reference := 5 }

/-- Two rows: texts up to the last offset that fits, then a name of one byte, and a second row behind. -/
def wide_rows (len : Nat) : List SearchRow := [plain_row (List.replicate len 'a') ['b'], plain_row ['c'] ['d']]

theorem as_bytes_letters (len : Nat) : as_bytes (List.replicate len 'a') = List.replicate len 97 := by
  induction len with
  | zero => rfl
  | succ len ih => rw [List.replicate_succ, List.replicate_succ, as_bytes_cons, ih]; rfl

theorem texts_wide_rows (len : Nat) : texts (wide_rows len) = List.replicate len 97 ++ [98, 99, 100] := by
  show (as_bytes (List.replicate len 'a') ++ [98]) ++ ([99] ++ [100] ++ []) = _
  rw [as_bytes_letters, List.append_assoc]
  rfl

/-- The second row's path lies one byte beyond the last offset: its record points at the first row's name. -/
theorem wide_rows_not_transportable {len : Nat} (hlen : len = 2 ^ 32 - 1) :
    ¬ Transportable (texts (wide_rows len)) 0 (wide_rows len) := by
  rintro ⟨_, _, ⟨_, hpath⟩, _⟩
  have hfirst : (as_bytes (List.replicate len 'a') ++ as_bytes ['b']).length = len + 1 := by
    rw [as_bytes_letters, List.length_append, List.length_replicate]
    rfl
  have hlast : min (0 + (len + 1)) (2 ^ 32 - 1) = len := by omega
  have hwrong : (texts (wide_rows len)).drop len = [98, 99, 100] := by
    rw [texts_wide_rows, List.drop_left' List.length_replicate]
  change ((texts (wide_rows len)).drop (min (0 + (as_bytes (List.replicate len 'a') ++ as_bytes ['b']).length) _)).take 1 = [99]
    at hpath
  rw [hfirst, hlast, hwrong] at hpath
  exact absurd hpath (by decide)

/-- A header alone, with this row count. -/
def bare_header (row_count : UInt64) : List UInt8 :=
  header_pod.to_bytes
    { magic := MAGIC, version := VERSION, row_count, strings_offset := 48, duration_ms := 0, records_scanned := 0
      truncated := 0, reserved := 0 }

/-- Results with another row's text, and a file that stops the reader. -/
theorem wrong_path_and_overflow :
    (∃ data, write_search_results (wide_rows (2 ^ 32 - 1)) 0 0 false = some data ∧
      read_search_results data ≠ some (.ok ⟨(wide_rows (2 ^ 32 - 1)).map SearchRow.carried, 2, 0, 0, false⟩)) ∧
    read_search_results (bare_header 0xFFFFFFFFFFFFFFFF) = none := by
  constructor
  · cases hwrite : write_search_results (wide_rows (2 ^ 32 - 1)) 0 0 false with
    | none =>
      have hlen : (texts (wide_rows (2 ^ 32 - 1))).length = 2 ^ 32 - 1 + 3 := by
        rw [texts_wide_rows, List.length_append, List.length_replicate]
        rfl
      simp only [write_search_results, foldl_push_row, List.nil_append] at hwrite
      rw [if_neg] at hwrite
      · cases hwrite
      · rw [hlen]
        decide
    | some data =>
      refine ⟨data, rfl, ?_⟩
      intro hread
      exact wide_rows_not_transportable rfl ((read_write_iff hwrite).mp hread)
  · decide

end uffs.client.shmem
