import Mathlib.Algebra.Order.BigOperators.Group.List
import Uffs.Mft.RawFile

open uffs.lib uffs.lib.bytes uffs.client

namespace uffs.mft.raw

open raw_iocp

/-! What a capture in completion order comes back as. -/

theorem toNat_len_to_u32 (len : Nat) : (len_to_u32 len).toNat = min len (2 ^ 32 - 1) := by
  rcases Nat.lt_or_ge len UInt32.size with hlt | hge
  · rw [len_to_u32_toNat hlt]
    rw [UInt32.size] at hlt
    omega
  · rw [len_to_u32, if_neg (Nat.not_lt.mpr hge), show NO_ENTRY.toNat = 2 ^ 32 - 1 from rfl]
    rw [UInt32.size] at hge
    omega

theorem check_eq_ok {ok : Bool} {e : MftError} {value : Unit} : check ok e = .ok value ↔ ok = true := by
  unfold check
  split <;> simp [*]

theorem capacity_eq_ok {size : Nat} {value : Unit} : capacity size = .ok value ↔ size < 2 ^ 63 := by
  unfold capacity
  split
  next hfits => exact ⟨fun _ => hfits, fun _ => rfl⟩
  next hlarge => exact ⟨nofun, fun hfits => absurd hfits hlarge⟩

/-- What is recorded: whole records, each at its own number, in the order of completion. -/
structure Capture where
  record_size : UInt32
  chunks : List (UInt64 × List UInt8)
  positive : 0 < record_size.toNat
  whole : ∀ chunk ∈ chunks, record_size.toNat ∣ chunk.2.length
  numbered : ∀ chunk ∈ chunks, chunk.1.toNat + chunk.2.length / record_size.toNat ≤ 2 ^ 64
  apart : chunks.Pairwise fun a b => a.1.toNat + a.2.length / record_size.toNat ≤ b.1.toNat ∨
    b.1.toNat + b.2.length / record_size.toNat ≤ a.1.toNat

namespace Capture

variable (self : Capture)

def count (chunk : UInt64 × List UInt8) : Nat := chunk.2.length / self.record_size.toNat

/-- Record `i` of a chunk. -/
def record (chunk : UInt64 × List UInt8) (i : Nat) : List UInt8 :=
  (chunk.2.drop (i * self.record_size.toNat)).take self.record_size.toNat

/-- All chunks are recorded, and then written. -/
def write (zstd : Zstd) (options : IocpCaptureOptions) : Result (IocpCaptureHeader × List UInt8) := do
  let writer ← ({ record_size := self.record_size, options } : IocpCaptureWriter).record_chunks self.chunks
  writer.write_to_file zstd

/-- The capture is loaded, and every record that was captured is found under its number. -/
def Reloads (zstd : Zstd) (options : IocpCaptureOptions) (load : LoadRawOptions) : Prop :=
  ∃ header file loaded, self.write zstd options = .ok (header, file) ∧ load_raw_mft zstd load file = .ok loaded ∧
    ∀ chunk ∈ self.chunks, ∀ i < self.count chunk,
      loaded.get_record (.ofNat (chunk.1.toNat + i)) = .ok (some (self.record chunk i))

/-- The records have the numbers from zero on, without a gap, and everything fits its field. -/
structure Dense : Prop where
  chunks : self.chunks.length < 2 ^ 32
  sizes : ∀ chunk ∈ self.chunks, chunk.2.length < 2 ^ 32
  size : (self.chunks.map fun chunk => chunk.2.length).sum < 2 ^ 63
  within : ∀ chunk ∈ self.chunks, chunk.1.toNat + self.count chunk ≤ (self.chunks.map self.count).sum

end Capture

section write

/-- The entry of a chunk. -/
def entry (record_size seq offset : Nat) (chunk : UInt64 × List UInt8) : CapturedChunk where
  completion_seq := .ofNat seq
  start_frs := chunk.1
  record_count := len_to_u32 (chunk.2.length / record_size)
  data_offset := .ofNat offset
  data_size := len_to_u32 chunk.2.length

/-- The chunks as they are recorded. -/
def recorded (record_size : Nat) : Nat → List (UInt64 × List UInt8) → List (CapturedChunk × List UInt8)
  | _, [] => []
  | seq, chunk :: rest => (entry record_size seq 0 chunk, chunk.2) :: recorded record_size (seq + 1) rest

/-- The chunks as they are written. -/
def laid (record_size : Nat) : Nat → Nat → List (UInt64 × List UInt8) → List (CapturedChunk × List UInt8)
  | _, _, [] => []
  | seq, offset, chunk :: rest =>
    (entry record_size seq offset chunk, chunk.2) :: laid record_size (seq + 1) (offset + chunk.2.length) rest

theorem record_chunks_eq (writer : IocpCaptureWriter) (hpos : 0 < writer.record_size.toNat) (list : List (UInt64 × List UInt8)) :
    writer.record_chunks list =
      if writer.next_seq.toNat + list.length < 2 ^ 32 then
        .ok { writer with
          chunks := writer.chunks ++ recorded writer.record_size.toNat writer.next_seq.toNat list
          next_seq := .ofNat (writer.next_seq.toNat + list.length) }
      else .panic := by
  induction list generalizing writer with
  | nil =>
    have hlt := writer.next_seq.toNat_lt
    simp [IocpCaptureWriter.record_chunks, recorded, hlt]
  | cons chunk rest ih =>
    obtain ⟨start, data⟩ := chunk
    have hsize : writer.record_size ≠ 0 := by
      rintro hzero
      rw [hzero] at hpos
      exact absurd hpos (by decide)
    rw [IocpCaptureWriter.record_chunks, IocpCaptureWriter.record_chunk, count_records, if_neg hsize]
    simp only [Checked.pure_eq, Checked.ok_bind]
    by_cases hseq : writer.next_seq.toNat + 1 < 2 ^ 32
    · rw [Checked.fits_eq hseq, Checked.ok_bind, Checked.ok_bind]
      rw [ih _ (by exact hpos)]
      have hnext : (UInt32.ofNat (writer.next_seq.toNat + 1)).toNat = writer.next_seq.toNat + 1 :=
        UInt32.toNat_ofNat_of_lt hseq
      simp only [hnext, List.length_cons]
      have hassoc : writer.next_seq.toNat + 1 + rest.length = writer.next_seq.toNat + (rest.length + 1) := by omega
      rw [hassoc]
      split
      · simp [recorded, entry, List.append_assoc]
      · rfl
    · rw [Checked.fits, if_neg hseq, Checked.panic_bind, Checked.panic_bind, if_neg (by rw [List.length_cons]; omega)]

section

variable (record_size seq offset : Nat)

include record_size seq offset

theorem place_eq (hoffset : offset < 2 ^ 64) (list : List (UInt64 × List UInt8)) :
    IocpCaptureWriter.place offset (recorded record_size seq list) =
      if offset + (list.map fun chunk => chunk.2.length).sum < 2 ^ 64 then
        .ok (laid record_size seq offset list, offset + (list.map fun chunk => chunk.2.length).sum)
      else .panic := by
  induction list generalizing seq offset with
  | nil =>
    rw [List.map_nil, List.sum_nil, Nat.add_zero, if_pos hoffset]
    rfl
  | cons chunk rest ih =>
    rw [recorded, IocpCaptureWriter.place, List.map_cons, List.sum_cons, ← Nat.add_assoc]
    by_cases hnext : offset + chunk.2.length < 2 ^ 64
    · rw [Checked.fits_eq hnext, Checked.ok_bind, ih _ _ hnext]
      split
      · rfl
      · rfl
    · rw [Checked.fits, if_neg hnext, Checked.panic_bind, if_neg (by omega)]

variable (list : List (UInt64 × List UInt8))

theorem length_laid : (laid record_size seq offset list).length = list.length := by
  induction list generalizing seq offset with
  | nil => rfl
  | cons chunk rest ih => rw [laid, List.length_cons, List.length_cons, ih]

theorem snd_laid : (laid record_size seq offset list).map Prod.snd = list.map Prod.snd := by
  induction list generalizing seq offset with
  | nil => rfl
  | cons chunk rest ih => rw [laid, List.map_cons, List.map_cons, ih]

theorem counts_laid :
    ((laid record_size seq offset list).map fun (chunk, _) => chunk.record_count.toNat) =
      list.map fun chunk => min (chunk.2.length / record_size) (2 ^ 32 - 1) := by
  induction list generalizing seq offset with
  | nil => rfl
  | cons chunk rest ih =>
    rw [laid, List.map_cons, List.map_cons, ih]
    simp only [entry, toNat_len_to_u32]

/-- What the loader goes by. -/
theorem keys_laid :
    ((laid record_size seq offset list).map fun (chunk, data) => (chunk.start_frs, chunk.record_count, data)) =
      list.map fun chunk => (chunk.1, len_to_u32 (chunk.2.length / record_size), chunk.2) := by
  induction list generalizing seq offset with
  | nil => rfl
  | cons chunk rest ih =>
    rw [laid, List.map_cons, List.map_cons, ih]
    rfl

end

namespace Capture

variable (self : Capture)

/-- All bytes of the chunks. -/
def size : Nat := (self.chunks.map fun chunk => chunk.2.length).sum

/-- The number of records as the header has it. -/
def counted : Nat := (self.chunks.map fun chunk => min (self.count chunk) (2 ^ 32 - 1)).sum

def index : List (CapturedChunk × List UInt8) := laid self.record_size.toNat 0 0 self.chunks

def header (options : IocpCaptureOptions) : IocpCaptureHeader where
  version := raw_iocp.VERSION
  flags := if options.compress then raw_iocp.FLAG_COMPRESSED else 0
  record_size := self.record_size
  chunk_count := len_to_u32 self.chunks.length
  total_records := .ofNat self.counted
  total_data_size := .ofNat self.size
  volume_letter := options.volume_letter
  concurrency := options.concurrency
  reserved_allocated_bytes := options.reserved_allocated_bytes

def body (zstd : Zstd) (options : IocpCaptureOptions) : List UInt8 :=
  if options.compress then zstd.encode options.compression_level (self.chunks.map Prod.snd) else (self.chunks.map Prod.snd).flatten

theorem counted_le : self.counted ≤ self.size := by
  apply List.sum_le_sum
  intro chunk _
  exact (Nat.min_le_left _ _).trans (Nat.div_le_self _ _)

theorem write_eq (zstd : Zstd) (options : IocpCaptureOptions) :
    self.write zstd options =
      if self.chunks.length < 2 ^ 32 ∧ self.size < 2 ^ 64 then
        .ok (self.header options,
          (self.header options).to_bytes ++ cast_slice chunk_pod (self.index.map Prod.fst) ++ self.body zstd options)
      else .panic := by
  have hseq : (0 : UInt32).toNat = 0 := rfl
  rw [write, record_chunks_eq _ self.positive]
  simp only [hseq, Nat.zero_add, List.nil_append]
  by_cases hchunks : self.chunks.length < 2 ^ 32
  · rw [if_pos hchunks, Checked.ok_bind, IocpCaptureWriter.write_to_file, place_eq _ _ _ (by decide), Nat.zero_add]
    by_cases hsize : (self.chunks.map fun chunk => chunk.2.length).sum < 2 ^ 64
    · have hcounted : self.counted < 2 ^ 64 := Nat.lt_of_le_of_lt self.counted_le hsize
      have hboth : self.chunks.length < 2 ^ 32 ∧ self.size < 2 ^ 64 := ⟨hchunks, hsize⟩
      rw [if_pos hsize, if_pos hboth, Checked.ok_bind]
      simp only [counts_laid, snd_laid, length_laid]
      change (Checked.fits 64 self.counted >>= _) = _
      rw [Checked.fits_eq hcounted, Checked.ok_bind]
      rfl
    · have hneither : ¬ (self.chunks.length < 2 ^ 32 ∧ self.size < 2 ^ 64) := fun h => hsize h.2
      rw [if_neg hsize, if_neg hneither]
      rfl
  · have hneither : ¬ (self.chunks.length < 2 ^ 32 ∧ self.size < 2 ^ 64) := fun h => hchunks h.1
    rw [if_neg hchunks, if_neg hneither]
    rfl

end Capture

end write

section load

theorem length_iocp_to_bytes (header : IocpCaptureHeader) : header.to_bytes.length = raw_iocp.HEADER_SIZE := by
  simp only [IocpCaptureHeader.to_bytes, List.length_append, Pod.length_to_bytes, List.length_replicate]
  rfl

theorem iocp_from_to_bytes {header : IocpCaptureHeader} (hversion : header.version ≤ raw_iocp.VERSION) :
    IocpCaptureHeader.from_bytes header.to_bytes = .ok header := by
  have hmagic : header.to_bytes.take 9 = raw_iocp.MAGIC := by
    rw [IocpCaptureHeader.to_bytes, List.append_assoc, List.append_assoc]
    exact List.take_left' rfl
  have hfields : ∀ fields : List UInt8, fields.length = IocpCaptureHeader.fields.size →
      ((raw_iocp.MAGIC ++ List.replicate 3 0 ++ fields ++ List.replicate 42 0).drop 12).take IocpCaptureHeader.fields.size =
        fields := by
    intro fields hlength
    have hfront : (raw_iocp.MAGIC ++ List.replicate 3 0).length = 12 := rfl
    rw [List.append_assoc (raw_iocp.MAGIC ++ List.replicate 3 0), List.drop_left' hfront, ← hlength]
    exact List.take_left
  rw [IocpCaptureHeader.from_bytes, hmagic, IocpCaptureHeader.to_bytes, hfields _ (Pod.length_to_bytes ..), Pod.from_to_bytes]
  simp only [check, decide_true, if_true, Checked.ok_bind, decide_eq_true hversion, DriveLetter.try_from_byte, Option.getD_some]
  rfl

variable {zstd : Zstd} (hzstd : zstd.Lossless) (self : Capture) (options : IocpCaptureOptions)

theorem compressed_flag (compress : Bool) :
    decide ((if compress then raw_iocp.FLAG_COMPRESSED else 0) &&& raw_iocp.FLAG_COMPRESSED ≠ 0) = compress := by
  cases compress <;> decide

theorem is_compressed_header : (self.header options).is_compressed = options.compress := compressed_flag options.compress

include hzstd in
/-- The chunks come back as they are laid, over all the bytes. -/
theorem load_iocp_capture_eq (hchunks : self.chunks.length < 2 ^ 32) (hsize : self.size < 2 ^ 64) :
    load_iocp_capture zstd
        ((self.header options).to_bytes ++ cast_slice chunk_pod (self.index.map Prod.fst) ++ self.body zstd options) =
      if options.compress = true ∧ ¬ self.size < 2 ^ 63 then .panic
      else .ok { header := self.header options, chunks := self.index.map Prod.fst, data := (self.chunks.map Prod.snd).flatten } := by
  have hheader := length_iocp_to_bytes (self.header options)
  have hcount : (self.header options).chunk_count.toNat = (self.index.map Prod.fst).length := by
    rw [List.length_map, Capture.index, length_laid]
    exact len_to_u32_toNat hchunks
  have hindex : (cast_slice chunk_pod (self.index.map Prod.fst)).length =
      (self.header options).chunk_count.toNat * chunk_pod.size := by
    rw [length_cast_slice, hcount]
  generalize hchunk : cast_slice chunk_pod (self.index.map Prod.fst) = block at hindex ⊢
  have htake : ((self.header options).to_bytes ++ block ++ self.body zstd options).take raw_iocp.HEADER_SIZE =
      (self.header options).to_bytes := by
    rw [List.append_assoc, List.take_left' hheader]
  have hblock : ((((self.header options).to_bytes ++ block ++ self.body zstd options).drop raw_iocp.HEADER_SIZE).take
      ((self.header options).chunk_count.toNat * chunk_pod.size)) = block := by
    rw [List.append_assoc, List.drop_left' hheader, List.take_left' hindex]
  have hbody : ((self.header options).to_bytes ++ block ++ self.body zstd options).drop
      (raw_iocp.HEADER_SIZE + (self.header options).chunk_count.toNat * chunk_pod.size) = self.body zstd options := by
    rw [List.drop_left']
    rw [List.length_append, hheader, hindex]
  have hlength : ((self.header options).to_bytes ++ block ++ self.body zstd options).length =
      raw_iocp.HEADER_SIZE + (self.header options).chunk_count.toNat * chunk_pod.size + (self.body zstd options).length := by
    rw [List.length_append, List.length_append, hheader, hindex]
  have htotal : (self.header options).total_data_size.toNat = self.size := UInt64.toNat_ofNat_of_lt hsize
  have hfits : ∀ count rest : Nat, raw_iocp.HEADER_SIZE ≤ raw_iocp.HEADER_SIZE + count + rest := by omega
  have hfits' : ∀ count rest : Nat, raw_iocp.HEADER_SIZE + count ≤ raw_iocp.HEADER_SIZE + count + rest := by omega
  rw [load_iocp_capture, htake, iocp_from_to_bytes (by exact UInt32.le_refl _)]
  simp only [check, hlength, hfits, hfits', decide_true, if_true, Checked.ok_bind, hblock, hbody, htotal, is_compressed_header]
  rw [← hchunk, aligned_vec_cast_slice]
  unfold Capture.body capacity Zstd.decode_all
  cases options.compress with
  | false => rfl
  | true =>
    rw [if_pos rfl, if_pos rfl, hzstd]
    by_cases hsmall : self.size < 2 ^ 63
    · rw [if_pos hsmall, if_neg fun h => h.2 hsmall]
      rfl
    · rw [if_neg hsmall, if_pos ⟨rfl, hsmall⟩]
      rfl

theorem iter_chunks_laid {record_size seq offset : Nat} {list : List (UInt64 × List UInt8)} {data : List UInt8}
    (hat : At data offset (list.map Prod.snd).flatten) (hsize : data.length < 2 ^ 64) :
    iter_chunks data ((laid record_size seq offset list).map Prod.fst) =
      .ok ((laid record_size seq offset list).map fun item => (item.1, item.2.take (2 ^ 32 - 1))) := by
  induction list generalizing seq offset with
  | nil => rfl
  | cons chunk rest ih =>
    rw [List.map_cons, List.flatten_cons] at hat
    have hchunk := hat.left
    have hroom := hchunk.le_length
    have hoffset : (UInt64.ofNat offset).toNat = offset := UInt64.toNat_ofNat_of_lt (Nat.lt_of_le_of_lt (Nat.le_add_right _ _)
      (Nat.lt_of_le_of_lt hroom hsize))
    have hpart : At data offset (chunk.2.take (2 ^ 32 - 1)) := by
      rw [← List.take_append_drop (2 ^ 32 - 1) chunk.2] at hchunk
      exact hchunk.left
    have hslice := hpart.slice
    have hlength : (chunk.2.take (2 ^ 32 - 1)).length = min chunk.2.length (2 ^ 32 - 1) := by
      rw [List.length_take, Nat.min_comm]
    have hstop : offset + min chunk.2.length (2 ^ 32 - 1) < 2 ^ 64 := by omega
    rw [hlength] at hslice
    rw [laid, List.map_cons, List.map_cons, iter_chunks]
    simp only [entry, hoffset, toNat_len_to_u32]
    rw [Checked.fits_eq hstop, Checked.ok_bind, ih hat.right, Checked.ok_bind, hslice]
    rfl

section copy

variable {record_size : Nat} {list : List (CapturedChunk × List UInt8)} {data : List UInt8}

/-- Where a chunk goes. -/
def place_of (record_size : Nat) (item : CapturedChunk × List UInt8) : Nat := item.1.start_frs.toNat * record_size

/-- The chunk has the size of its records, and they are within the buffer. -/
def Lands (record_size : Nat) (data : List UInt8) (item : CapturedChunk × List UInt8) : Prop :=
  item.2.length = item.1.record_count.toNat * record_size ∧ place_of record_size item + item.2.length ≤ data.length

/-- One chunk of the loop. -/
theorem copy_chunks_cons {item : CapturedChunk × List UInt8} (h : Lands record_size data item) (hsize : data.length < 2 ^ 64) :
    copy_chunks record_size data (item :: list) =
      copy_chunks record_size (overwrite data (place_of record_size item) item.2) list := by
  obtain ⟨chunk, chunk_data⟩ := item
  obtain ⟨hlength, hroom⟩ := h
  unfold place_of at hroom ⊢
  simp only at hlength hroom ⊢
  have hstart : chunk.start_frs.toNat * record_size < 2 ^ 64 := by omega
  have hend : chunk.start_frs.toNat * record_size + chunk.record_count.toNat * record_size ≤ data.length := by omega
  rw [copy_chunks, Checked.fits_eq hstart, Checked.ok_bind]
  simp only [check, hlength, decide_true, if_true, Checked.ok_bind]
  rw [Checked.fits_eq (by omega), Checked.ok_bind, decide_eq_true hend, if_pos rfl, Checked.ok_bind]

/-- Chunks that are apart all land, each at its place. -/
theorem copy_chunks_lands (hlands : ∀ item ∈ list, Lands record_size data item) (hsize : data.length < 2 ^ 64)
    (hapart : list.Pairwise fun a b => place_of record_size a + a.2.length ≤ place_of record_size b ∨
      place_of record_size b + b.2.length ≤ place_of record_size a) :
    ∃ out, copy_chunks record_size data list = .ok out ∧ out.length = data.length ∧
      (∀ item ∈ list, At out (place_of record_size item) item.2) ∧
      ∀ start block, At data start block → (∀ item ∈ list, start + block.length ≤ place_of record_size item ∨
        place_of record_size item + item.2.length ≤ start) → At out start block := by
  induction list generalizing data with
  | nil => exact ⟨data, rfl, rfl, nofun, fun _ _ h _ => h⟩
  | cons item rest ih =>
    have hitem := hlands item List.mem_cons_self
    have hroom := hitem.2
    have hlength := length_overwrite hroom
    obtain ⟨hfirst, hrest⟩ := List.pairwise_cons.mp hapart
    have hlater : ∀ other ∈ rest, Lands record_size (overwrite data (place_of record_size item) item.2) other := by
      intro other hmem
      rw [Lands, hlength]
      exact hlands other (List.mem_cons_of_mem _ hmem)
    obtain ⟨out, hrun, hout, hplaced, hkept⟩ := ih hlater (by rw [hlength]; exact hsize) hrest
    refine ⟨out, (copy_chunks_cons hitem hsize).trans hrun, hout.trans hlength, ?_, ?_⟩
    · intro other hmem
      rcases List.mem_cons.mp hmem with rfl | hmem
      · exact hkept _ _ (at_overwrite hroom) hfirst
      · exact hplaced other hmem
    · intro start block hat haway
      refine hkept start block (hat.overwrite hroom (haway item List.mem_cons_self)) fun other hmem => ?_
      exact haway other (List.mem_cons_of_mem _ hmem)

/-- What has been copied has landed. -/
theorem lands_of_copy_chunks {out : List UInt8} (h : copy_chunks record_size data list = .ok out) :
    out.length = data.length ∧ ∀ item ∈ list, Lands record_size data item := by
  induction list generalizing data with
  | nil =>
    cases h
    exact ⟨rfl, nofun⟩
  | cons item rest ih =>
    obtain ⟨chunk, chunk_data⟩ := item
    rw [copy_chunks] at h
    obtain ⟨start, hstart, hchecked⟩ := Checked.bind_eq_ok.mp h
    obtain ⟨_, hcheck, hsized⟩ := Checked.bind_eq_ok.mp hchecked
    obtain ⟨stop, hstop, hbounded⟩ := Checked.bind_eq_ok.mp hsized
    obtain ⟨_, hbound, hcopied⟩ := Checked.bind_eq_ok.mp hbounded
    obtain ⟨_, rfl⟩ := Checked.fits_eq_ok.mp hstart
    obtain ⟨_, rfl⟩ := Checked.fits_eq_ok.mp hstop
    have hsize : chunk_data.length = chunk.record_count.toNat * record_size := of_decide_eq_true (check_eq_ok.mp hcheck)
    have hroom := of_decide_eq_true (check_eq_ok.mp hbound)
    rw [← hsize] at hroom
    obtain ⟨hlength, hrest⟩ := ih hcopied
    have hsame := length_overwrite hroom
    refine ⟨hlength.trans hsame, fun item hmem => ?_⟩
    rcases List.mem_cons.mp hmem with rfl | hmem
    · exact ⟨hsize, hroom⟩
    · have hitem := hrest item hmem
      rw [Lands, hsame] at hitem
      exact hitem

end copy

/-- The chunks as the loader copies them, with as much of their data as their size tells. -/
def sorted : List (CapturedChunk × List UInt8) :=
  (self.index.map fun item => (item.1, item.2.take (2 ^ 32 - 1))).mergeSort fun a b => a.1.start_frs ≤ b.1.start_frs

/-- The header of the reassembled data. -/
def reassembled (load : LoadRawOptions) : RawMftHeader where
  version := raw.VERSION
  flags := 0
  record_size := self.record_size
  record_count := .ofNat self.counted
  original_size := .ofNat (self.counted * self.record_size.toNat)
  compressed_size := 0
  volume_letter := load.volume_letter.getD options.volume_letter
  reserved_allocated_bytes := 0

theorem at_flatten : At (self.chunks.map Prod.snd).flatten 0 (self.chunks.map Prod.snd).flatten := At.whole _

theorem length_flatten_chunks : (self.chunks.map Prod.snd).flatten.length = self.size := by
  rw [List.length_flatten, List.map_map]
  rfl

include hzstd in
/-- What the loader makes of a written capture. -/
theorem load_written {load : LoadRawOptions} (hload : load.header_only = false) (hchunks : self.chunks.length < 2 ^ 32)
    (hsize : self.size < 2 ^ 64) :
    load_raw_mft zstd load
        ((self.header options).to_bytes ++ cast_slice chunk_pod (self.index.map Prod.fst) ++ self.body zstd options) =
      if (options.compress = true ∧ ¬ self.size < 2 ^ 63) ∨ ¬ self.counted * self.record_size.toNat < 2 ^ 63 then .panic
      else copy_chunks self.record_size.toNat (List.replicate (self.counted * self.record_size.toNat) 0) (sorted self) >>=
        fun data => .ok { header := reassembled self options load, data } := by
  have hfront : ∀ rest, ((self.header options).to_bytes ++ rest).take 8 = IOCP_MAGIC_PREFIX := by
    intro rest
    simp only [IocpCaptureHeader.to_bytes, raw_iocp.MAGIC, List.append_assoc]
    exact List.take_left' rfl
  have hlong : ∀ rest : List UInt8, 8 ≤ ((self.header options).to_bytes ++ rest).length := by
    intro rest
    rw [List.length_append, length_iocp_to_bytes, raw_iocp.HEADER_SIZE]
    omega
  have hmagic : IOCP_MAGIC_PREFIX ≠ raw.MAGIC := by decide
  have hcounted : self.counted < 2 ^ 64 := Nat.lt_of_le_of_lt self.counted_le hsize
  have htotal : (self.header options).total_records.toNat = self.counted := UInt64.toNat_ofNat_of_lt hcounted
  have hrecord : (self.header options).record_size = self.record_size := rfl
  have hflat : (self.chunks.map Prod.snd).flatten.length < 2 ^ 64 := (length_flatten_chunks self).trans_lt hsize
  have hiter := @iter_chunks_laid self.record_size.toNat 0 _ _ _ (at_flatten self) hflat
  have hlist := load_iocp_capture_eq hzstd self options hchunks hsize
  rw [List.append_assoc] at hlist ⊢
  rw [load_raw_mft, hfront]
  simp only [check, hlong, decide_true, if_true, Checked.ok_bind, if_neg hmagic]
  rw [load_iocp_as_raw_mft, hlist]
  by_cases hcompress : options.compress = true ∧ ¬ self.size < 2 ^ 63
  · rw [if_pos hcompress, if_pos (.inl hcompress)]
    rfl
  · rw [if_neg hcompress, Checked.ok_bind]
    simp only [htotal, hrecord, hload, Bool.false_eq_true, if_false]
    by_cases hsmall : self.counted * self.record_size.toNat < 2 ^ 63
    · have hneither : ¬ ((options.compress = true ∧ ¬ self.size < 2 ^ 63) ∨ ¬ self.counted * self.record_size.toNat < 2 ^ 63) := by
        rintro (h | h)
        · exact hcompress h
        · exact h hsmall
      rw [if_neg hneither, Checked.fits_eq (by omega), Checked.ok_bind, Checked.ok_bind, capacity, if_pos hsmall,
        Checked.ok_bind]
      change (iter_chunks _ ((laid _ _ _ _).map Prod.fst) >>= _) = _
      rw [hiter, Checked.ok_bind]
      rfl
    · rw [if_pos (.inr hsmall)]
      by_cases hword : self.counted * self.record_size.toNat < 2 ^ 64
      · rw [Checked.fits_eq hword, Checked.ok_bind, Checked.ok_bind, capacity, if_neg hsmall]
        rfl
      · rw [Checked.fits, if_neg hword]
        rfl

end load

end uffs.mft.raw
