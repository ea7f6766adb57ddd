import Uffs.Mft.RawReload

open uffs.lib uffs.lib.bytes uffs.client

namespace uffs.mft.raw

/-! The same records, saved at once and as a stream. -/

/-- Records in the pieces in which they are written; none begins as a file of the program does. -/
structure Records where
  record_size : UInt32
  writes : List (List UInt8)
  positive : 0 < record_size.toNat
  whole : record_size.toNat ∣ writes.flatten.length
  size : writes.flatten.length < 2 ^ 63
  signed : writes.flatten.take 8 ≠ MAGIC ∧ writes.flatten.take 8 ≠ IOCP_MAGIC_PREFIX

namespace Records

variable (self : Records)

def data : List UInt8 := self.writes.flatten

/-- Both files load, to the same bytes in records of the same size. -/
def LoadAlike (zstd : Zstd) (options : SaveRawOptions) (load : LoadRawOptions) : Prop :=
  ∃ saved streamed loaded loaded', save_raw_mft zstd self.data self.record_size options = .ok saved ∧
    save_streaming zstd self.writes self.record_size options = .ok streamed ∧ load_raw_mft zstd load saved.2 = .ok loaded ∧
    load_raw_mft zstd load streamed.2 = .ok loaded' ∧ loaded.data = loaded'.data ∧
    loaded.header.record_size = loaded'.header.record_size

/-- The bytes alone tell what they are. -/
structure Recognised : Prop where
  long : 8 ≤ self.data.length
  signature : self.data.take 4 = NTFS_FILE_MAGIC
  record_size : detect_record_size_from_first_record self.data = self.record_size

end Records

section header

theorem length_raw_to_bytes (header : RawMftHeader) : header.to_bytes.length = HEADER_SIZE := by
  simp only [RawMftHeader.to_bytes, List.length_append, Pod.length_to_bytes, List.length_replicate]
  rfl

theorem take_raw_to_bytes (header : RawMftHeader) (rest : List UInt8) : (header.to_bytes ++ rest).take 8 = MAGIC := by
  rw [RawMftHeader.to_bytes, List.append_assoc, List.append_assoc]
  exact List.take_left' rfl

theorem raw_from_to_bytes {header : RawMftHeader} (hversion : header.version = VERSION) :
    RawMftHeader.from_bytes header.to_bytes = .ok header := by
  have hmagic : header.to_bytes.take 8 = MAGIC := by
    have htake := take_raw_to_bytes header []
    rwa [List.append_nil] at htake
  have hfields : ∀ fields : List UInt8, fields.length = RawMftHeader.fields.size →
      ((MAGIC ++ fields ++ List.replicate 11 0).drop 8).take RawMftHeader.fields.size = fields := by
    intro fields hlength
    have hfront : MAGIC.length = 8 := rfl
    rw [List.append_assoc, List.drop_left' hfront, ← hlength]
    exact List.take_left
  obtain ⟨version, flags, record_size, record_count, original_size, compressed_size, volume_letter, reserved⟩ := header
  cases hversion
  rw [RawMftHeader.from_bytes, hmagic, RawMftHeader.to_bytes, hfields _ (Pod.length_to_bytes ..), Pod.from_to_bytes]
  simp only [check, decide_true, if_true, Checked.ok_bind, DriveLetter.try_from_byte, Option.getD_some]
  rfl

end header

section load

variable {zstd : Zstd} {load : LoadRawOptions} (hload : load.header_only = false)

include hload in
/-- A file with a header loads as the bytes behind it. -/
theorem load_headered {header : RawMftHeader} {body data : List UInt8} (hversion : header.version = VERSION)
    (hbody : (if header.is_compressed then zstd.decode_all body else pure body) = .ok data)
    (hcount : header.record_count.toNat * header.record_size.toNat = data.length) (hsize : data.length < 2 ^ 63) :
    load_raw_mft zstd load (header.to_bytes ++ body) = .ok { header, data } := by
  have hheader := length_raw_to_bytes header
  have hlong : 8 ≤ (header.to_bytes ++ body).length := by
    rw [List.length_append, hheader, HEADER_SIZE]
    omega
  have hfits : HEADER_SIZE ≤ (header.to_bytes ++ body).length := by
    rw [List.length_append, hheader]
    omega
  rw [load_raw_mft, take_raw_to_bytes, List.take_left' hheader, List.drop_left' hheader, raw_from_to_bytes hversion]
  have hexpected : (Checked.fits 64 (header.record_count.toNat * header.record_size.toNat) : Result Nat) = .ok data.length := by
    rw [hcount, Checked.fits_eq (by omega)]
  simp only [check, hlong, hfits, decide_true, if_true, Checked.ok_bind, hload, Bool.false_eq_true, if_false]
  cases hcompressed : header.is_compressed with
  | true =>
    rw [hcompressed, if_pos rfl] at hbody
    rw [if_pos rfl, hbody, Checked.ok_bind, hexpected, Checked.ok_bind, decide_eq_true rfl, if_pos rfl]
    rfl
  | false =>
    rw [hcompressed, if_neg (by decide)] at hbody
    rw [if_neg (by decide), hbody, Checked.ok_bind, hexpected, Checked.ok_bind, decide_eq_true rfl, if_pos rfl]
    rfl

include hload in
/-- Bytes without a header load as records when they look like one. -/
theorem load_headerless {data : List UInt8} (hraw : data.take 8 ≠ MAGIC) (hiocp : data.take 8 ≠ IOCP_MAGIC_PREFIX)
    {loaded : RawMftData} : load_raw_mft zstd load data = .ok loaded →
      8 ≤ data.length ∧ data.take 4 = NTFS_FILE_MAGIC ∧ loaded.data = data ∧
        loaded.header.record_size = detect_record_size_from_first_record data := by
  intro h
  rw [load_raw_mft] at h
  obtain ⟨_, hlong, hrest⟩ := Checked.bind_eq_ok.mp h
  simp only [if_neg hraw, if_neg hiocp, List.take_take] at hrest
  split at hrest
  case isFalse => cases hrest
  case isTrue hfile =>
    obtain ⟨_, _, hloaded⟩ := Checked.bind_eq_ok.mp hrest
    rw [hload] at hloaded
    cases hloaded
    exact ⟨of_decide_eq_true (check_eq_ok.mp hlong), hfile, rfl, rfl⟩

include hload in
/-- Records that look like some load as they are. -/
theorem load_recognised {records : Records} (h : records.Recognised) :
    ∃ loaded, load_raw_mft zstd load records.data = .ok loaded ∧ loaded.data = records.data ∧
      loaded.header.record_size = records.record_size := by
  obtain ⟨hlong, hsignature, hrecord⟩ := h
  have hraw : ¬ records.data.take 8 = MAGIC := records.signed.1
  have hiocp : ¬ records.data.take 8 = IOCP_MAGIC_PREFIX := records.signed.2
  have hwhole : records.data.length % records.record_size.toNat = 0 := Nat.mod_eq_zero_of_dvd records.whole
  rw [load_raw_mft]
  simp only [check, hlong, hraw, hiocp, hrecord, hwhole, List.take_take, hload, decide_true, if_true, if_false, Checked.ok_bind,
    Bool.false_eq_true]
  rw [if_pos (by exact hsignature)]
  exact ⟨_, rfl, rfl, rfl⟩

end load

section save

theorem is_compressed_raw (compress : Bool) : decide ((if compress then FLAG_COMPRESSED else 0) &&& FLAG_COMPRESSED ≠ 0) = compress := by
  cases compress <;> decide

theorem write_chunks_eq (writer : StreamingRawMftWriter) (writes : List (List UInt8))
    (hsize : writer.bytes_written + writes.flatten.length < 2 ^ 64) :
    writer.write_chunks writes = .ok { writer with
      written := writer.written ++ writes, bytes_written := writer.bytes_written + writes.flatten.length } := by
  induction writes generalizing writer with
  | nil => simp [StreamingRawMftWriter.write_chunks]
  | cons data rest ih =>
    rw [List.flatten_cons, List.length_append, ← Nat.add_assoc] at hsize
    rw [StreamingRawMftWriter.write_chunks, StreamingRawMftWriter.write_chunk, Checked.fits_eq (by omega), Checked.ok_bind,
      Checked.pure_eq, Checked.ok_bind, ih _ hsize]
    simp [List.append_assoc, Nat.add_assoc]

variable {zstd : Zstd} (self : Records) (options : SaveRawOptions)

/-- The header of the records with what is behind it. -/
def Records.header (body : List UInt8) : RawMftHeader where
  version := VERSION
  flags := if options.compress then FLAG_COMPRESSED else 0
  record_size := self.record_size
  record_count := .ofNat (self.data.length / self.record_size.toNat)
  original_size := .ofNat self.data.length
  compressed_size := if options.compress then .ofNat body.length else 0
  volume_letter := options.volume_letter
  reserved_allocated_bytes := options.reserved_allocated_bytes

theorem Records.count_records_eq :
    count_records self.data.length self.record_size = .ok (self.data.length / self.record_size.toNat) := by
  rw [count_records, if_neg]
  · rfl
  · intro hzero
    have hpos := self.positive
    rw [hzero] at hpos
    exact absurd hpos (by decide)

/-- What is saved at once. -/
def Records.at_once (zstd : Zstd) : List UInt8 :=
  if options.compress then zstd.encode options.compression_level [self.data] else self.data

theorem save_raw_mft_eq : save_raw_mft zstd self.data self.record_size options =
    .ok (self.header options (self.at_once options zstd),
      (self.header options (self.at_once options zstd)).to_bytes ++ self.at_once options zstd) := by
  rw [save_raw_mft, self.count_records_eq, Checked.ok_bind]
  rfl

/-- What is saved as a stream. -/
def Records.streamed (zstd : Zstd) : List UInt8 :=
  if options.compress then zstd.encode options.compression_level self.writes else self.data

theorem save_streaming_eq : ∃ header, save_streaming zstd self.writes self.record_size options =
    .ok (header, if options.raw_compat then self.data
      else (self.header options (self.streamed options zstd)).to_bytes ++ self.streamed options zstd) := by
  have hsize := self.size
  have hcount := self.count_records_eq
  have hfits : 0 + self.writes.flatten.length < 2 ^ 64 := by omega
  rw [save_streaming, write_chunks_eq _ _ hfits, Checked.ok_bind, StreamingRawMftWriter.finish]
  simp only [StreamingRawMftWriter.new, Nat.zero_add, List.nil_append]
  change ∃ header, (count_records self.data.length self.record_size >>= _) = _
  rw [hcount, Checked.ok_bind]
  rcases Bool.eq_false_or_eq_true options.raw_compat with hcompat | hcompat
  · simp only [hcompat, if_true]
    exact ⟨_, rfl⟩
  · simp only [hcompat, Bool.not_false, Bool.true_and, Bool.false_eq_true, if_false]
    exact ⟨_, rfl⟩

theorem decode_body {zstd : Zstd} (hzstd : zstd.Lossless) {writes : List (List UInt8)} {body : List UInt8}
    (hwrites : writes.flatten = self.data)
    (hbody : body = if options.compress then zstd.encode options.compression_level writes else self.data) :
    (if (self.header options body).is_compressed then zstd.decode_all body else pure body) = .ok self.data := by
  have hcompressed : (self.header options body).is_compressed = options.compress := is_compressed_raw options.compress
  rw [hcompressed, hbody]
  cases options.compress with
  | false => rfl
  | true =>
    rw [if_pos rfl, if_pos rfl, Zstd.decode_all, hzstd, hwrites]

/-- A file with a header has all the records. -/
theorem load_saved (hzstd : zstd.Lossless) {load : LoadRawOptions} (hload : load.header_only = false)
    {writes : List (List UInt8)} {body : List UInt8} (hwrites : writes.flatten = self.data)
    (hbody : body = if options.compress then zstd.encode options.compression_level writes else self.data) :
    load_raw_mft zstd load ((self.header options body).to_bytes ++ body) =
      .ok { header := self.header options body, data := self.data } := by
  have hsize : self.data.length < 2 ^ 63 := self.size
  have hle := Nat.div_le_self self.data.length self.record_size.toNat
  have hrecords : (self.header options body).record_count.toNat = self.data.length / self.record_size.toNat := by
    apply UInt64.toNat_ofNat_of_lt
    rw [UInt64.size]
    omega
  have hcount : (self.header options body).record_count.toNat * (self.header options body).record_size.toNat = self.data.length := by
    rw [hrecords]
    exact Nat.div_mul_cancel self.whole
  exact load_headered hload rfl (decode_body self options hzstd hwrites hbody) hcount hsize

theorem load_alike_iff (hzstd : zstd.Lossless) {load : LoadRawOptions} (hload : load.header_only = false) :
    self.LoadAlike zstd options load ↔ (options.raw_compat = true → self.Recognised) := by
  obtain ⟨header, hstreamed⟩ := @save_streaming_eq zstd self options
  have hsaved := @save_raw_mft_eq zstd self options
  have honce := @load_saved _ self options hzstd _ hload [self.data] (self.at_once options zstd) List.flatten_singleton rfl
  constructor
  · rintro ⟨saved, streamed, loaded, loaded', hsave, hstream, hload_saved, hload_streamed, _, hsizes⟩ hcompat
    rw [hsaved, Checked.ok.injEq] at hsave
    rw [hstreamed, if_pos hcompat, Checked.ok.injEq] at hstream
    rw [← hsave, honce, Checked.ok.injEq] at hload_saved
    rw [← hstream] at hload_streamed
    obtain ⟨hlong, hsignature, _, hrecord⟩ := load_headerless hload self.signed.1 self.signed.2 hload_streamed
    rw [← hload_saved] at hsizes
    exact ⟨hlong, hsignature, hrecord.symm.trans hsizes.symm⟩
  · intro h
    by_cases hcompat : options.raw_compat = true
    · obtain ⟨loaded, hloaded, hdata, hrecord⟩ := @load_recognised zstd _ hload self (h hcompat)
      rw [if_pos hcompat] at hstreamed
      exact ⟨_, _, _, _, hsaved, hstreamed, honce, hloaded, hdata.symm, hrecord.symm⟩
    · have hchunks := @load_saved _ self options hzstd _ hload self.writes (self.streamed options zstd) rfl rfl
      rw [if_neg hcompat] at hstreamed
      exact ⟨_, _, _, _, hsaved, hstreamed, honce, hchunks, rfl, rfl⟩

end save

end uffs.mft.raw
