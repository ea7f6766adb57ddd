import Uffs.Lib.StableSort
import Uffs.Mft.RawExact
import Uffs.Mft.RawWriters

open uffs.lib uffs.lib.bytes uffs.client

namespace uffs.mft.raw

open raw_iocp

/-! When no byte string makes a loader panic, nor what it loads. -/

theorem check_ne_panic {ok : Bool} {e : MftError} : check ok e ≠ .panic := by
  unfold check
  split <;> nofun

theorem capacity_ne_panic {size : Nat} : capacity size ≠ .panic ↔ size < 2 ^ 63 := by
  unfold capacity
  split
  next hfits => exact ⟨fun _ => hfits, fun _ => nofun⟩
  next hlarge => exact ⟨fun h => absurd rfl h, fun hfits => absurd hfits hlarge⟩

variable {zstd : Zstd} {buf file : List UInt8} {load : LoadRawOptions}
  {data : List UInt8} {chunks : List CapturedChunk}

theorem decode_all_ne_panic : zstd.decode_all data ≠ .panic := by
  unfold Zstd.decode_all
  split <;> nofun

theorem raw_from_bytes_ne_panic : RawMftHeader.from_bytes buf ≠ .panic := by
  rw [RawMftHeader.from_bytes, Checked.bind_ne_panic]
  refine ⟨check_ne_panic, fun _ _ => ?_⟩
  exact Checked.bind_ne_panic.mpr ⟨check_ne_panic, fun _ _ => Checked.ok_ne_panic⟩

theorem iocp_from_bytes_ne_panic : IocpCaptureHeader.from_bytes buf ≠ .panic := by
  rw [IocpCaptureHeader.from_bytes, Checked.bind_ne_panic]
  refine ⟨check_ne_panic, fun _ _ => ?_⟩
  exact Checked.bind_ne_panic.mpr ⟨check_ne_panic, fun _ _ => Checked.ok_ne_panic⟩

/-- A compressed capture with a whole index says of its data what can be allocated. -/
def Allocates (file : List UInt8) : Prop :=
  raw_iocp.HEADER_SIZE ≤ file.length → ∀ header, IocpCaptureHeader.from_bytes (file.take raw_iocp.HEADER_SIZE) = .ok header →
    raw_iocp.HEADER_SIZE + header.chunk_count.toNat * chunk_pod.size ≤ file.length → header.is_compressed = true →
      header.total_data_size.toNat < 2 ^ 63

theorem load_iocp_capture_ne_panic : load_iocp_capture zstd file ≠ .panic ↔ Allocates file := by
  simp only [load_iocp_capture, Allocates, Checked.bind_ne_panic, check_ne_panic, iocp_from_bytes_ne_panic, check_eq_ok,
    decide_eq_true_eq, not_false_eq_true, true_and, ne_eq]
  constructor
  · intro h hlong header hheader hindex hcompressed
    have hrun := h () hlong header hheader () hindex
    rw [if_pos hcompressed] at hrun
    exact capacity_ne_panic.mp (Checked.bind_ne_panic.mp hrun).1
  · intro h _ hlong header hheader _ hindex
    split
    case isTrue hcompressed =>
      refine Checked.bind_ne_panic.mpr ⟨capacity_ne_panic.mpr (h hlong header hheader hindex hcompressed), fun _ _ => ?_⟩
      exact Checked.bind_ne_panic.mpr ⟨decode_all_ne_panic, fun _ _ => Checked.ok_ne_panic⟩
    case isFalse => exact Checked.ok_ne_panic

theorem iter_chunks_ne_panic :
    iter_chunks data chunks ≠ .panic ↔ ∀ chunk ∈ chunks, chunk.data_offset.toNat + chunk.data_size.toNat < 2 ^ 64 := by
  induction chunks with
  | nil => exact ⟨fun _ _ hmem => absurd hmem List.not_mem_nil, fun _ => Checked.ok_ne_panic⟩
  | cons chunk rest ih =>
    rw [iter_chunks, Checked.bind_ne_panic, Checked.fits_ne_panic, List.forall_mem_cons, ← ih]
    refine and_congr_right fun hfits => ?_
    constructor
    · intro h
      exact (Checked.bind_ne_panic.mp (h _ (Checked.fits_eq hfits))).1
    · intro h _ _
      exact Checked.bind_ne_panic.mpr ⟨h, fun _ _ => Checked.ok_ne_panic⟩

theorem iter_chunks_ok
    (h : ∀ chunk ∈ chunks, chunk.data_offset.toNat + chunk.data_size.toNat < 2 ^ 64) : ∃ items, iter_chunks data chunks = .ok items := by
  induction chunks with
  | nil => exact ⟨[], rfl⟩
  | cons chunk rest ih =>
    obtain ⟨hchunk, hrest⟩ := List.forall_mem_cons.mp h
    obtain ⟨items, hitems⟩ := ih hrest
    exact ⟨_, by rw [iter_chunks, Checked.fits_eq hchunk, Checked.ok_bind, hitems, Checked.ok_bind, Checked.pure_eq]⟩

section copy

variable {record_size : Nat}

/-- The place of a chunk with so many bytes can be computed; where it ends only has to be for a chunk of the right size. -/
def Computes (record_size : Nat) (chunk : CapturedChunk) (len : Nat) : Prop :=
  chunk.start_frs.toNat * record_size < 2 ^ 64 ∧
    (len = chunk.record_count.toNat * record_size → chunk.start_frs.toNat * record_size + len < 2 ^ 64)

theorem copy_chunks_cons_ne_panic {item : CapturedChunk × List UInt8} {list : List (CapturedChunk × List UInt8)} : copy_chunks record_size data (item :: list) ≠ .panic ↔ Computes record_size item.1 item.2.length ∧
      (Lands record_size data item → copy_chunks record_size (overwrite data (place_of record_size item) item.2) list ≠ .panic) := by
  obtain ⟨chunk, chunk_data⟩ := item
  unfold Computes Lands place_of
  rw [copy_chunks]
  simp only [Checked.bind_ne_panic, Checked.fits_ne_panic, Checked.fits_eq_ok, check_eq_ok, decide_eq_true_eq]
  constructor
  · rintro ⟨hstart, hrest⟩
    obtain ⟨_, hsized⟩ := hrest _ ⟨hstart, rfl⟩
    refine ⟨⟨hstart, fun hsize => ?_⟩, fun hlands => ?_⟩
    · rw [hsize]
      exact (hsized () hsize).1
    · obtain ⟨hsize, hroom⟩ := hlands
      obtain ⟨hend, hbounded⟩ := hsized () hsize
      rw [hsize] at hroom
      exact (hbounded _ ⟨hend, rfl⟩).2 () hroom
  · rintro ⟨⟨hstart, hend⟩, h⟩
    refine ⟨hstart, ?_⟩
    rintro _ ⟨_, rfl⟩
    refine ⟨check_ne_panic, fun _ hsize => ?_⟩
    rw [hsize] at hend h
    refine ⟨hend rfl, ?_⟩
    rintro _ ⟨_, rfl⟩
    exact ⟨check_ne_panic, fun _ hroom => h ⟨rfl, hroom⟩⟩

/-- Every chunk that is got to is one whose place can be computed. -/
theorem copy_chunks_ne_panic {list : List (CapturedChunk × List UInt8)} :
    copy_chunks record_size data list ≠ .panic ↔ ∀ before item after, list = before ++ item :: after →
      (∀ earlier ∈ before, Lands record_size data earlier) → Computes record_size item.1 item.2.length := by
  induction list generalizing data with
  | nil => exact ⟨fun _ before item after h => absurd h.symm (by simp), fun _ => Checked.ok_ne_panic⟩
  | cons first rest ih =>
    rw [copy_chunks_cons_ne_panic]
    have hkept : Lands record_size data first → ∀ other : CapturedChunk × List UInt8,
        Lands record_size (overwrite data (place_of record_size first) first.2) other ↔ Lands record_size data other := by
      intro hfirst other
      rw [Lands, length_overwrite hfirst.2, Lands]
    constructor
    · rintro ⟨hfirst, hrest⟩ before item after hsplit hearlier
      cases before with
      | nil =>
        cases hsplit
        exact hfirst
      | cons head tail =>
        obtain ⟨rfl, htail⟩ := List.cons.inj hsplit
        have hlands := hearlier first List.mem_cons_self
        refine ih.mp (hrest hlands) tail item after htail fun earlier hmem => ?_
        exact (hkept hlands earlier).mpr (hearlier earlier (List.mem_cons_of_mem _ hmem))
    · intro h
      refine ⟨h [] first rest rfl (fun _ hmem => absurd hmem List.not_mem_nil), fun hlands => ih.mpr fun before item after hsplit hearlier => ?_⟩
      refine h (first :: before) item after (by rw [hsplit, List.cons_append]) fun earlier hmem => ?_
      rcases List.mem_cons.mp hmem with rfl | hmem
      · exact hlands
      · exact (hkept hlands earlier).mp (hearlier earlier hmem)

/-- Bytes of a chunk that the capture has: all that the chunk tells, or none. -/
def chunk_len (data_size : Nat) (chunk : CapturedChunk) : Nat :=
  if chunk.data_offset.toNat + chunk.data_size.toNat ≤ data_size then chunk.data_size.toNat else 0

/-- The capture has the bytes of the chunk's records, and there is room for them. -/
def Copied (record_size data_size room : Nat) (chunk : CapturedChunk) : Prop :=
  chunk_len data_size chunk = chunk.record_count.toNat * record_size ∧
    chunk.start_frs.toNat * record_size + chunk_len data_size chunk ≤ room

theorem iter_chunks_eq_map {items : List (CapturedChunk × List UInt8)}
    (h : iter_chunks data chunks = .ok items) : items = chunks.map fun chunk =>
      (chunk, (slice? data chunk.data_offset.toNat (chunk.data_offset.toNat + chunk.data_size.toNat)).getD []) := by
  induction chunks generalizing items with
  | nil =>
    cases h
    rfl
  | cons chunk rest ih =>
    rw [iter_chunks] at h
    obtain ⟨stop, hstop, h⟩ := Checked.bind_eq_ok.mp h
    obtain ⟨items', hrest, h⟩ := Checked.bind_eq_ok.mp h
    obtain ⟨_, rfl⟩ := Checked.fits_eq_ok.mp hstop
    cases h
    rw [List.map_cons, ← ih hrest]

theorem length_chunk_slice (data : List UInt8) (chunk : CapturedChunk) :
    ((slice? data chunk.data_offset.toNat (chunk.data_offset.toNat + chunk.data_size.toNat)).getD []).length =
      chunk_len data.length chunk := by
  unfold slice? chunk_len
  by_cases hfits : chunk.data_offset.toNat + chunk.data_size.toNat ≤ data.length
  · rw [if_pos ⟨Nat.le_add_right _ _, hfits⟩, if_pos hfits, Option.getD_some, List.length_take, List.length_drop]
    omega
  · rw [if_neg fun h => hfits h.2, if_neg hfits]
    rfl

/-- A chunk is got to when every one that is copied before it has its bytes and its room: those with a smaller record
number, and those with the same one that stand before it. -/
theorem copy_sorted_ne_panic {room : Nat}
    {items : List (CapturedChunk × List UInt8)} (h : iter_chunks data chunks = .ok items) :
    copy_chunks record_size (List.replicate room 0) (items.mergeSort fun a b => a.1.start_frs ≤ b.1.start_frs) ≠ .panic ↔
      ∀ before chunk after, chunks = before ++ chunk :: after →
        (∀ earlier ∈ before, earlier.start_frs ≤ chunk.start_frs → Copied record_size data.length room earlier) →
        (∀ later ∈ after, later.start_frs < chunk.start_frs → Copied record_size data.length room later) →
          Computes record_size chunk (chunk_len data.length chunk) := by
  have hsort : (items.mergeSort fun a b => a.1.start_frs ≤ b.1.start_frs) =
      (chunks.mergeSort fun a b => a.start_frs ≤ b.start_frs).map fun chunk =>
        (chunk, (slice? data chunk.data_offset.toNat (chunk.data_offset.toNat + chunk.data_size.toNat)).getD []) := by
    rw [iter_chunks_eq_map h, List.map_mergeSort]
    exact fun _ _ _ _ => rfl
  have htrans : ∀ a b c : CapturedChunk, decide (a.start_frs ≤ b.start_frs) → decide (b.start_frs ≤ c.start_frs) →
      decide (a.start_frs ≤ c.start_frs) := fun a b c hab hbc =>
    decide_eq_true (UInt64.le_trans (of_decide_eq_true hab) (of_decide_eq_true hbc))
  have htotal : ∀ a b : CapturedChunk, decide (a.start_frs ≤ b.start_frs) || decide (b.start_frs ≤ a.start_frs) := by
    intro a b
    simpa using UInt64.le_total a.start_frs b.start_frs
  have hsplit := @forall_mergeSort_split _ _ htrans htotal (Copied record_size data.length room)
    (fun chunk => Computes record_size chunk (chunk_len data.length chunk)) chunks
  simp only [decide_eq_true_eq, UInt64.not_le] at hsplit
  rw [copy_chunks_ne_panic, ← hsplit, hsort]
  have hlands : ∀ chunk, Lands record_size (List.replicate room 0) (chunk,
      (slice? data chunk.data_offset.toNat (chunk.data_offset.toNat + chunk.data_size.toNat)).getD []) ↔
        Copied record_size data.length room chunk := by
    intro chunk
    rw [Lands, place_of, length_chunk_slice, List.length_replicate]
    rfl
  constructor
  · intro hcopy before chunk after hlist hbefore
    have hitem := hcopy _ _ _ (by rw [hlist, List.map_append, List.map_cons]) fun earlier hmem => by
      obtain ⟨chunk, hchunk, rfl⟩ := List.mem_map.mp hmem
      exact (hlands chunk).mpr (hbefore chunk hchunk)
    rwa [length_chunk_slice] at hitem
  · intro hplace before item after hlist hbefore
    obtain ⟨front, rest, hchunks, rfl, hrest⟩ := List.map_eq_append_iff.mp hlist
    obtain ⟨chunk, back, rfl, rfl, rfl⟩ := List.map_eq_cons_iff.mp hrest
    rw [length_chunk_slice]
    exact hplace front chunk back hchunks fun earlier hmem => (hlands earlier).mp (hbefore _ (List.mem_map_of_mem hmem))

end copy

/-- What the loader of a capture computes fits: the size of all records, where each chunk's bytes end, and the place of
every chunk that is got to. -/
structure Fits.Capture (load : LoadRawOptions) (capture : IocpCaptureData) : Prop where
  total : capture.header.total_records.toNat * capture.header.record_size.toNat < 2 ^ 64
  memory : load.header_only = false → capture.header.total_records.toNat * capture.header.record_size.toNat < 2 ^ 63
  chunks : load.header_only = false → ∀ chunk ∈ capture.chunks, chunk.data_offset.toNat + chunk.data_size.toNat < 2 ^ 64
  places : load.header_only = false → ∀ before chunk after, capture.chunks = before ++ chunk :: after →
    let copied := Copied capture.header.record_size.toNat capture.data.length
      (capture.header.total_records.toNat * capture.header.record_size.toNat)
    (∀ earlier ∈ before, earlier.start_frs ≤ chunk.start_frs → copied earlier) →
      (∀ later ∈ after, later.start_frs < chunk.start_frs → copied later) →
        Computes capture.header.record_size.toNat chunk (chunk_len capture.data.length chunk)

theorem load_iocp_as_raw_mft_ne_panic :
    load_iocp_as_raw_mft zstd load file ≠ .panic ↔ Allocates file ∧
      ∀ capture, load_iocp_capture zstd file = .ok capture → Fits.Capture load capture := by
  rw [load_iocp_as_raw_mft, Checked.bind_ne_panic, load_iocp_capture_ne_panic]
  refine and_congr_right fun _ => forall_congr' fun capture => imp_congr_right fun _ => ?_
  rw [Checked.bind_ne_panic, Checked.fits_ne_panic]
  constructor
  · rintro ⟨htotal, hrest⟩
    have hread := hrest _ (Checked.fits_eq htotal)
    cases hload : load.header_only with
    | true => exact ⟨htotal, by simp [hload], by simp [hload], by simp [hload]⟩
    | false =>
      simp only [hload, Bool.false_eq_true, if_false] at hread
      obtain ⟨hmemory, hread⟩ := Checked.bind_ne_panic.mp ((Checked.bind_ne_panic.mp hread).2 _ (Checked.fits_eq htotal))
      have hsmall := capacity_ne_panic.mp hmemory
      obtain ⟨hchunks, hread⟩ := Checked.bind_ne_panic.mp (hread () (capacity_eq_ok.mpr hsmall))
      have hoffsets := iter_chunks_ne_panic.mp hchunks
      obtain ⟨items, hiter⟩ := @iter_chunks_ok capture.data _ hoffsets
      refine ⟨htotal, fun _ => hsmall, fun _ => hoffsets, fun _ => ?_⟩
      exact (copy_sorted_ne_panic hiter).mp (Checked.bind_ne_panic.mp (hread items hiter)).1
  · rintro ⟨htotal, hmemory, hchunks, hplaces⟩
    refine ⟨htotal, fun _ _ => ?_⟩
    cases hload : load.header_only with
    | true => exact Checked.ok_ne_panic
    | false =>
      simp only [Bool.false_eq_true, if_false]
      refine Checked.bind_ne_panic.mpr ⟨Checked.fits_ne_panic.mpr htotal, fun total htotal_eq => ?_⟩
      obtain ⟨_, rfl⟩ := Checked.fits_eq_ok.mp htotal_eq
      refine Checked.bind_ne_panic.mpr ⟨capacity_ne_panic.mpr (hmemory hload), fun _ _ => ?_⟩
      refine Checked.bind_ne_panic.mpr ⟨iter_chunks_ne_panic.mpr (hchunks hload), fun chunks hiter => ?_⟩
      exact Checked.bind_ne_panic.mpr ⟨(copy_sorted_ne_panic hiter).mpr (hplaces hload), fun _ _ => Checked.ok_ne_panic⟩

/-- What a loader computes of a file fits. -/
structure Fits (zstd : Zstd) (load : LoadRawOptions) (file : List UInt8) : Prop where
  header : HEADER_SIZE ≤ file.length → file.take 8 = MAGIC → load.header_only = false →
    ∀ header, RawMftHeader.from_bytes (file.take HEADER_SIZE) = .ok header →
      (header.is_compressed = true → (zstd.decode (file.drop HEADER_SIZE)).isSome) →
      header.record_count.toNat * header.record_size.toNat < 2 ^ 64
  capture : file.take 8 = IOCP_MAGIC_PREFIX → Allocates file ∧
    ∀ capture, load_iocp_capture zstd file = .ok capture → Fits.Capture load capture

theorem long_of_take {file magic : List UInt8} (hmagic : magic.length = 8) (h : file.take 8 = magic) : 8 ≤ file.length := by
  have hlength := congrArg List.length h
  rw [List.length_take, hmagic] at hlength
  omega

theorem decode_all_eq_ok {decoded : List UInt8} :
    zstd.decode_all data = .ok decoded ↔ zstd.decode data = some decoded := by
  unfold Zstd.decode_all
  split <;> simp [*]

theorem load_raw_mft_ne_panic : load_raw_mft zstd load file ≠ .panic ↔ Fits zstd load file := by
  constructor
  · intro h
    refine ⟨fun hsize hmagic hload header hparsed hdecodes => ?_, fun hmagic => ?_⟩
    · have hlong := long_of_take rfl hmagic
      by_contra hbig
      have hover : (Checked.fits 64 (header.record_count.toNat * header.record_size.toNat) : Result Nat) = .panic := if_neg hbig
      apply h
      rw [load_raw_mft]
      simp only [check, hlong, hmagic, hsize, hload, hparsed, decide_true, if_true, Checked.ok_bind, Bool.false_eq_true, if_false]
      cases hcompressed : header.is_compressed with
      | true =>
        obtain ⟨data, hdata⟩ := Option.isSome_iff_exists.mp (hdecodes hcompressed)
        rw [if_pos rfl, decode_all_eq_ok.mpr hdata, Checked.ok_bind, hover]
        rfl
      | false =>
        rw [if_neg (by decide), Checked.pure_eq, Checked.ok_bind, hover]
        rfl
    · have hlong := long_of_take rfl hmagic
      have hraw : ¬ IOCP_MAGIC_PREFIX = MAGIC := by decide
      rw [load_raw_mft] at h
      simp only [check, hlong, hmagic, hraw, decide_true, if_true, if_false, Checked.ok_bind] at h
      exact load_iocp_as_raw_mft_ne_panic.mp h
  · rintro ⟨hheader, hcapture⟩
    rw [load_raw_mft, Checked.bind_ne_panic]
    refine ⟨check_ne_panic, fun _ _ => ?_⟩
    by_cases hmagic : file.take 8 = MAGIC
    · rw [if_pos hmagic]
      refine Checked.bind_ne_panic.mpr ⟨check_ne_panic, fun _ hsize => ?_⟩
      refine Checked.bind_ne_panic.mpr ⟨raw_from_bytes_ne_panic, fun header hparsed => ?_⟩
      have hsize := of_decide_eq_true (check_eq_ok.mp hsize)
      cases hload : load.header_only with
      | true => exact Checked.ok_ne_panic
      | false =>
        have hfits := hheader hsize hmagic hload header hparsed
        simp only [Bool.false_eq_true, if_false]
        cases hcompressed : header.is_compressed with
        | true =>
          rw [if_pos rfl]
          refine Checked.bind_ne_panic.mpr ⟨decode_all_ne_panic, fun data hdata => ?_⟩
          have hdecodes := Option.isSome_of_eq_some (decode_all_eq_ok.mp hdata)
          refine Checked.bind_ne_panic.mpr ⟨Checked.fits_ne_panic.mpr (hfits fun _ => hdecodes), fun _ _ => ?_⟩
          exact Checked.bind_ne_panic.mpr ⟨check_ne_panic, fun _ _ => Checked.ok_ne_panic⟩
        | false =>
          rw [if_neg (by decide), Checked.pure_eq, Checked.ok_bind]
          refine Checked.bind_ne_panic.mpr ⟨Checked.fits_ne_panic.mpr (hfits ?_), fun _ _ => ?_⟩
          · rw [hcompressed]
            intro h
            cases h
          · exact Checked.bind_ne_panic.mpr ⟨check_ne_panic, fun _ _ => Checked.ok_ne_panic⟩
    · rw [if_neg hmagic]
      by_cases hiocp : file.take 8 = IOCP_MAGIC_PREFIX
      · rw [if_pos hiocp]
        exact load_iocp_as_raw_mft_ne_panic.mpr (hcapture hiocp)
      · rw [if_neg hiocp]
        by_cases hfile : (file.take 8).take 4 = NTFS_FILE_MAGIC
        · rw [if_pos hfile]
          refine Checked.bind_ne_panic.mpr ⟨check_ne_panic, fun _ _ => ?_⟩
          cases load.header_only <;> exact Checked.ok_ne_panic
        · rw [if_neg hfile]
          exact Checked.error_ne_panic

/-- The size of its records, as the file has it. -/
def record_size_of (file : List UInt8) : UInt32 :=
  if file.take 8 = MAGIC then
    (RawMftHeader.fields.from_bytes (((file.take HEADER_SIZE).drop 8).take RawMftHeader.fields.size)).2.2.1
  else if file.take 8 = IOCP_MAGIC_PREFIX then
    (IocpCaptureHeader.fields.from_bytes (((file.take raw_iocp.HEADER_SIZE).drop 12).take IocpCaptureHeader.fields.size)).2.2.1
  else detect_record_size_from_first_record file

theorem raw_record_size {header : RawMftHeader} (h : RawMftHeader.from_bytes buf = .ok header) :
    header.record_size = (RawMftHeader.fields.from_bytes ((buf.drop 8).take RawMftHeader.fields.size)).2.2.1 := by
  rw [RawMftHeader.from_bytes] at h
  obtain ⟨_, _, hrest⟩ := Checked.bind_eq_ok.mp h
  obtain ⟨_, _, hheader⟩ := Checked.bind_eq_ok.mp hrest
  cases hheader
  rfl

theorem iocp_record_size {header : IocpCaptureHeader} (h : IocpCaptureHeader.from_bytes buf = .ok header) :
    header.record_size = (IocpCaptureHeader.fields.from_bytes ((buf.drop 12).take IocpCaptureHeader.fields.size)).2.2.1 := by
  rw [IocpCaptureHeader.from_bytes] at h
  obtain ⟨_, _, hrest⟩ := Checked.bind_eq_ok.mp h
  obtain ⟨_, _, hheader⟩ := Checked.bind_eq_ok.mp hrest
  cases hheader
  rfl

theorem capture_record_size {capture : IocpCaptureData} (h : load_iocp_capture zstd file = .ok capture) :
    capture.header.record_size = (IocpCaptureHeader.fields.from_bytes
      (((file.take raw_iocp.HEADER_SIZE).drop 12).take IocpCaptureHeader.fields.size)).2.2.1 := by
  rw [load_iocp_capture] at h
  obtain ⟨_, _, hrest⟩ := Checked.bind_eq_ok.mp h
  obtain ⟨header, hheader, hparsed⟩ := Checked.bind_eq_ok.mp hrest
  obtain ⟨_, _, hindexed⟩ := Checked.bind_eq_ok.mp hparsed
  split at hindexed
  · obtain ⟨_, _, hallocated⟩ := Checked.bind_eq_ok.mp hindexed
    obtain ⟨_, _, hloaded⟩ := Checked.bind_eq_ok.mp hallocated
    cases hloaded
    exact iocp_record_size hheader
  · cases hindexed
    exact iocp_record_size hheader

theorem reassembled_record_size {loaded : RawMftData} (h : load_iocp_as_raw_mft zstd load file = .ok loaded) :
    loaded.header.record_size = (IocpCaptureHeader.fields.from_bytes
      (((file.take raw_iocp.HEADER_SIZE).drop 12).take IocpCaptureHeader.fields.size)).2.2.1 := by
  rw [load_iocp_as_raw_mft] at h
  obtain ⟨capture, hcapture, hrest⟩ := Checked.bind_eq_ok.mp h
  obtain ⟨_, _, hread⟩ := Checked.bind_eq_ok.mp hrest
  rw [← capture_record_size hcapture]
  split at hread
  · cases hread
    rfl
  · obtain ⟨_, _, hsized⟩ := Checked.bind_eq_ok.mp hread
    obtain ⟨_, _, hallocated⟩ := Checked.bind_eq_ok.mp hsized
    obtain ⟨_, _, hiterated⟩ := Checked.bind_eq_ok.mp hallocated
    obtain ⟨_, _, hcopied⟩ := Checked.bind_eq_ok.mp hiterated
    cases hcopied
    rfl

/-- What is loaded has the records of the file's size. -/
theorem loaded_record_size {loaded : RawMftData} (h : load_raw_mft zstd load file = .ok loaded) :
    loaded.header.record_size = record_size_of file := by
  rw [load_raw_mft] at h
  obtain ⟨_, _, hrest⟩ := Checked.bind_eq_ok.mp h
  unfold record_size_of
  by_cases hmagic : file.take 8 = MAGIC
  · rw [if_pos hmagic] at hrest ⊢
    obtain ⟨_, _, hsized⟩ := Checked.bind_eq_ok.mp hrest
    obtain ⟨header, hheader, hparsed⟩ := Checked.bind_eq_ok.mp hsized
    rw [← raw_record_size hheader]
    split at hparsed
    · cases hparsed
      rfl
    · split at hparsed
      all_goals
        obtain ⟨_, _, hdecoded⟩ := Checked.bind_eq_ok.mp hparsed
        obtain ⟨_, _, hexpected⟩ := Checked.bind_eq_ok.mp hdecoded
        obtain ⟨_, _, hchecked⟩ := Checked.bind_eq_ok.mp hexpected
        cases hchecked
        rfl
  · rw [if_neg hmagic] at hrest ⊢
    by_cases hiocp : file.take 8 = IOCP_MAGIC_PREFIX
    · rw [if_pos hiocp] at hrest ⊢
      exact reassembled_record_size hrest
    · rw [if_neg hiocp] at hrest ⊢
      split at hrest
      · obtain ⟨_, _, hsized⟩ := Checked.bind_eq_ok.mp hrest
        split at hsized
        · cases hsized
          rfl
        · cases hsized
          rfl
      · cases hrest

/-- What is loaded can be read as records, and so can the record of a number. -/
def Reads (loaded : RawMftData) (frs : UInt64) : Prop := loaded.get_record frs ≠ .panic ∧ loaded.iter_records ≠ .panic

/-- A capture reloads whole when its records have no gap; both writers of the same records serve as one unless the stream is
written without a header and is not recognised; and nothing panics on a file whose sizes fit. -/
theorem captures_reload_iff {zstd : Zstd} (hzstd : zstd.Lossless) (volume_letter : Option DriveLetter) :
    (∀ (capture : Capture) (options : IocpCaptureOptions),
      capture.Reloads zstd options { volume_letter } ↔ capture.Dense) ∧
    (∀ (records : Records) (options : SaveRawOptions),
      records.LoadAlike zstd options { volume_letter } ↔ (options.raw_compat = true → records.Recognised)) ∧
    ∀ (file : List UInt8) (load : LoadRawOptions),
      (load_iocp_capture zstd file ≠ .panic ↔ Allocates file) ∧ (load_raw_mft zstd load file ≠ .panic ↔ Fits zstd load file) ∧
        ∀ loaded frs, load_raw_mft zstd load file = .ok loaded →
          (Reads loaded frs ↔ record_size_of file ≠ 0 ∧ (frs.toNat + 1) * (record_size_of file).toNat < 2 ^ 64) := by
  refine ⟨fun capture options => ?_, fun records options => ?_, fun file load => ?_⟩
  · exact ⟨capture.dense_of_reloads hzstd rfl, capture.reloads_of_dense hzstd rfl⟩
  · exact load_alike_iff records options hzstd rfl
  · refine ⟨load_iocp_capture_ne_panic, load_raw_mft_ne_panic, fun loaded frs hloaded => ?_⟩
    rw [Reads, get_record_ne_panic, iter_records_ne_panic, loaded_record_size hloaded, and_comm]

/-- A compressor that stores. -/
def stored : Zstd where
  encode _ writes := writes.flatten
  decode data := some data

/-- One record in the middle of a volume. -/
def lone : Capture where
  record_size := 1024
  chunks := [(5, NTFS_FILE_MAGIC ++ List.replicate 1020 0)]
  positive := by decide
  whole := by decide +kernel
  numbered := by decide +kernel
  apart := List.pairwise_singleton _ _

/-- A record that tells its size, with this byte at the end. -/
def sample_record (last : UInt8) : List UInt8 :=
  NTFS_FILE_MAGIC ++ List.replicate 24 0 ++ [0, 4, 0, 0] ++ List.replicate 991 0 ++ [last]

/-- The chunks of a volume with four records, the last ones completed first. -/
def shuffled : Capture where
  record_size := 1024
  chunks := [(2, sample_record 3 ++ sample_record 4), (1, sample_record 2), (0, sample_record 1)]
  positive := by decide
  whole := by decide +kernel
  numbered := by decide +kernel
  apart := by decide +kernel

theorem shuffled_dense : shuffled.Dense where
  chunks := by decide
  sizes := by decide +kernel
  size := by decide +kernel
  within := by decide +kernel

/-- The records of the volume, written in pieces that do not end where a record does. -/
def pieces : Records where
  record_size := 1024
  writes := [sample_record 1 ++ (sample_record 2).take 7, (sample_record 2).drop 7, sample_record 3 ++ sample_record 4]
  positive := by decide
  whole := by decide +kernel
  size := by decide +kernel
  signed := by decide +kernel

theorem pieces_recognised : pieces.Recognised where
  long := by decide +kernel
  signature := by decide +kernel
  record_size := by decide +kernel

/-- The capture gives each record back under its number, and the stream without a header is as good as the file. -/
theorem captures_reload_iff_shuffled :
    shuffled.Reloads stored { compress := true } {} ∧ pieces.LoadAlike stored { raw_compat := true } {} := by
  obtain ⟨hcapture, hrecords, -⟩ := @captures_reload_iff stored (fun _ _ => rfl) none
  exact ⟨(hcapture shuffled _).mpr shuffled_dense, (hrecords pieces _).mpr fun _ => pieces_recognised⟩

/-- A header and nothing else. -/
def bare (record_size : UInt32) : List UInt8 :=
  RawMftHeader.to_bytes { version := VERSION, flags := 0, record_size, record_count := 0, original_size := 0
                          compressed_size := 0, volume_letter := .X, reserved_allocated_bytes := 0 }

/-- The record is out of bounds when its number is not below the number of records; records of no size cannot be walked; and
the last number of a record has no place. -/
theorem lone_record_is_lost :
    ((lone.write stored {} >>= fun written => load_raw_mft stored {} written.2) =
      .error (.InvalidData "IOCP chunk at FRS 5 extends beyond MFT bounds: 6144 > 1024")) ∧
    (load_raw_mft stored {} (bare 0) >>= RawMftData.iter_records) = .panic ∧
    (load_raw_mft stored {} (bare 1024) >>= fun loaded => loaded.get_record 0xFFFFFFFFFFFFFFFF) = .panic := by
  decide +kernel

end uffs.mft.raw
