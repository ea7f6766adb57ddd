import Uffs.Mft.Metafile

open uffs.lib uffs.lib.bytes uffs.lib.overflow uffs.text

namespace uffs.mft.metafile

/-! What the parts of the readers do: names as units, entries of an attribute list, the bytes of runs. -/

section names

theorem utf16_units_cast (units : List UInt16) : utf16_units (cast_slice u16 units) = units := by
  induction units with
  | nil => rfl
  | cons unit rest ih =>
    have hlt := unit.toNat_lt_size
    have hunit : UInt16.ofNat ((UInt8.ofNat unit.toNat).toNat + 256 * (UInt8.ofNat (unit.toNat / 256)).toNat) = unit := by
      apply UInt16.toNat_inj.mp
      simp only [UInt8.toNat_ofNat', UInt16.toNat_ofNat', UInt16.size] at hlt ⊢
      omega
    have hcons : cast_slice u16 (unit :: rest) =
        UInt8.ofNat unit.toNat :: UInt8.ofNat (unit.toNat / 256) :: cast_slice u16 rest := rfl
    rw [hcons, utf16_units, ih, hunit]

end names

section lists

theorem At.rd {α : Type} {pod : Pod α} {zero value : α} {data : List UInt8} {offset : Nat} (h : At data offset (pod.to_bytes value)) :
    rd pod zero data offset = value := by
  have hslice := h.slice
  rw [pod.length_to_bytes] at hslice
  rw [mft.rd, hslice, Option.map_some, Option.getD_some, pod.from_to_bytes]

/-- An entry of an `$ATTRIBUTE_LIST`: an attribute's type and name, its first VCN, and the record that holds it. -/
structure ListEntry where
  type_code : UInt32
  name : List UInt16
  lowest_vcn : Int64
  file_reference : UInt64
  id : UInt16

namespace ListEntry

/-- The fixed part of an entry, in which its length and the offset of its name stand too. -/
def fixed_part (entry : ListEntry) (length : UInt16) (name_offset : UInt8) : List UInt8 :=
  u32.to_bytes entry.type_code ++ (u16.to_bytes length ++ (u8.to_bytes (UInt8.ofNat entry.name.length) ++ (u8.to_bytes name_offset ++
    (i64.to_bytes entry.lowest_vcn ++ (u64.to_bytes entry.file_reference ++ u16.to_bytes entry.id)))))

def frs (entry : ListEntry) : UInt64 := file_reference_to_frs entry.file_reference

/-- The entry is for a `$DATA` whose name is shown as the text. -/
def Shows (stream_name : Str) (entry : ListEntry) : Prop := entry.type_code = DATA_TYPE ∧ (decode_units entry.name).1 = stream_name

instance (stream_name : Str) : DecidablePred (Shows stream_name) := fun _ => inferInstanceAs (Decidable (_ ∧ _))

end ListEntry

/-- The entries that stand in a list from a position on. -/
inductive Listed (list : List UInt8) : Nat → List ListEntry → Prop
  | nil {pos : Nat} : list.length < pos + MIN_ENTRY → Listed list pos []
  | cons {pos : Nat} {entry : ListEntry} {rest : List ListEntry} (length : UInt16) (name_offset : UInt8) :
      MIN_ENTRY ≤ length.toNat → entry.name.length < 256 → At list pos (entry.fixed_part length name_offset) →
      At list (pos + name_offset.toNat) (cast_slice u16 entry.name) → Listed list (pos + length.toNat) rest →
      Listed list pos (entry :: rest)

/-- The records that a list names for a stream, each once. -/
def visited (stream_name : Str) (entries : List ListEntry) : List UInt64 :=
  distinct ((entries.filter (ListEntry.Shows stream_name)).map ListEntry.frs)

theorem list_data_frs_eq {list : List UInt8} {stream_name : Str} {pos : Nat} {entries : List ListEntry} (h : Listed list pos entries)
    {fuel : Nat} (hfuel : list.length ≤ fuel + pos) (out : List UInt64) :
    list_data_frs list stream_name fuel pos out =
      ((entries.filter (ListEntry.Shows stream_name)).map ListEntry.frs).foldl
        (fun out frs => if frs ∈ out then out else out ++ [frs]) out := by
  induction h generalizing fuel out with
  | nil hend =>
    cases fuel with
    | zero => rfl
    | succ fuel => rw [list_data_frs, if_neg (by omega)]; rfl
  | @cons pos entry rest length name_offset hlength hname hfixed hbytes _ ih =>
    have hroom := hfixed.le_length
    have hwidth : (entry.fixed_part length name_offset).length = MIN_ENTRY := rfl
    rw [hwidth] at hroom
    have htype : rd_u32 list pos = entry.type_code := At.rd hfixed.left
    have hlen : rd_u16 list (pos + 4) = length := At.rd hfixed.right.left
    have hunits : rd_u8 list (pos + 6) = UInt8.ofNat entry.name.length := At.rd hfixed.right.right.left
    have hoff : rd_u8 list (pos + 7) = name_offset := At.rd hfixed.right.right.right.left
    have href : rd_u64 list (pos + 0x10) = entry.file_reference := At.rd hfixed.right.right.right.right.right.left
    have hcount : (UInt8.ofNat entry.name.length).toNat = entry.name.length := UInt8.toNat_ofNat_of_lt hname
    have htext : slice? list (pos + name_offset.toNat) (pos + name_offset.toNat + entry.name.length * 2) =
        some (cast_slice u16 entry.name) := by
      have hslice := hbytes.slice
      rwa [length_cast_slice] at hslice
    cases fuel with
    | zero =>
      have hpos : 0 < MIN_ENTRY := by decide
      omega
    | succ fuel =>
      rw [list_data_frs, if_pos hroom]
      simp only [htype, hlen, hunits, hoff, href, hcount, htext, Option.map_some, Option.getD_some, decode_utf16le, utf16_units_cast]
      rw [if_neg (by omega), ih (by unfold MIN_ENTRY at hlength; omega)]
      by_cases hshows : entry.Shows stream_name
      · rw [List.filter_cons_of_pos (by simpa using hshows), List.map_cons, List.foldl_cons]
        congr 1
        by_cases hmem : entry.frs ∈ out
        · rw [if_neg (fun hnew => hnew.2 hmem), if_pos hmem]
        · rw [if_pos ⟨hshows, hmem⟩, if_neg hmem]
          rfl
      · rw [List.filter_cons_of_neg (by simpa using hshows), if_neg fun hnew => hshows hnew.1]

theorem attribute_list_data_frs_eq {list : List UInt8} {entries : List ListEntry} (h : Listed list 0 entries) (stream_name : Str) :
    attribute_list_data_frs list stream_name = visited stream_name entries :=
  list_data_frs_eq h (Nat.le_add_right _ _) []

end lists

section runs

variable {vol : Volume}

def run_bytes (vol : Volume) (run : DataRun) : Nat := run.cluster_count.toNat * vol.bytes_per_cluster

/-- The bytes that runs stand for, zeros for a sparse one. -/
def stored_bytes (vol : Volume) (runs : List DataRun) : List UInt8 :=
  runs.flatMap fun run =>
    if run.is_sparse then List.replicate (run_bytes vol run) 0
    else read_handle_at vol (run.lcn.toInt * vol.bytes_per_cluster).toNat (run_bytes vol run)

theorem length_read_handle_at (vol : Volume) (offset length : Nat) : (read_handle_at vol offset length).length = length := by
  simp [read_handle_at]

/-- The runs behind what is done are filled in, one after the other. -/
theorem fill_runs_eq {capacity : Nat} (runs : List DataRun) (done : List UInt8)
    (hfit : done.length + (runs.map (run_bytes vol)).sum < 2 ^ 64)
    (hposition : ∀ run ∈ runs, in_i64 (run.lcn.toInt * vol.bytes_per_cluster) = true) :
    fill_runs vol capacity runs done.length (done ++ List.replicate (runs.map (run_bytes vol)).sum 0) =
      .ok (done ++ stored_bytes vol runs) := by
  induction runs generalizing done with
  | nil => simp [fill_runs, stored_bytes]
  | cons run rest ih =>
    rw [List.map_cons, List.sum_cons] at hfit
    have hnext : saturating_add_usize done.length (run_bytes vol run) = done.length + run_bytes vol run := by
      rw [saturating_add_usize]
      omega
    have hrest := fun block (hblock : block.length = run_bytes vol run) =>
      ih (done ++ block) (by rw [List.length_append, hblock]; omega) fun other hmem => hposition other (List.mem_cons_of_mem _ hmem)
    rw [fill_runs, ← run_bytes, Checked.fits_eq (by omega), Checked.ok_bind, hnext, List.map_cons, List.sum_cons,
      List.replicate_add, ← List.append_assoc, stored_bytes, List.flatMap_cons, ← stored_bytes]
    by_cases hsparse : run.is_sparse = true
    · have h := hrest (List.replicate (run_bytes vol run) 0) List.length_replicate
      rw [List.length_append, List.length_replicate] at h
      rw [if_pos hsparse, if_pos hsparse, h, List.append_assoc]
    · have h := hrest (read_handle_at vol (run.lcn.toInt * vol.bytes_per_cluster).toNat (run_bytes vol run)) (length_read_handle_at _ _ _)
      rw [List.length_append, length_read_handle_at] at h
      have hroom : done.length + run_bytes vol run ≤
          (done ++ List.replicate (run_bytes vol run) 0 ++ List.replicate (rest.map (run_bytes vol)).sum (0 : UInt8)).length := by
        simp only [List.length_append, List.length_replicate]
        omega
      have hwrite : overwrite (done ++ List.replicate (run_bytes vol run) 0 ++ List.replicate (rest.map (run_bytes vol)).sum 0) done.length
          (read_handle_at vol (run.lcn.toInt * vol.bytes_per_cluster).toNat (run_bytes vol run)) =
          done ++ read_handle_at vol (run.lcn.toInt * vol.bytes_per_cluster).toNat (run_bytes vol run) ++
            List.replicate (rest.map (run_bytes vol)).sum 0 := by
        rw [overwrite, length_read_handle_at, List.drop_left' (by rw [List.length_append, List.length_replicate]),
          List.append_assoc done (List.replicate _ 0), List.take_left]
      rw [if_neg hsparse, if_neg hsparse]
      simp only [hposition run List.mem_cons_self, if_true, Checked.ok_bind]
      rw [Checked.fits_eq (by omega), Checked.ok_bind, if_neg (Nat.not_lt.mpr hroom), hwrite, h, List.append_assoc]

/-- Runs that lie on the volume are read as the bytes they stand for. -/
theorem read_runs_eq {runs : List DataRun} {data_size : Nat} (hfit : (runs.map (run_bytes vol)).sum < 2 ^ 64)
    (hposition : ∀ run ∈ runs, in_i64 (run.lcn.toInt * vol.bytes_per_cluster) = true)
    (hsize : data_size ≤ (runs.map (run_bytes vol)).sum) :
    read_runs vol runs data_size = .ok ((stored_bytes vol runs).take data_size) := by
  have htotal : ∀ (runs : List DataRun) (total : Nat), total + (runs.map (run_bytes vol)).sum < 2 ^ 64 →
      runs.foldlM (fun total run => do
        let run_bytes ← Checked.fits 64 (run.cluster_count.toNat * vol.bytes_per_cluster)
        Checked.fits 64 (total + run_bytes)) total = (Checked.ok (total + (runs.map (run_bytes vol)).sum) : Checked MetafileError Nat) := by
    intro runs
    induction runs with
    | nil => exact fun total _ => rfl
    | cons run rest ih =>
      intro total hsum
      rw [List.map_cons, List.sum_cons, ← Nat.add_assoc] at hsum ⊢
      rw [List.foldlM_cons, ← run_bytes, Checked.fits_eq (by omega), Checked.ok_bind, Checked.fits_eq (by omega), Checked.ok_bind,
        ih _ hsum]
  have hfill := @fill_runs_eq vol (max (runs.map (run_bytes vol)).sum data_size) runs [] (by simpa using hfit) hposition
  rw [List.nil_append, List.nil_append, List.length_nil] at hfill
  rw [Nat.max_eq_left hsize] at hfill
  rw [read_runs, htotal runs 0 (by omega), Checked.ok_bind]
  dsimp only
  rw [Nat.zero_add, Nat.max_eq_left hsize, hfill, Checked.ok_bind, Nat.min_eq_left hsize]
  rfl

end runs

end uffs.mft.metafile
