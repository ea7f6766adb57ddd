import Uffs.Compact.Rows

open uffs.mft

namespace uffs.compact

/-! Snapshot diff: two tables of rows joined on the file reference. -/

structure DeltaReport where
  added : List UInt32 := []
  deleted : List UInt32 := []
  modified : List UInt32 := []
deriving DecidableEq

/-- Synthetic rows have no reference and take no part. -/
def is_real (rec : CompactRecord) : Bool := rec.file_ref != 0

/-- Size and last write time of the first row with a reference. -/
def base_meta (baseline : List CompactRecord) (file_ref : UInt64) : Option (UInt64 × Int64) :=
  (baseline.find? fun rec => is_real rec && rec.file_ref == file_ref).map fun rec => (rec.size, rec.modified)

/-- Indices of the rows that meet a test of their index and their content, in ascending order. -/
def rows_where (records : List CompactRecord) (test : Nat → CompactRecord → Bool) : List UInt32 :=
  (records.zipIdx.filter fun entry => test entry.2 entry.1).map fun entry => len_to_u32 entry.2

def diff_records (baseline current : List CompactRecord) : DeltaReport where
  added := rows_where current fun _ rec => is_real rec && (base_meta baseline rec.file_ref).isNone
  modified := rows_where current fun _ rec =>
    is_real rec && (base_meta baseline rec.file_ref).any fun old => old.1 != rec.size || old.2 != rec.modified
  deleted := rows_where baseline fun _ rec =>
    is_real rec && !current.any fun other => is_real other && other.file_ref == rec.file_ref

def diff_indexes (baseline current : DriveCompactIndex) : DeltaReport := diff_records baseline.records current.records

theorem rows_where_congr {records : List CompactRecord} {p q : Nat → CompactRecord → Bool}
    (h : ∀ i row, records[i]? = some row → p i row = q i row) : rows_where records p = rows_where records q := by
  rw [rows_where, rows_where, List.filter_congr fun entry hentry => h _ _ (List.mem_zipIdx_iff_getElem?.mp hentry)]

theorem rows_where_eq_nil_iff {records : List CompactRecord} {p : Nat → CompactRecord → Bool} :
    rows_where records p = [] ↔ ∀ i row, records[i]? = some row → p i row = false := by
  rw [rows_where, List.map_eq_nil_iff, List.filter_eq_nil_iff]
  constructor
  · exact fun h i row hget => by simpa using h (row, i) (List.mem_zipIdx_iff_getElem?.mpr hget)
  · exact fun h entry hentry => by simpa using h entry.2 entry.1 (List.mem_zipIdx_iff_getElem?.mp hentry)

/-- Rows of one file reference agree in what a diff compares. -/
def Uniform (records : List CompactRecord) : Prop :=
  ∀ a ∈ records, ∀ b ∈ records, is_real a = true → a.file_ref = b.file_ref → a.size = b.size ∧ a.modified = b.modified

theorem base_meta_isSome_iff {baseline : List CompactRecord} {file_ref : UInt64} :
    (base_meta baseline file_ref).isSome = true ↔ ∃ row ∈ baseline, is_real row = true ∧ row.file_ref = file_ref := by
  simp [base_meta]

theorem base_meta_of_uniform {baseline : List CompactRecord} (h : Uniform baseline) {row : CompactRecord}
    (hrow : row ∈ baseline) (hreal : is_real row = true) :
    base_meta baseline row.file_ref = some (row.size, row.modified) := by
  cases hfound : baseline.find? fun rec => is_real rec && rec.file_ref == row.file_ref with
  | none => exact absurd (List.find?_eq_none.mp hfound row hrow) (by simp [hreal])
  | some first =>
    have hfirst := List.find?_some hfound
    simp only [Bool.and_eq_true, beq_iff_eq] at hfirst
    obtain ⟨hsize, hmodified⟩ := h first (List.mem_of_find?_eq_some hfound) row hrow hfirst.1 hfirst.2
    rw [base_meta, hfound, Option.map_some, hsize, hmodified]

/-- A table differs from itself exactly where rows of one file disagree. -/
theorem diff_self_eq_empty_iff (records : List CompactRecord) : diff_records records records = {} ↔ Uniform records := by
  have hadded : (diff_records records records).added = [] := by
    rw [diff_records, rows_where_eq_nil_iff]
    intro i row hget
    cases hreal : is_real row with
    | false => rfl
    | true =>
      rw [Bool.true_and, ← Option.not_isSome, Bool.not_eq_false']
      exact base_meta_isSome_iff.mpr ⟨row, List.mem_of_getElem? hget, hreal, rfl⟩
  have hdeleted : (diff_records records records).deleted = [] := by
    rw [diff_records, rows_where_eq_nil_iff]
    intro i row hget
    cases hreal : is_real row with
    | false => rfl
    | true =>
      rw [Bool.true_and, Bool.not_eq_false', List.any_eq_true]
      exact ⟨row, List.mem_of_getElem? hget, by simp [hreal]⟩
  have hmodified : (diff_records records records).modified = [] ↔ Uniform records := by
    rw [diff_records, rows_where_eq_nil_iff]
    constructor
    · intro h a ha b hb hreal href
      have hsame : ∀ row ∈ records, row.file_ref = a.file_ref →
          base_meta records a.file_ref = some (row.size, row.modified) := by
        intro row hrow heq
        obtain ⟨i, hget⟩ := List.getElem?_of_mem hrow
        have hrow_real : is_real row = true := by
          rw [is_real, heq]
          exact hreal
        have hnone := h i row hget
        obtain ⟨old, hold⟩ := Option.isSome_iff_exists.mp (base_meta_isSome_iff.mpr ⟨a, ha, hreal, rfl⟩)
        rw [hrow_real, Bool.true_and, heq, hold, Option.any_some, Bool.or_eq_false_iff, bne_eq_false_iff_eq,
          bne_eq_false_iff_eq] at hnone
        rw [hold, ← hnone.1, ← hnone.2]
      have hboth := (hsame a ha rfl).symm.trans (hsame b hb href.symm)
      exact ⟨congrArg (fun m => m.1) (Option.some.inj hboth), congrArg (fun m => m.2) (Option.some.inj hboth)⟩
    · intro h i row hget
      cases hreal : is_real row with
      | false => rfl
      | true => simp [base_meta_of_uniform h (List.mem_of_getElem? hget) hreal]
  rw [← hmodified]
  constructor
  · intro h
    rw [h]
  · intro h
    cases hreport : diff_records records records with
    | mk added deleted modified =>
      rw [hreport] at hadded hdeleted h
      simp only at hadded hdeleted h
      rw [hadded, hdeleted, h]

/-- Every row of a record that is shown has what its unnamed stream has: the streams beside it are of the same length,
    and a second record of the same reference says the same. -/
def OneContent (index : MftIndex) : Prop :=
  ∀ i a j b, index.records[i]? = some a → PathResolver.is_valid_idx (PathResolver.build index) i = true →
    index.records[j]? = some b → PathResolver.is_valid_idx (PathResolver.build index) j = true →
    pack_file_reference a.frs a.sequence_number ≠ 0 →
    pack_file_reference a.frs a.sequence_number = pack_file_reference b.frs b.sequence_number →
      a.first_stream.size.length = b.first_stream.size.length ∧ a.stdinfo.modified = b.stdinfo.modified ∧
        ∀ stream ∈ row_streams index b, stream_owners index b ≠ [] →
          a.first_stream.size.length = stream.size.length

theorem RowOf.file_ref {index : MftIndex} {record : FileRecord} {row : CompactRecord} (h : RowOf index record row) :
    row.file_ref = pack_file_reference record.frs record.sequence_number ∧ row.modified = record.stdinfo.modified := by
  cases h with
  | name names link _ hrow => exact hrow ▸ ⟨rfl, rfl⟩
  | stream names stream owner _ _ hrow => exact hrow ▸ ⟨rfl, rfl⟩

theorem uniform_expanded_rows_iff (index : MftIndex) : Uniform (expanded_rows index).2 ↔ OneContent index := by
  constructor
  · intro h i a j b hgetA hvalidA hgetB hvalidB hne href
    have hprimary : ∀ idx record, index.records[idx]? = some record →
        PathResolver.is_valid_idx (PathResolver.build index) idx = true →
        name_row index index.names record record.first_name ∈ (expanded_rows index).2 := by
      intro idx record hget hvalid
      have hrow := expanded_rows_primary hget
      rw [if_pos hvalid] at hrow
      exact List.mem_of_getElem? hrow
    have hreal : is_real (name_row index index.names a a.first_name) = true := by simpa [is_real, name_row] using hne
    have hnames := h _ (hprimary i a hgetA hvalidA) _ (hprimary j b hgetB hvalidB) hreal href
    refine ⟨hnames.1, hnames.2, fun stream hstream howners => ?_⟩
    obtain ⟨owner, howner⟩ := List.exists_mem_of_ne_nil _ howners
    obtain ⟨row, hrow, names, rfl⟩ := stream_row_mem hgetB hvalidB hstream howner
    have hmem : stream_row b stream names (stream_name index owner.1 stream) owner.2 ∈ (expanded_rows index).2 :=
      List.mem_append_right _ hrow
    exact (h _ (hprimary i a hgetA hvalidA) _ hmem hreal href).1
  · intro h a ha b hb hreal href
    have hshown : ∀ row ∈ (expanded_rows index).2, is_real row = true →
        ∃ idx record, index.records[idx]? = some record ∧
          PathResolver.is_valid_idx (PathResolver.build index) idx = true ∧ RowOf index record row := by
      intro row hrow hrow_real
      obtain hvalid | ⟨rfl, -⟩ := mem_expanded_rows hrow
      · exact hvalid
      · cases hrow_real
    have hreal_b : is_real b = true := by
      rw [is_real, ← href]
      exact hreal
    obtain ⟨i, ra, hgetA, hvalidA, hrowA⟩ := hshown a ha hreal
    obtain ⟨j, rb, hgetB, hvalidB, hrowB⟩ := hshown b hb hreal_b
    have hneA : pack_file_reference ra.frs ra.sequence_number ≠ 0 := by
      rw [← hrowA.file_ref.1]
      simpa [is_real] using hreal
    have hpack : pack_file_reference ra.frs ra.sequence_number = pack_file_reference rb.frs rb.sequence_number := by
      rw [← hrowA.file_ref.1, ← hrowB.file_ref.1, href]
    have hneB := hpack ▸ hneA
    obtain ⟨hsize, hmodified, -⟩ := h i ra j rb hgetA hvalidA hgetB hvalidB hneA hpack
    refine ⟨?_, by rw [hrowA.file_ref.2, hrowB.file_ref.2, hmodified]⟩
    have hlength : ∀ idx record row, index.records[idx]? = some record →
        PathResolver.is_valid_idx (PathResolver.build index) idx = true →
        pack_file_reference record.frs record.sequence_number ≠ 0 → RowOf index record row →
        row.size = record.first_stream.size.length := by
      intro idx record row hget hvalid hne hrow
      cases hrow with
      | name names link _ hrow => rw [hrow, name_row]
      | stream names stream owner hstream howner hrow =>
        rw [hrow, stream_row]
        exact ((h idx record idx record hget hvalid hget hvalid hne rfl).2.2 stream hstream
          (List.ne_nil_of_mem howner)).symm
    rw [hlength i ra a hgetA hvalidA hneA hrowA, hlength j rb b hgetB hvalidB hneB hrowB, hsize]

end uffs.compact
