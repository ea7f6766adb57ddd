import Uffs.Compact.Builder

open uffs.lib uffs.mft uffs.text uffs.bloom

namespace uffs.compact

/-- Further links of a record that get rows, when they are counted. -/
def extra_links (index : MftIndex) (record : FileRecord) : List LinkInfo :=
  if record.name_count > 1 then index.more_links record else []

/-- The links of a record that get rows: the first name always, the others when counted. -/
def row_links (index : MftIndex) (record : FileRecord) : List LinkInfo :=
  record.first_name :: extra_links index record

/-- Streams of a record that get rows. -/
def row_streams (index : MftIndex) (record : FileRecord) : List IndexStreamInfo :=
  if record.stream_count > 1 then shown_streams index record else []

/-- Invariants the MFT parser keeps: the record map points at the record it names, record
numbers have 48 bits, and names lie inside the blob. -/
structure WellFormed (index : MftIndex) : Prop where
  mapped : ∀ f idx, index.frs_to_idx[f]? = some idx → idx ≠ NO_ENTRY →
    ∃ record, index.records[idx.toNat]? = some record ∧ record.frs.toNat = f
  frs_lt : ∀ record ∈ index.records, record.frs.toNat < 2 ^ 48
  first_names : ∀ record ∈ index.records, record.first_name.name.length ≠ 0 →
    record.first_name.name.offset.toNat + record.first_name.name.length.toNat ≤ index.names.length
  link_names : ∀ link ∈ index.links, link.name.length ≠ 0 →
    link.name.offset.toNat + link.name.length.toNat ≤ index.names.length

variable {index : MftIndex} {record : FileRecord} {row : CompactRecord} {resolver : List PathState}
  {P : CompactRecord → Prop}

/-- The map condition checked entry by entry. -/
theorem mapped_of_zipIdx (h : ∀ entry ∈ index.frs_to_idx.zipIdx, entry.1 ≠ NO_ENTRY →
      index.records[entry.1.toNat]?.map (fun record => record.frs.toNat) = some entry.2) :
    ∀ f idx, index.frs_to_idx[f]? = some idx → idx ≠ NO_ENTRY →
      ∃ record, index.records[idx.toNat]? = some record ∧ record.frs.toNat = f := by
  intro f idx hget hidx
  have hentry : (idx, f) ∈ index.frs_to_idx.zipIdx := List.mem_zipIdx_iff_getElem?.mpr hget
  exact Option.map_eq_some_iff.mp (h (idx, f) hentry hidx)

/-- A row that stems from a name of a valid record. -/
inductive RowOf (index : MftIndex) (record : FileRecord) (row : CompactRecord) : Prop where
  | name (names : List UInt8) (link : LinkInfo) (hlink : link ∈ row_links index record)
      (hrow : row = name_row index names record link)
  | stream (names : List UInt8) (stream : IndexStreamInfo) (owner : Str × UInt32)
      (hstream : stream ∈ row_streams index record) (howner : owner ∈ stream_owners index record)
      (hrow : row = stream_row record stream names (stream_name index owner.1 stream) owner.2)

/-- A row behind the primary ones: a further link or a stream of a valid record. -/
inductive ExtraRow (index : MftIndex) (record : FileRecord) (row : CompactRecord) : Prop where
  | link (names : List UInt8) (link : LinkInfo) (hlink : link ∈ extra_links index record)
      (hrow : row = name_row index names record link)
  | stream (names : List UInt8) (stream : IndexStreamInfo) (owner : Str × UInt32)
      (hstream : stream ∈ row_streams index record) (howner : owner ∈ stream_owners index record)
      (hrow : row = stream_row record stream names (stream_name index owner.1 stream) owner.2)

theorem ExtraRow.rowOf (h : ExtraRow index record row) : RowOf index record row := by
  cases h with
  | link names link hlink hrow => exact RowOf.name names link (List.mem_cons_of_mem _ hlink) hrow
  | stream names stream owner hstream howner hrow => exact RowOf.stream names stream owner hstream howner hrow

theorem mem_walk_chain {α : Type} {table : List α} {next_entry : α → UInt32} {fuel : Nat} {entry : UInt32}
    {item : α} (hmem : item ∈ walk_chain table next_entry fuel entry) : item ∈ table := by
  induction fuel generalizing entry with
  | zero => cases hmem
  | succ fuel ih =>
    rw [walk_chain] at hmem
    split at hmem
    · cases hmem
    · split at hmem
      · cases hmem
      next first hget =>
        cases List.mem_cons.mp hmem with
        | inl h => exact h ▸ List.mem_of_getElem? hget
        | inr h => exact ih h

/-- Expansion states that only grew. -/
def Grown (before after : Expansion) : Prop :=
  (∃ tail, after.1 = before.1 ++ tail) ∧ ∃ rows, after.2 = before.2 ++ rows

theorem Grown.refl (acc : Expansion) : Grown acc acc :=
  ⟨⟨[], (List.append_nil _).symm⟩, [], (List.append_nil _).symm⟩

theorem Grown.trans {a b c : Expansion} (hab : Grown a b) (hbc : Grown b c) : Grown a c := by
  obtain ⟨⟨t, ht⟩, r, hr⟩ := hab
  obtain ⟨⟨t', ht'⟩, r', hr'⟩ := hbc
  exact ⟨⟨t ++ t', by rw [ht', ht, List.append_assoc]⟩, r ++ r', by rw [hr', hr, List.append_assoc]⟩

theorem Grown.mem {before after : Expansion} (h : Grown before after) (hmem : row ∈ before.2) : row ∈ after.2 := by
  obtain ⟨-, rows, hrows⟩ := h
  rw [hrows]
  exact List.mem_append_left rows hmem

theorem grown_foldl {α : Type} {step : Expansion → α → Expansion} (hstep : ∀ acc a, Grown acc (step acc a))
    (list : List α) (acc : Expansion) : Grown acc (list.foldl step acc) :=
  foldl_invariant (Grown.refl acc) fun s a _ hs => hs.trans (hstep s a)

section

variable (index) (record) (acc : Expansion)

theorem grown_push_link (link : LinkInfo) : Grown acc (push_link index record acc link) :=
  ⟨⟨[], (List.append_nil _).symm⟩, _, rfl⟩

theorem grown_push_stream (stream : IndexStreamInfo) (acc : Expansion) (owner : Str × UInt32) :
    Grown acc (push_stream index record stream acc owner) :=
  ⟨⟨_, rfl⟩, _, rfl⟩

theorem grown_expand_record (record : FileRecord) : Grown acc (expand_record index acc record) := by
  have hlinks : Grown acc (if record.name_count > 1 then
      (index.more_links record).foldl (push_link index record) acc else acc) := by
    split
    · exact grown_foldl (grown_push_link index record) _ _
    · exact Grown.refl acc
  unfold expand_record
  dsimp only
  split
  · refine hlinks.trans (grown_foldl (fun acc stream => ?_) _ _)
    exact grown_foldl (grown_push_stream index record stream) _ _
  · exact hlinks

end

/-- A row in the blob: a live row's name lies inside it. -/
def RowFits (names : List UInt8) (row : CompactRecord) : Prop := row.Live → row.InRange names

theorem RowFits.append {names : List UInt8} (h : RowFits names row) (tail : List UInt8) :
    RowFits (names ++ tail) row := fun hlive => (h hlive).append tail

theorem name_row_fits (hwf : WellFormed index) (hrecord : record ∈ index.records) {link : LinkInfo}
    (hlink : link ∈ row_links index record) (names : List UInt8) : RowFits index.names (name_row index names record link) := by
  intro hlive
  have hfirst := hwf.first_names record hrecord
  cases List.mem_cons.mp hlink with
  | inl h => exact h ▸ hfirst (h ▸ hlive)
  | inr h =>
    unfold extra_links at h
    split at h
    · exact hwf.link_names link (mem_walk_chain h) hlive
    · cases h

theorem stream_row_inRange (record : FileRecord) (stream : IndexStreamInfo) (names : List UInt8) (combined : Str)
    (parent_idx : UInt32) : (stream_row record stream names combined parent_idx).InRange (names ++ as_bytes combined) := by
  unfold CompactRecord.InRange stream_row
  dsimp only
  rw [len_to_u16_toNat_eq_min, List.length_append]
  have hstart := len_to_u32_toNat_le names.length
  omega

/-- Rows of the expansion: each stems from a valid record, and fits the blob. -/
structure Described (index : MftIndex) (resolver : List PathState) (acc : Expansion) : Prop where
  grown : Grown (index.names, []) acc
  extra : ∀ row ∈ acc.2, ∃ idx record, index.records[idx]? = some record ∧
    PathResolver.is_valid_idx resolver idx = true ∧ ExtraRow index record row
  fits : WellFormed index → ∀ row ∈ acc.2, RowFits acc.1 row

variable {idx : Nat}

theorem Described.push {acc : Expansion} (h : Described index resolver acc) (tail : List UInt8)
    (hget : index.records[idx]? = some record) (hvalid : PathResolver.is_valid_idx resolver idx = true)
    (hrow : ExtraRow index record row) (hfits : WellFormed index → RowFits (acc.1 ++ tail) row) :
    Described index resolver (acc.1 ++ tail, acc.2 ++ [row]) := by
  refine ⟨h.grown.trans ⟨⟨tail, rfl⟩, [row], rfl⟩, fun r hr => ?_, fun hwf r hr => ?_⟩
  · cases List.mem_append.mp hr with
    | inl hr => exact h.extra r hr
    | inr hr => exact List.mem_singleton.mp hr ▸ ⟨idx, record, hget, hvalid, hrow⟩
  · cases List.mem_append.mp hr with
    | inl hr => exact (h.fits hwf r hr).append tail
    | inr hr => exact List.mem_singleton.mp hr ▸ hfits hwf

theorem Described.expand_record {acc : Expansion} (h : Described index resolver acc)
    (hget : index.records[idx]? = some record) (hvalid : PathResolver.is_valid_idx resolver idx = true) :
    Described index resolver (compact.expand_record index acc record) := by
  have hlinks : Described index resolver (if record.name_count > 1 then
      (index.more_links record).foldl (push_link index record) acc else acc) := by
    split
    next hcount =>
      refine foldl_invariant h fun s link hlink hs => ?_
      have hextra : link ∈ extra_links index record := by rwa [extra_links, if_pos hcount]
      have hpush := hs.push [] hget hvalid (ExtraRow.link s.1 link hextra rfl) fun hwf => by
        rw [List.append_nil]
        obtain ⟨⟨t, ht⟩, -⟩ := hs.grown
        have hrowLink : link ∈ row_links index record := List.mem_cons_of_mem _ hextra
        exact ht ▸ (name_row_fits hwf (List.mem_of_getElem? hget) hrowLink s.1).append t
      rw [List.append_nil] at hpush
      exact hpush
    next => exact h
  unfold compact.expand_record
  dsimp only
  split
  next hcount =>
    refine foldl_invariant hlinks fun s stream hstream hs => ?_
    refine foldl_invariant hs fun t owner howner ht => ?_
    have hrowStream : stream ∈ row_streams index record := by
      rw [row_streams, if_pos hcount]
      exact hstream
    exact ht.push _ hget hvalid (ExtraRow.stream t.1 stream owner hrowStream howner rfl) fun _ _ =>
      stream_row_inRange record stream t.1 _ owner.2
  next => exact hlinks

theorem expand_described (index : MftIndex) (resolver : List PathState) :
    Described index resolver (expand_links_and_ads index resolver) := by
  unfold expand_links_and_ads
  refine foldl_invariant ⟨Grown.refl _, fun row hrow => absurd hrow List.not_mem_nil,
    fun _ row hrow => absurd hrow List.not_mem_nil⟩ ?_
  intro acc entry hentry hacc
  split
  next hvalid =>
    have hget : index.records[entry.2]? = some entry.1 := List.mem_zipIdx_iff_getElem?.mp hentry
    exact hacc.expand_record hget hvalid
  next => exact hacc

/-- Some row of the expansion so far has the property. -/
def HasRow (P : CompactRecord → Prop) (acc : Expansion) : Prop := ∃ row ∈ acc.2, P row

theorem HasRow.grown {before after : Expansion} (h : HasRow P before) (hgrown : Grown before after) : HasRow P after := by
  obtain ⟨row, hrow, hP⟩ := h
  exact ⟨row, hgrown.mem hrow, hP⟩

theorem hasRow_push {acc : Expansion} {names : List UInt8} (hP : P row) : HasRow P (names, acc.2 ++ [row]) :=
  ⟨row, List.mem_append_right acc.2 (List.mem_singleton.mpr rfl), hP⟩

/-- A row that the expansion of one valid record produces, from any state, is in the result. -/
theorem hasRow_expand (hget : index.records[idx]? = some record)
    (hvalid : PathResolver.is_valid_idx resolver idx = true) (hrow : ∀ acc, HasRow P (expand_record index acc record)) :
    HasRow P (expand_links_and_ads index resolver) := by
  have hentry : (record, idx) ∈ index.records.zipIdx := List.mem_zipIdx_iff_getElem?.mpr hget
  unfold expand_links_and_ads
  refine foldl_reaches (motive := HasRow P) hentry (fun acc => ?_) fun acc entry h => ?_
  · rw [if_pos hvalid]
    exact hrow acc
  · split
    · exact h.grown (grown_expand_record index acc entry.1)
    · exact h

/-- Every further link of a valid record gets a row. -/
theorem link_row_mem (hget : index.records[idx]? = some record)
    (hvalid : PathResolver.is_valid_idx resolver idx = true) {link : LinkInfo} (hlink : link ∈ extra_links index record) :
    HasRow (fun row => ∃ names, row = name_row index names record link) (expand_links_and_ads index resolver) := by
  obtain ⟨hcount, hlink⟩ : record.name_count > 1 ∧ link ∈ index.more_links record := by
    unfold extra_links at hlink
    split at hlink
    next hcount => exact ⟨hcount, hlink⟩
    next => cases hlink
  refine hasRow_expand hget hvalid fun acc => ?_
  have hlinks : HasRow (fun row => ∃ names, row = name_row index names record link)
      ((index.more_links record).foldl (push_link index record) acc) :=
    foldl_reaches (motive := HasRow fun row => ∃ names, row = name_row index names record link) hlink
      (fun s => hasRow_push ⟨s.1, rfl⟩) fun s other h => h.grown (grown_push_link index record s other)
  rw [expand_record, if_pos hcount]
  split
  · refine hlinks.grown (grown_foldl (fun s stream => ?_) _ _)
    exact grown_foldl (grown_push_stream index record stream) _ _
  · exact hlinks

/-- Every shown stream of a valid record gets a row for each of its names. -/
theorem stream_row_mem (hget : index.records[idx]? = some record)
    (hvalid : PathResolver.is_valid_idx resolver idx = true) {stream : IndexStreamInfo}
    (hstream : stream ∈ row_streams index record) {owner : Str × UInt32} (howner : owner ∈ stream_owners index record) :
    HasRow (fun row => ∃ names, row = stream_row record stream names (stream_name index owner.1 stream) owner.2)
      (expand_links_and_ads index resolver) := by
  refine hasRow_expand hget hvalid fun acc => ?_
  unfold row_streams at hstream
  split at hstream
  next hcount =>
    rw [expand_record, if_pos hcount, expand_ads_streams]
    refine foldl_reaches (motive := HasRow fun row => ∃ names,
      row = stream_row record stream names (stream_name index owner.1 stream) owner.2) hstream
      (fun s => ?_) fun s other h => h.grown (grown_foldl (grown_push_stream index record other) _ _)
    exact foldl_reaches (motive := HasRow fun row => ∃ names,
      row = stream_row record stream names (stream_name index owner.1 stream) owner.2) howner
      (fun t => hasRow_push ⟨t.1, rfl⟩) fun t other h => h.grown (grown_push_stream index record stream t other)
  next => cases hstream

theorem stream_row_live (record : FileRecord) (stream : IndexStreamInfo) (names : List UInt8) (index : MftIndex)
    (base_name : Str) (parent_idx : UInt32) :
    (stream_row record stream names (stream_name index base_name stream) parent_idx).Live := by
  apply len_to_u16_ne_zero
  rw [Ne, List.length_eq_zero_iff, as_bytes_eq_nil]
  simp [stream_name]

/-- Slots of the expanded rows: the primary rows first, then the extra ones. -/
theorem expanded_rows_primary {index : MftIndex} {record : FileRecord} (hget : index.records[idx]? = some record) :
    (expanded_rows index).2[idx]? = some (if PathResolver.is_valid_idx (PathResolver.build index) idx = true
      then name_row index index.names record record.first_name else {}) := by
  have hlt : idx < index.records.length := (List.getElem?_eq_some_iff.mp hget).1
  unfold expanded_rows primary_rows
  rw [List.getElem?_append_left (by simpa using hlt), List.getElem?_map, List.getElem?_zipIdx, hget]
  simp

theorem mem_expanded_rows (hmem : row ∈ (expanded_rows index).2) :
    (∃ idx record, index.records[idx]? = some record ∧
      PathResolver.is_valid_idx (PathResolver.build index) idx = true ∧ RowOf index record row) ∨
    (row = {} ∧ ∃ idx record, index.records[idx]? = some record ∧
      PathResolver.is_valid_idx (PathResolver.build index) idx = false) := by
  cases List.mem_append.mp hmem with
  | inl h =>
    obtain ⟨entry, hentry, rfl⟩ := List.mem_map.mp h
    have hget : index.records[entry.2]? = some entry.1 := List.mem_zipIdx_iff_getElem?.mp hentry
    split
    next hvalid =>
      refine Or.inl ⟨entry.2, entry.1, hget, hvalid, RowOf.name index.names entry.1.first_name ?_ rfl⟩
      exact List.mem_cons_self
    next hinvalid => exact Or.inr ⟨rfl, entry.2, entry.1, hget, by simpa using hinvalid⟩
  | inr h =>
    obtain ⟨idx, record, hget, hvalid, hextra⟩ := (expand_described index _).extra row h
    exact Or.inl ⟨idx, record, hget, hvalid, hextra.rowOf⟩

theorem expanded_rows_fits (hwf : WellFormed index) :
    ∀ row ∈ (expanded_rows index).2, RowFits (expanded_rows index).1 row := by
  intro row hmem
  have hextra := expand_described index (PathResolver.build index)
  obtain ⟨⟨tail, htail⟩, -⟩ := hextra.grown
  unfold expanded_rows at hmem ⊢
  cases List.mem_append.mp hmem with
  | inl h =>
    obtain ⟨entry, hentry, rfl⟩ := List.mem_map.mp h
    have hget : index.records[entry.2]? = some entry.1 := List.mem_zipIdx_iff_getElem?.mp hentry
    split
    next hvalid =>
      rw [htail]
      refine (name_row_fits hwf (List.mem_of_getElem? hget) ?_ index.names).append tail
      exact List.mem_cons_self
    next => exact fun hlive => absurd rfl hlive
  | inr h => exact hextra.fits hwf row h

theorem resolve_parent_in_range (hwf : WellFormed index) (parent_frs own_frs : UInt64) :
    resolve_parent_compact_idx index parent_frs own_frs = NO_ENTRY ∨
      (resolve_parent_compact_idx index parent_frs own_frs).toNat < index.records.length := by
  unfold resolve_parent_compact_idx
  split
  · exact Or.inl rfl
  · split
    · exact Or.inl rfl
    next idx hget =>
      by_cases hidx : idx = NO_ENTRY
      · exact Or.inl hidx
      · obtain ⟨record, hrecord, -⟩ := hwf.mapped _ idx hget hidx
        exact Or.inr (List.getElem?_eq_some_iff.mp hrecord).1

theorem expanded_rows_length (index : MftIndex) : index.records.length ≤ (expanded_rows index).2.length := by
  unfold expanded_rows primary_rows
  simp

theorem RowOf.parent_in_range (hwf : WellFormed index) (hrow : RowOf index record row) :
    row.parent_idx = NO_ENTRY ∨ row.parent_idx.toNat < index.records.length := by
  cases hrow with
  | name names link _ heq => exact heq ▸ resolve_parent_in_range hwf link.parent_frs record.frs
  | stream names stream owner _ howner heq =>
    obtain ⟨link, -, rfl⟩ := List.mem_map.mp howner
    exact heq ▸ resolve_parent_in_range hwf link.parent_frs record.frs

/-- A hasher, a sizing rule and ASCII lowercasing to run the model with. -/
def sample_env : Env where
  fx_hash seed key := key.foldl (fun h b => ((h <<< 5) ||| (h >>> 59) ^^^ b.toUInt64) * 0x517cc1b727220a95) seed
  bloom_sizing n := (UInt64.ofNat (n * 9586 / 1000 + 1), 7)
  to_lowercase := List.map Char.toLower

/-- A drive without records. -/
def bare_drive : DriveCompactIndex where
  letter := 'C'
  records := []
  names := []
  trigram := trigram.TrigramIndex.empty
  children := { offsets := [0], values := [] }
  ext_index := { offsets := [0], values := [] }
  fold := ⟨[]⟩
  ext_names := [[]]
  source_epoch := 0
  bloom := none
  path_trie := none
  frs_to_compact := []
  delta := none

/-- The index of a sample volume. -/
abbrev sample_index (index : MftIndex) : DriveCompactIndex := build_compact_index sample_env 'C' ⟨[]⟩ index

/-- A volume without records that has seen some extensions. -/
def ext_mft (names : List Str) : MftIndex where
  extension_names := names

theorem ext_mft_wellFormed (names : List Str) : WellFormed (ext_mft names) :=
  ⟨fun _ _ h => absurd h (by simp [ext_mft]), fun _ h => absurd h List.not_mem_nil,
    fun _ h => absurd h List.not_mem_nil, fun _ h => absurd h List.not_mem_nil⟩

/-- A volume with nothing but its root directory. -/
def root_mft : MftIndex where
  records := [{ frs := 5, first_name := { name := { offset := 0, bits := 1 }, parent_frs := 5 } }]
  frs_to_idx := [NO_ENTRY, NO_ENTRY, NO_ENTRY, NO_ENTRY, NO_ENTRY, 0]
  names := as_bytes ['.']

/-- The root directory and the `$MFT` metafile, record number 0. -/
def metafile_mft : MftIndex where
  records := [
    { frs := 0, first_name := { name := { offset := 1, bits := 4 }, parent_frs := 5 } },
    { frs := 5, first_name := { name := { offset := 0, bits := 1 }, parent_frs := 5 } }]
  frs_to_idx := [0, NO_ENTRY, NO_ENTRY, NO_ENTRY, NO_ENTRY, 1]
  names := as_bytes ['.', '$', 'M', 'F', 'T']

/-- A volume with a directory `a` and a directory `b` in it. -/
def dirs_mft : MftIndex where
  records := [
    { frs := 16, stdinfo := { flags := DIRECTORY_BIT }
      first_name := { name := { offset := 0, bits := 1 }, parent_frs := 5 } },
    { frs := 17, stdinfo := { flags := DIRECTORY_BIT }
      first_name := { name := { offset := 1, bits := 1 }, parent_frs := 16 } }]
  frs_to_idx := List.replicate 16 NO_ENTRY ++ [0, 1]
  names := as_bytes ['a', 'b']

theorem root_mft_wellFormed : WellFormed root_mft :=
  ⟨mapped_of_zipIdx (by decide), by decide, by decide, by decide⟩

theorem metafile_mft_wellFormed : WellFormed metafile_mft :=
  ⟨mapped_of_zipIdx (by decide), by decide, by decide, by decide⟩

theorem dirs_mft_wellFormed : WellFormed dirs_mft :=
  ⟨mapped_of_zipIdx (by decide), by decide, by decide, by decide⟩

end uffs.compact
