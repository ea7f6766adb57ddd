import Uffs.Search.ExtFilter
import Uffs.Search.RowFilter

open uffs.mft uffs.text uffs.bloom uffs.compact uffs.usn

namespace uffs.search

/-- The tests of a candidate from the extension table. -/
def ext_candidate_passes (rec : CompactRecord) (names : List UInt8) (filters : SearchFilters) (filter_mode : FilterMode) :
    Bool :=
  rec.name_len != 0 && !(filter_mode == .FilesOnly && rec.is_directory) &&
    !(filters.hide_system && is_system_metafile rec names) && !(filters.hide_ads && decide (':' ∈ rec.name names))

/-- The slots of the extension table that pass, extension by extension. -/
def scan_ext_fast_path (drive : DriveCompactIndex) (filters : SearchFilters) (filter_mode : FilterMode) : List UInt32 :=
  filters.resolved_ext_ids.flatMap fun ext_id => (drive.records_with_ext ext_id).filter fun rec_idx =>
    drive.records[rec_idx.toNat]?.any fun rec => ext_candidate_passes rec drive.names filters filter_mode

def full_scan_record_passes (env : Env) (rec : CompactRecord) (drive : DriveCompactIndex) (filters : SearchFilters)
    (filter_mode : FilterMode) (has_filters : Bool) : Bool :=
  rec.name_len != 0 &&
    (!has_filters || (passes_filter_mode rec.is_directory filter_mode &&
      filters.matches_record env rec drive.names drive.fold))

/-- The slots of all records that pass. -/
def scan_full_records (env : Env) (drive : DriveCompactIndex) (filters : SearchFilters) (filter_mode : FilterMode)
    (has_filters : Bool) : List UInt32 :=
  ((List.range drive.records.length).filter fun rec_idx =>
    drive.records[rec_idx]?.any fun rec =>
      full_scan_record_passes env rec drive filters filter_mode has_filters).map len_to_u32

/-- Some filter or mode is set, so that the scan has to look at the records. -/
def has_filters (filters : SearchFilters) (filter_mode : FilterMode) : Bool :=
  !filters.is_empty || filter_mode != .All

/-- The slots one drive hands to the sort. With only extensions to test, and none of them on the
drive, there is nothing to scan. -/
def scan_drive_candidates (env : Env) (drive : DriveCompactIndex) (filters : SearchFilters) (filter_mode : FilterMode)
    (has_filters : Bool) : List UInt32 :=
  let ext_fast_path := filters.is_ext_only && filter_mode != .DirsOnly
  if ext_fast_path && !filters.resolved_ext_ids.isEmpty then scan_ext_fast_path drive filters filter_mode
  else if ext_fast_path && !filters.extensions.isEmpty then []
  else scan_full_records env drive filters filter_mode has_filters

/-- The slots of one drive that the extension variants of the two path collectors keep: the same
candidates, and of these the ones whose name is text. -/
def path_ext_slots (drive : DriveCompactIndex) (filters : SearchFilters) (filter_mode : FilterMode) : List UInt32 :=
  (scan_ext_fast_path drive filters filter_mode).filter fun rec_idx =>
    drive.records[rec_idx.toNat]?.any fun rec => !(rec.name drive.names).isEmpty

def collect_path_via_ext_index (drive : DriveCompactIndex) (filters : SearchFilters) (filter_mode : FilterMode) :
    List UInt32 := path_ext_slots drive filters filter_mode

def collect_path_only_via_ext_index (drive : DriveCompactIndex) (filters : SearchFilters) (filter_mode : FilterMode) :
    List UInt32 := path_ext_slots drive filters filter_mode

theorem resolve_ext_ids_for_drive_frame (filters : SearchFilters) (env : Env) (drive : DriveCompactIndex) :
    ∃ ids, filters.resolve_ext_ids_for_drive env drive = { filters with resolved_ext_ids := ids } := by
  unfold SearchFilters.resolve_ext_ids_for_drive
  split
  · exact ⟨[], rfl⟩
  · exact ⟨_, rfl⟩

/-- The two toggles that a filter on extensions leaves open. -/
def toggles_accept (filters : SearchFilters) (rec : CompactRecord) (names : List UInt8) : Bool :=
  (filters.deleted.all fun want_deleted => (rec.flags &&& DELETED_TOMBSTONE_FLAG != 0) == want_deleted) &&
    filters.malformed.all fun want => (from_utf8 (rec.name_bytes names)).isNone == want

variable {filters : SearchFilters}

theorem extensions_of_ext_only (hext : filters.is_ext_only = true) : filters.extensions.isEmpty = false := by
  simp only [SearchFilters.is_ext_only, Bool.and_eq_true, Bool.not_eq_true'] at hext
  tauto

/-- What is left of the record test when only extensions are asked for. -/
theorem matches_record_of_ext_only (hext : filters.is_ext_only = true) (env : Env) (rec : CompactRecord) (names : List UInt8)
    (fold : CaseFold) :
    filters.matches_record env rec names fold =
      (!(filters.hide_system && is_system_metafile rec names) && !(filters.hide_ads && decide (':' ∈ rec.name names)) &&
        toggles_accept filters rec names && filters.matches_extension env rec names) := by
  simp only [SearchFilters.is_ext_only, Bool.and_eq_true, Option.isNone_iff_eq_none, List.isEmpty_iff, beq_iff_eq] at hext
  unfold SearchFilters.matches_record SearchFilters.matches_derived toggles_accept
  simp only [at_least, at_most, older_than, hext, Option.all_none, Bool.and_true, bne_self_eq_false, Bool.false_and,
    Bool.not_false, List.isEmpty_nil, Bool.true_or, Bool.true_and]
  ac_rfl

theorem mem_scan_full_records {env : Env} {drive : DriveCompactIndex} (hrecords : drive.records.length < UInt32.size)
    {filter_mode : FilterMode} {has_filters : Bool} {c : UInt32} :
    c ∈ scan_full_records env drive filters filter_mode has_filters ↔
      ∃ rec, drive.records[c.toNat]? = some rec ∧
        full_scan_record_passes env rec drive filters filter_mode has_filters = true := by
  simp only [scan_full_records, List.mem_map, List.mem_filter, List.mem_range, Option.any_eq_true]
  constructor
  · rintro ⟨i, ⟨hi, rec, hget, hpasses⟩, rfl⟩
    rw [len_to_u32_toNat (by omega)]
    exact ⟨rec, hget, hpasses⟩
  · rintro ⟨rec, hget, hpasses⟩
    exact ⟨c.toNat, ⟨(List.getElem?_eq_some_iff.mp hget).1, rec, hget, hpasses⟩, len_to_u32_of_toNat c⟩

section reachable

variable {env : Env} {letter : Char} {fold : CaseFold} {index : MftIndex} (hwf : WellFormed index)
  {drive : DriveCompactIndex} (hreach : Reachable env (build_compact_index env letter fold index) Roomy drive)

include hwf hreach

theorem mem_scan_ext_fast_path {filters : SearchFilters} {filter_mode : FilterMode} {c : UInt32} :
    c ∈ scan_ext_fast_path drive filters filter_mode ↔
      ∃ rec, drive.records[c.toNat]? = some rec ∧ rec.extension_id ∈ filters.resolved_ext_ids ∧
        ext_candidate_passes rec drive.names filters filter_mode = true := by
  obtain ⟨-, base, base_names, hinv⟩ := hreach.overlayInv hwf fun _ h => h
  have hexact := fun e => (records_with_ext_exact hinv hreach.ok e).mem c
  simp only [scan_ext_fast_path, List.mem_flatMap, List.mem_filter, Option.any_eq_true]
  constructor
  · rintro ⟨id, hid, hmem, rec, hget, hpasses⟩
    obtain ⟨rec', hget', -, rfl⟩ := (hexact id).mp hmem
    cases hget.symm.trans hget'
    exact ⟨rec, hget, hid, hpasses⟩
  · rintro ⟨rec, hget, hid, hpasses⟩
    have hlive : rec.Live := by
      unfold ext_candidate_passes at hpasses
      simp only [Bool.and_eq_true, bne_iff_ne] at hpasses
      exact hpasses.1.1.1
    exact ⟨rec.extension_id, hid, (hexact _).mpr ⟨rec, hget, hlive, rfl⟩, rec, hget, hpasses⟩

theorem mem_path_ext_slots {filters : SearchFilters} {filter_mode : FilterMode} {c : UInt32} :
    c ∈ path_ext_slots drive filters filter_mode ↔
      ∃ rec, drive.records[c.toNat]? = some rec ∧ rec.extension_id ∈ filters.resolved_ext_ids ∧
        ext_candidate_passes rec drive.names filters filter_mode = true ∧ rec.name drive.names ≠ [] := by
  simp only [path_ext_slots, List.mem_filter, mem_scan_ext_fast_path hwf hreach, Option.any_eq_true, Bool.not_eq_true',
    List.isEmpty_eq_false_iff]
  constructor
  · rintro ⟨⟨rec, hget, hid, hpasses⟩, rec', hget', hname⟩
    cases hget.symm.trans hget'
    exact ⟨rec, hget, hid, hpasses, hname⟩
  · rintro ⟨rec, hget, hid, hpasses, hname⟩
    exact ⟨⟨rec, hget, hid, hpasses⟩, rec, hget, hname⟩

/-- With only extensions to test, the candidates are those of the extension table. -/
theorem mem_scan_drive_candidates {filters : SearchFilters} (hext : filters.is_ext_only = true) {filter_mode : FilterMode}
    (hmode : filter_mode ≠ .DirsOnly) {has_filters : Bool} {c : UInt32} :
    c ∈ scan_drive_candidates env drive filters filter_mode has_filters ↔
      ∃ rec, drive.records[c.toNat]? = some rec ∧ rec.extension_id ∈ filters.resolved_ext_ids ∧
        ext_candidate_passes rec drive.names filters filter_mode = true := by
  have hbeq : (filter_mode != .DirsOnly) = true := by simpa using hmode
  have hne := extensions_of_ext_only hext
  unfold scan_drive_candidates
  by_cases hids : filters.resolved_ext_ids = []
  · simp [hext, hbeq, hids, hne]
  · simp [hext, hbeq, hids, mem_scan_ext_fast_path hwf hreach]

end reachable

/-- In the modes the fast path serves, the full scan tests what it tests, the toggles, and the extension. -/
theorem full_scan_of_ext_only {env : Env} {drive : DriveCompactIndex} (hext : filters.is_ext_only = true)
    {filter_mode : FilterMode} (hmode : filter_mode ≠ .DirsOnly) (rec : CompactRecord) :
    full_scan_record_passes env rec drive filters filter_mode (has_filters filters filter_mode) =
      (ext_candidate_passes rec drive.names filters filter_mode && toggles_accept filters rec drive.names &&
        filters.matches_extension env rec drive.names) := by
  have hsome : has_filters filters filter_mode = true := by
    have hne := extensions_of_ext_only hext
    simp [has_filters, SearchFilters.is_empty, hne]
  have hpasses : passes_filter_mode rec.is_directory filter_mode = !(filter_mode == .FilesOnly && rec.is_directory) := by
    cases filter_mode with
    | All => rfl
    | FilesOnly => rfl
    | DirsOnly => exact absurd rfl hmode
  rw [full_scan_record_passes, hsome, hpasses, matches_record_of_ext_only hext, ext_candidate_passes, Bool.not_true,
    Bool.false_or]
  ac_rfl

/-- Two selections of slots by their records agree if they agree record by record. -/
theorem slots_agree_iff {records : List CompactRecord} (hrecords : records.length < UInt32.size) {P Q : CompactRecord → Prop} :
    (∀ c : UInt32, (∃ rec, records[c.toNat]? = some rec ∧ P rec) ↔ ∃ rec, records[c.toNat]? = some rec ∧ Q rec) ↔
      ∀ rec ∈ records, (P rec ↔ Q rec) := by
  constructor
  · intro h rec hmem
    obtain ⟨i, hget⟩ := List.getElem?_of_mem hmem
    have hi := (List.getElem?_eq_some_iff.mp hget).1
    have hslot := h (len_to_u32 i)
    rw [len_to_u32_toNat (by omega), hget] at hslot
    simpa using hslot
  · intro h c
    constructor
    · rintro ⟨rec, hget, hP⟩
      exact ⟨rec, hget, (h rec (List.mem_of_getElem? hget)).mp hP⟩
    · rintro ⟨rec, hget, hQ⟩
      exact ⟨rec, hget, (h rec (List.mem_of_getElem? hget)).mpr hQ⟩

/-- The extension table is as good as the scan: what it lists passes the toggles and has a name that
is text, and where it lists nothing, no name has one of the extensions either. -/
structure ExtExact (env : Env) (drive : DriveCompactIndex) (filters : SearchFilters) (filter_mode : FilterMode) : Prop where
  listed : ∀ rec ∈ drive.records, rec.extension_id ∈ filters.resolved_ext_ids →
    ext_candidate_passes rec drive.names filters filter_mode = true →
      toggles_accept filters rec drive.names = true ∧ rec.name drive.names ≠ []
  unlisted : filters.resolved_ext_ids = [] → ∀ rec ∈ drive.records,
    ext_candidate_passes rec drive.names filters filter_mode = true → toggles_accept filters rec drive.names = true →
      filters.name_has_extension env (rec.name drive.names) = false

theorem matches_extension_eq (hext : filters.is_ext_only = true) (env : Env) (rec : CompactRecord) (names : List UInt8) :
    filters.matches_extension env rec names =
      if filters.resolved_ext_ids = [] then filters.name_has_extension env (rec.name names)
      else decide (rec.extension_id ∈ filters.resolved_ext_ids) := by
  have hne := extensions_of_ext_only hext
  unfold SearchFilters.matches_extension
  by_cases hids : filters.resolved_ext_ids = []
  · simp [hids, hne]
  · simp [hids]

/-- The three fast paths select what the full scan selects. The path collectors use theirs in two of
the modes; the scan falls back to the full one in the third. -/
def ExtScansAgree (env : Env) (drive : DriveCompactIndex) (filters : SearchFilters) (filter_mode : FilterMode) : Prop :=
  let resolved := filters.resolve_ext_ids_for_drive env drive
  let full := scan_full_records env drive resolved filter_mode (has_filters filters filter_mode)
  (∀ c, c ∈ scan_drive_candidates env drive resolved filter_mode (has_filters filters filter_mode) ↔ c ∈ full) ∧
    (filter_mode ≠ .DirsOnly → ∀ c, (c ∈ collect_path_via_ext_index drive resolved filter_mode ↔ c ∈ full) ∧
      (c ∈ collect_path_only_via_ext_index drive resolved filter_mode ↔ c ∈ full))

/-- With only extensions to test, the extension table and the full scan select the same records
exactly if the table is as good as the scan. -/
theorem ext_scans_agree_iff {env : Env} {letter : Char} {fold : CaseFold} {index : MftIndex} (hwf : WellFormed index)
    {drive : DriveCompactIndex} (hreach : Reachable env (build_compact_index env letter fold index) Roomy drive)
    {filters : SearchFilters} (hext : filters.is_ext_only = true) (filter_mode : FilterMode) :
    ExtScansAgree env drive filters filter_mode ↔
      (filter_mode ≠ .DirsOnly → ExtExact env drive (filters.resolve_ext_ids_for_drive env drive) filter_mode) := by
  unfold ExtScansAgree
  dsimp only
  obtain ⟨ids, hframe⟩ := resolve_ext_ids_for_drive_frame filters env drive
  have hsome : has_filters filters filter_mode = has_filters (filters.resolve_ext_ids_for_drive env drive) filter_mode := by
    rw [hframe]
    simp [has_filters, SearchFilters.is_empty]
  have honly : (filters.resolve_ext_ids_for_drive env drive).is_ext_only = true := by
    rw [hframe]
    exact hext
  rw [hsome]
  generalize filters.resolve_ext_ids_for_drive env drive = resolved at *
  by_cases hmode : filter_mode = .DirsOnly
  · subst hmode
    simp [scan_drive_candidates]
  have hfull : ∀ c, c ∈ scan_full_records env drive resolved filter_mode (has_filters resolved filter_mode) ↔
      ∃ rec, drive.records[c.toNat]? = some rec ∧
        (ext_candidate_passes rec drive.names resolved filter_mode && toggles_accept resolved rec drive.names &&
          resolved.matches_extension env rec drive.names) = true := by
    intro c
    simp only [mem_scan_full_records hreach.ok.lt_size, full_scan_of_ext_only honly hmode]
  have hfast := fun c => @mem_scan_drive_candidates env letter fold index hwf drive hreach resolved honly filter_mode hmode
    (has_filters resolved filter_mode) c
  have hpath := fun c => @mem_path_ext_slots env letter fold index hwf drive hreach resolved filter_mode c
  simp only [collect_path_via_ext_index, collect_path_only_via_ext_index, hfull, hfast, hpath, and_self,
    slots_agree_iff hreach.ok.lt_size]
  have hrow : ∀ rec : CompactRecord,
      (((rec.extension_id ∈ resolved.resolved_ext_ids ∧ ext_candidate_passes rec drive.names resolved filter_mode = true) ↔
          (ext_candidate_passes rec drive.names resolved filter_mode && toggles_accept resolved rec drive.names &&
            resolved.matches_extension env rec drive.names) = true) ∧
        ((rec.extension_id ∈ resolved.resolved_ext_ids ∧ ext_candidate_passes rec drive.names resolved filter_mode = true ∧
            rec.name drive.names ≠ []) ↔
          (ext_candidate_passes rec drive.names resolved filter_mode && toggles_accept resolved rec drive.names &&
            resolved.matches_extension env rec drive.names) = true)) ↔
        (rec.extension_id ∈ resolved.resolved_ext_ids → ext_candidate_passes rec drive.names resolved filter_mode = true →
            toggles_accept resolved rec drive.names = true ∧ rec.name drive.names ≠ []) ∧
          (resolved.resolved_ext_ids = [] → ext_candidate_passes rec drive.names resolved filter_mode = true →
            toggles_accept resolved rec drive.names = true → resolved.name_has_extension env (rec.name drive.names) = false) := by
    intro rec
    rw [matches_extension_eq honly]
    by_cases hids : resolved.resolved_ext_ids = []
    · simp only [hids, if_true, List.not_mem_nil, false_and, Bool.and_eq_true, false_iff, forall_const, true_and,
        IsEmpty.forall_iff, ← Bool.not_eq_true]
      tauto
    · simp only [hids, if_false, Bool.and_eq_true, decide_eq_true_eq, IsEmpty.forall_iff, and_true]
      tauto
  constructor
  · rintro ⟨hnumeric, hothers⟩ _
    have hboth := fun rec hmem => (hrow rec).mp ⟨hnumeric rec hmem, hothers hmode rec hmem⟩
    exact ⟨fun rec hmem => (hboth rec hmem).1, fun hids rec hmem => (hboth rec hmem).2 hids⟩
  · intro h
    have hexact := h hmode
    have hboth := fun rec hmem => (hrow rec).mpr ⟨hexact.listed rec hmem, fun hids => hexact.unlisted hids rec hmem⟩
    exact ⟨fun rec hmem => (hboth rec hmem).1, fun _ rec hmem => (hboth rec hmem).2⟩

/-- Archives, well-formed or not. -/
def zip_filters (malformed : Option Bool) : SearchFilters := { extensions := [['z', 'i', 'p']], malformed := malformed }

/-- The index of a volume with one archive. -/
def zip_drive : DriveCompactIndex :=
  build_compact_index sample_env 'C' sample_fold (file_mft 0x10005 ['a', '.', 'z', 'i', 'p'])

theorem zip_mft_wellFormed : WellFormed (file_mft 0x10005 ['a', '.', 'z', 'i', 'p']) :=
  ⟨mapped_of_zipIdx (by decide), by decide, by decide, by decide⟩

theorem zip_drive_reachable : Reachable sample_env
    (build_compact_index sample_env 'C' sample_fold (file_mft 0x10005 ['a', '.', 'z', 'i', 'p'])) Roomy zip_drive :=
  Reachable.start (roomy_build (by decide) _ _ _)

theorem zip_drive_ids (malformed : Option Bool) :
    ((zip_filters malformed).resolve_ext_ids_for_drive sample_env zip_drive).resolved_ext_ids = [1] := by
  have hnames : zip_drive.ext_names = [[], ['z', 'i', 'p']] := rfl
  have hids : zip_drive.resolve_ext_ids sample_env [['z', 'i', 'p']] = [1] := by
    unfold DriveCompactIndex.resolve_ext_ids
    rw [hnames]
    decide +kernel
  exact hids

/-- The only row of the index. -/
def zip_row : CompactRecord :=
  { name_len := 5, extension_id := 1, parent_idx := NO_ENTRY, file_ref := 16, name_first_byte := 0x61 }

theorem zip_drive_row {rec : CompactRecord} (hmem : rec ∈ zip_drive.records) : rec.core = zip_row := by
  have hrows : zip_drive.records.map CompactRecord.core = [zip_row] := by decide
  have hrec : rec.core ∈ zip_drive.records.map CompactRecord.core := List.mem_map_of_mem hmem
  rw [hrows] at hrec
  exact List.mem_singleton.mp hrec

theorem zip_drive_names : zip_drive.names = as_bytes ['a', '.', 'z', 'i', 'p'] := rfl

theorem zip_drive_name {rec : CompactRecord} (hmem : rec ∈ zip_drive.records) :
    rec.name_bytes zip_drive.names = as_bytes ['a', '.', 'z', 'i', 'p'] ∧ rec.name zip_drive.names = ['a', '.', 'z', 'i', 'p'] := by
  have hrow := zip_drive_row hmem
  have hbytes : rec.name_bytes zip_drive.names = as_bytes ['a', '.', 'z', 'i', 'p'] := by
    have hcore : zip_row.core = zip_row := rfl
    rw [CompactRecord.name_bytes, name_range_of_core (hrow.trans hcore.symm), zip_drive_names]
    decide
  exact ⟨hbytes, by rw [CompactRecord.name, hbytes, from_utf8_as_bytes, Option.getD_some]⟩

theorem ext_scans_agree_iff_zip : ExtScansAgree sample_env zip_drive (zip_filters none) .All := by
  apply (ext_scans_agree_iff zip_mft_wellFormed zip_drive_reachable (by decide) .All).mpr
  intro _
  constructor
  · intro rec hmem _ _
    refine ⟨?_, by simp [(zip_drive_name hmem).2]⟩
    obtain ⟨ids, hframe⟩ := resolve_ext_ids_for_drive_frame (zip_filters none) sample_env zip_drive
    rw [hframe]
    simp [toggles_accept, zip_filters]
  · intro hnone
    rw [zip_drive_ids] at hnone
    cases hnone

theorem zip_drive_slot : ∃ rec, zip_drive.records[(0 : UInt32).toNat]? = some rec := by
  have hlen : zip_drive.records.length = 1 := by decide
  exact ⟨_, List.getElem?_eq_getElem (show 0 < zip_drive.records.length by omega)⟩

/-- The archive's name is text. -/
theorem zip_rejected {rec : CompactRecord} (hmem : rec ∈ zip_drive.records) (ids : List UInt16) :
    toggles_accept { zip_filters (some true) with resolved_ext_ids := ids } rec zip_drive.names = false := by
  rw [toggles_accept, (zip_drive_name hmem).1, from_utf8_as_bytes]
  simp [zip_filters]

/-- The extension table lists the archive all the same. -/
theorem zip_listed : (0 : UInt32) ∈
    scan_ext_fast_path zip_drive { zip_filters (some true) with resolved_ext_ids := [1] } .All := by
  obtain ⟨rec, hget⟩ := zip_drive_slot
  have hrow := zip_drive_row (List.mem_of_getElem? hget)
  have hid : rec.extension_id = 1 := extension_id_of_core (hrow.trans (show zip_row = zip_row.core from rfl))
  have hlen : rec.name_len = 5 := name_len_of_core (hrow.trans (show zip_row = zip_row.core from rfl))
  apply (mem_scan_ext_fast_path zip_mft_wellFormed zip_drive_reachable).mpr
  refine ⟨rec, hget, by simp [hid], ?_⟩
  simp [ext_candidate_passes, hlen, zip_filters]

/-- Ill-formed names are asked for: the extension table hands out a well-formed one. -/
theorem ext_scan_ignores_malformed :
    (zip_filters (some true)).is_ext_only = true ∧ ¬ ExtScansAgree sample_env zip_drive (zip_filters (some true)) .All := by
  refine ⟨by decide, ?_⟩
  intro hagree
  obtain ⟨ids, hframe⟩ := resolve_ext_ids_for_drive_frame (zip_filters (some true)) sample_env zip_drive
  have hids := zip_drive_ids (some true)
  rw [hframe] at hids
  have hscan := (hagree.1 0).mp
  rw [hframe, show ids = [1] from hids] at hscan
  obtain ⟨rec, hget, hpasses⟩ := (mem_scan_full_records zip_drive_reachable.ok.lt_size).mp (hscan zip_listed)
  have honly : ({ zip_filters (some true) with resolved_ext_ids := [1] } : SearchFilters).is_ext_only = true := by decide
  have hsome : has_filters (zip_filters (some true)) .All =
      has_filters { zip_filters (some true) with resolved_ext_ids := [1] } .All := by decide
  rw [hsome, full_scan_of_ext_only honly (by decide), zip_rejected (List.mem_of_getElem? hget)] at hpasses
  simp at hpasses

end uffs.search
