import Uffs.Search.Walks

open uffs.lib uffs.mft uffs.text uffs.bloom uffs.compact uffs.usn

namespace uffs.search

/-- The columns a result can be sorted by. -/
inductive FieldId where
  | Path | PathOnly | Size | SizeOnDisk | Created | Modified | Accessed | Drive | Descendants | TreeAllocated
  | Bulkiness | Name | Extension | Type | Attributes | AttributeValue | Hidden | System | Archive | ReadOnly
  | Compressed | Encrypted | Sparse | Reparse | Offline | NotIndexed | Temporary | Virtual | Pinned | Unpinned
  | TreeSize | Integrity | NoScrub | DirectoryFlag | RecallOnOpen | RecallOnDataAccess | ParityAttributes
  | NameLength | PathLength | Malformed | MalformedPath | NameHex
  deriving DecidableEq

/-- A row of the result: the position of its drive and its slot there. -/
abbrev Hit := Nat × UInt32

/-- The rows of the slots of one drive. -/
def hits_of (drive_idx : Nat) (slots : List UInt32) : List Hit := slots.map (drive_idx, ·)

/-- Drives by letter. -/
def drive_order (drives : List DriveCompactIndex) (sort_desc : Bool) : List (DriveCompactIndex × Nat) :=
  drives.zipIdx.mergeSort fun a b => if sort_desc then b.1.letter ≤ a.1.letter else a.1.letter ≤ b.1.letter

/-- Walk drive after drive. -/
def walk_drives (walk : DriveCompactIndex → Option (List UInt32)) (order : List (DriveCompactIndex × Nat)) :
    Option (List Hit) :=
  (order.mapM fun entry => (walk entry.1).map (hits_of entry.2)).map List.flatten

/-- The extension table serves a filter on extensions alone, unless only directories are asked for. -/
def ext_fast_path (filters : SearchFilters) (filter_mode : FilterMode) : Bool :=
  filters.is_ext_only && filter_mode != .DirsOnly

section collect

variable (env : Env) (categories : List (Str × List Str)) (fold : CaseFold) (render : Render)

/-- Collect from each drive what `slots` selects there, with the extensions resolved for the drive. -/
def collect_resolved (slots : DriveCompactIndex → SearchFilters → List UInt32) (drives : List DriveCompactIndex)
    (filters : SearchFilters) : List Hit :=
  drives.zipIdx.flatMap fun entry => hits_of entry.2 (slots entry.1 (filters.resolve_ext_ids_for_drive env entry.1))

def collect_path_sorted_top_n (fuel : Nat) (drives : List DriveCompactIndex) (sort_desc : Bool) (filter_mode : FilterMode)
    (filters : SearchFilters) : Option (List Hit) :=
  if ext_fast_path filters filter_mode then
    some (collect_resolved env (fun drive resolved => collect_path_via_ext_index drive resolved filter_mode) drives filters)
  else walk_drives (fun drive => walk_tree_path_sorted env categories fold render fuel drive sort_desc filter_mode filters)
    (drive_order drives sort_desc)

def collect_path_only_sorted_top_n (fuel : Nat) (drives : List DriveCompactIndex) (sort_desc : Bool)
    (filter_mode : FilterMode) (filters : SearchFilters) : Option (List Hit) :=
  if ext_fast_path filters filter_mode then
    some (collect_resolved env (fun drive resolved => collect_path_only_via_ext_index drive resolved filter_mode) drives filters)
  else walk_drives (fun drive =>
      if sort_desc then walk_drive_desc env categories fold render fuel drive filter_mode filters
      else walk_drive_asc env categories fold render fuel drive filter_mode filters)
    (drive_order drives sort_desc)

def collect_global_top_n_numeric (drives : List DriveCompactIndex) (filter_mode : FilterMode) (filters : SearchFilters) :
    List Hit :=
  collect_resolved env
    (fun drive resolved => scan_drive_candidates env drive resolved filter_mode (has_filters filters filter_mode)) drives filters

/-- The rows of an unlimited match-all query, before they are sorted by a column that no walk sorts by. -/
def collect_global_top_n (fuel : Nat) (drives : List DriveCompactIndex) (sort_column : FieldId) (sort_desc : Bool)
    (filter_mode : FilterMode) (filters : SearchFilters) : Option (List Hit) :=
  match sort_column with
  | .Path => collect_path_sorted_top_n env categories fold render fuel drives sort_desc filter_mode filters
  | .PathOnly => collect_path_only_sorted_top_n env categories fold render fuel drives sort_desc filter_mode filters
  | _ => some (collect_global_top_n_numeric env drives filter_mode filters)

/-- The row of a slot passes the filters. -/
def row_accepted (drive : DriveCompactIndex) (filters : SearchFilters) (idx : UInt32) : Bool :=
  drive.records[idx.toNat]?.any fun rec =>
    row_passes_filters env categories (build_row drive idx rec render) filters fold

def apply_search_filters (drives : List DriveCompactIndex) (rows : List Hit) (filters : SearchFilters) : List Hit :=
  rows.filter fun hit => drives[hit.1]?.any fun drive => row_accepted env categories fold render drive filters hit.2

def dispatch_match_all (fuel : Nat) (drives : List DriveCompactIndex) (sort_column : FieldId) (sort_desc : Bool)
    (filter_mode : FilterMode) (filters : SearchFilters) : Option (List Hit) :=
  (collect_global_top_n env categories fold render fuel drives sort_column sort_desc filter_mode filters).map fun rows =>
    if filters.needs_display_row_filter then apply_search_filters env categories fold render drives rows filters else rows

end collect

/-- The index of a volume, some patches after it was built. -/
def Served (env : Env) (drive : DriveCompactIndex) : Prop :=
  ∃ letter fold index, WellFormed index ∧ Reachable env (build_compact_index env letter fold index) Roomy drive

theorem Served.overlay {env : Env} {drive : DriveCompactIndex} (h : Served env drive) :
    ∃ base base_names, OverlayInv drive base base_names ∧ Roomy drive := by
  obtain ⟨letter, table, index, hwf, hreach⟩ := h
  obtain ⟨-, base, base_names, hinv⟩ := hreach.overlayInv hwf fun _ h => h
  exact ⟨base, base_names, hinv, hreach.ok⟩

theorem Served.lt_size {env : Env} {drive : DriveCompactIndex} (h : Served env drive) : drive.records.length < UInt32.size := by
  obtain ⟨letter, table, index, -, hreach⟩ := h
  exact hreach.ok.lt_size

/-- A served drive on which no climb to the root is cut off. -/
structure Shown (env : Env) (drive : DriveCompactIndex) : Prop where
  served : Served env drive
  shallow : Shallow drive

theorem mem_hits_of {drive_idx : Nat} {slots : List UInt32} {hit : Hit} :
    hit ∈ hits_of drive_idx slots ↔ hit.1 = drive_idx ∧ hit.2 ∈ slots := by
  unfold hits_of
  rw [List.mem_map]
  constructor
  · rintro ⟨idx, hmem, rfl⟩
    exact ⟨rfl, hmem⟩
  · rintro ⟨rfl, hmem⟩
    exact ⟨hit.2, hmem, rfl⟩

variable {drives : List DriveCompactIndex}

theorem mem_collect_resolved {env : Env} {slots : DriveCompactIndex → SearchFilters → List UInt32} {filters : SearchFilters} {hit : Hit} :
    hit ∈ collect_resolved env slots drives filters ↔
      ∃ drive, drives[hit.1]? = some drive ∧ hit.2 ∈ slots drive (filters.resolve_ext_ids_for_drive env drive) := by
  simp only [collect_resolved, List.mem_flatMap, mem_hits_of, Prod.exists, List.mem_zipIdx_iff_getElem?]
  constructor
  · rintro ⟨drive, i, hget, rfl, hmem⟩
    exact ⟨drive, hget, hmem⟩
  · rintro ⟨drive, hget, hmem⟩
    exact ⟨drive, hit.1, hget, rfl, hmem⟩

/-- Where every drive is walked to its end, the rows are those of the walks. -/
theorem walk_drives_spec {walk : DriveCompactIndex → Option (List UInt32)} {Q : DriveCompactIndex → UInt32 → Prop}
    {order : List (DriveCompactIndex × Nat)}
    (hwalk : ∀ entry ∈ order, ∃ slots, walk entry.1 = some slots ∧ ∀ c, c ∈ slots ↔ Q entry.1 c) :
    ∃ rows, walk_drives walk order = some rows ∧
      ∀ hit : Hit, hit ∈ rows ↔ ∃ entry ∈ order, hit.1 = entry.2 ∧ Q entry.1 hit.2 := by
  induction order with
  | nil => exact ⟨[], rfl, by simp⟩
  | cons entry order ih =>
    obtain ⟨slots, hslots, hmem⟩ := hwalk entry List.mem_cons_self
    obtain ⟨rows, hrows, hiff⟩ := ih fun other hother => hwalk other (List.mem_cons_of_mem _ hother)
    unfold walk_drives at hrows ⊢
    obtain ⟨rest, hrest, rfl⟩ := Option.map_eq_some_iff.mp hrows
    refine ⟨hits_of entry.2 slots ++ rest.flatten, by simp [List.mapM_cons, hslots, hrest], fun hit => ?_⟩
    rw [List.mem_append, mem_hits_of, hmem, hiff]
    simp

theorem mem_drive_order {sort_desc : Bool} {entry : DriveCompactIndex × Nat} :
    entry ∈ drive_order drives sort_desc ↔ drives[entry.2]? = some entry.1 := by
  rw [drive_order, List.mem_mergeSort, List.mem_zipIdx_iff_getElem?]

/-- Enough fuel for each drive is enough for all of them. -/
theorem enough_for_all {P : Nat → DriveCompactIndex → Prop}
    (h : ∀ drive ∈ drives, ∃ enough, ∀ fuel, enough ≤ fuel → P fuel drive) :
    ∃ enough, ∀ fuel, enough ≤ fuel → ∀ drive ∈ drives, P fuel drive := by
  induction drives with
  | nil => exact ⟨0, fun _ _ => by simp⟩
  | cons drive drives ih =>
    obtain ⟨first, hfirst⟩ := h drive List.mem_cons_self
    obtain ⟨rest, hrest⟩ := ih fun other hother => h other (List.mem_cons_of_mem _ hother)
    refine ⟨max first rest, fun fuel hle other hother => ?_⟩
    cases List.mem_cons.mp hother with
    | inl heq => exact heq ▸ hfirst fuel (Nat.le_trans (Nat.le_max_left _ _) hle)
    | inr hother => exact hrest fuel (Nat.le_trans (Nat.le_max_right _ _) hle) other hother

section selects

variable (env : Env) (categories : List (Str × List Str)) (fold : CaseFold) (render : Render)
  (filter_mode : FilterMode) (filters : SearchFilters)

/-- The slots of a drive that a column's collector hands out. -/
def Collected (sort_column : FieldId) (drive : DriveCompactIndex) (idx : UInt32) : Prop :=
  let resolved := filters.resolve_ext_ids_for_drive env drive
  let emitted := emit_if_passes env categories fold render drive filter_mode filters idx = true
  match sort_column with
  | .Path =>
    if ext_fast_path filters filter_mode then idx ∈ collect_path_via_ext_index drive resolved filter_mode
    else Descends drive (is_named drive) idx ∧ emitted
  | .PathOnly =>
    if ext_fast_path filters filter_mode then idx ∈ collect_path_only_via_ext_index drive resolved filter_mode
    else Descends drive (is_dir drive) idx ∧ emitted
  | _ => idx ∈ scan_drive_candidates env drive resolved filter_mode (has_filters filters filter_mode)

/-- The slots that are left when the row filters are applied to what was collected. -/
def Selected (sort_column : FieldId) (drive : DriveCompactIndex) (idx : UInt32) : Prop :=
  Collected env categories fold render filter_mode filters sort_column drive idx ∧
    (filters.needs_display_row_filter = true → row_accepted env categories fold render drive filters idx = true)

variable (hserved : ∀ drive ∈ drives, Served env drive)

include hserved

theorem walk_drives_enough (walk : Nat → DriveCompactIndex → Option (List UInt32)) (Q : DriveCompactIndex → UInt32 → Prop)
    (sort_desc : Bool)
    (hwalk : ∀ drive base base_names, OverlayInv drive base base_names → Roomy drive →
      ∃ enough, ∀ fuel, enough ≤ fuel → ∃ slots, walk fuel drive = some slots ∧ ∀ c, c ∈ slots ↔ Q drive c) :
    ∃ enough, ∀ fuel, enough ≤ fuel → ∃ rows, walk_drives (walk fuel) (drive_order drives sort_desc) = some rows ∧
      ∀ hit : Hit, hit ∈ rows ↔ ∃ drive, drives[hit.1]? = some drive ∧ Q drive hit.2 := by
  have hone : ∀ drive ∈ drives, ∃ enough, ∀ fuel, enough ≤ fuel →
      ∃ slots, walk fuel drive = some slots ∧ ∀ c, c ∈ slots ↔ Q drive c := by
    intro drive hmem
    obtain ⟨base, base_names, hinv, hroomy⟩ := (hserved drive hmem).overlay
    exact hwalk drive base base_names hinv hroomy
  obtain ⟨enough, hall⟩ := enough_for_all hone
  refine ⟨enough, fun fuel hle => ?_⟩
  have hentries : ∀ entry ∈ drive_order drives sort_desc,
      ∃ slots, walk fuel entry.1 = some slots ∧ ∀ c, c ∈ slots ↔ Q entry.1 c := fun entry hentry =>
    hall fuel hle entry.1 (List.mem_of_getElem? (mem_drive_order.mp hentry))
  obtain ⟨rows, hrows, hiff⟩ := walk_drives_spec hentries
  refine ⟨rows, hrows, fun hit => ?_⟩
  rw [hiff]
  constructor
  · rintro ⟨entry, hentry, heq, hq⟩
    exact ⟨entry.1, heq ▸ mem_drive_order.mp hentry, hq⟩
  · rintro ⟨drive, hget, hq⟩
    exact ⟨(drive, hit.1), mem_drive_order.mpr hget, rfl, hq⟩

theorem collect_global_top_n_spec (sort_column : FieldId) (sort_desc : Bool) :
    ∃ enough, ∀ fuel, enough ≤ fuel → ∃ rows,
      collect_global_top_n env categories fold render fuel drives sort_column sort_desc filter_mode filters = some rows ∧
      ∀ hit : Hit, hit ∈ rows ↔ ∃ drive, drives[hit.1]? = some drive ∧
        Collected env categories fold render filter_mode filters sort_column drive hit.2 := by
  cases sort_column
  case Path =>
    simp only [collect_global_top_n, collect_path_sorted_top_n, Collected]
    split
    · exact ⟨0, fun _ _ => ⟨_, rfl, fun _ => mem_collect_resolved⟩⟩
    · apply walk_drives_enough env hserved
        (fun fuel drive => walk_tree_path_sorted env categories fold render fuel drive sort_desc filter_mode filters)
        (fun drive c => Descends drive (is_named drive) c ∧
          emit_if_passes env categories fold render drive filter_mode filters c = true)
      intro drive base base_names hinv hroomy
      exact walk_tree_path_sorted_spec hinv hroomy env categories fold render filter_mode filters sort_desc
  case PathOnly =>
    simp only [collect_global_top_n, collect_path_only_sorted_top_n, Collected]
    split
    · exact ⟨0, fun _ _ => ⟨_, rfl, fun _ => mem_collect_resolved⟩⟩
    · apply walk_drives_enough env hserved
        (fun fuel drive => if sort_desc then walk_drive_desc env categories fold render fuel drive filter_mode filters
          else walk_drive_asc env categories fold render fuel drive filter_mode filters)
        (fun drive c => Descends drive (is_dir drive) c ∧
          emit_if_passes env categories fold render drive filter_mode filters c = true)
      intro drive base base_names hinv hroomy
      cases sort_desc with
      | true => exact walk_drive_desc_spec hinv hroomy env categories fold render filter_mode filters
      | false => exact walk_drive_asc_spec hinv hroomy env categories fold render filter_mode filters
  all_goals exact ⟨0, fun _ _ => ⟨_, rfl, fun _ => mem_collect_resolved⟩⟩

/-- A query ends, and its rows are the selected slots of the drives. -/
theorem dispatch_match_all_spec (sort_column : FieldId) (sort_desc : Bool) :
    ∃ enough, ∀ fuel, enough ≤ fuel → ∃ rows,
      dispatch_match_all env categories fold render fuel drives sort_column sort_desc filter_mode filters = some rows ∧
      ∀ hit : Hit, hit ∈ rows ↔ ∃ drive, drives[hit.1]? = some drive ∧
        Selected env categories fold render filter_mode filters sort_column drive hit.2 := by
  obtain ⟨enough, hcollect⟩ := collect_global_top_n_spec env categories fold render filter_mode filters hserved sort_column
    sort_desc
  refine ⟨enough, fun fuel hle => ?_⟩
  obtain ⟨rows, hrows, hiff⟩ := hcollect fuel hle
  refine ⟨_, by rw [dispatch_match_all, hrows, Option.map_some], fun hit => ?_⟩
  unfold Selected
  cases hneeds : filters.needs_display_row_filter with
  | false => simp [hiff]
  | true =>
    rw [if_pos rfl, apply_search_filters, List.mem_filter, hiff, Option.any_eq_true]
    constructor
    · rintro ⟨⟨drive, hget, hcollected⟩, drive', hget', haccepted⟩
      cases hget.symm.trans hget'
      exact ⟨drive, hget, hcollected, fun _ => haccepted⟩
    · rintro ⟨drive, hget, hcollected, haccepted⟩
      exact ⟨⟨drive, hget, hcollected⟩, drive, hget, haccepted rfl⟩

end selects

section independent

variable (env : Env) (categories : List (Str × List Str)) (fold : CaseFold) (render : Render)
  (filter_mode : FilterMode) (filters : SearchFilters)

/-- The rows of a match-all query are the same, by whatever column and in whatever direction they are
sorted. -/
def SortIndependent (drives : List DriveCompactIndex) : Prop :=
  ∃ hits : Set Hit, ∀ sort_column sort_desc, ∃ enough, ∀ fuel, enough ≤ fuel → ∃ rows,
    dispatch_match_all env categories fold render fuel drives sort_column sort_desc filter_mode filters = some rows ∧
    ∀ hit, hit ∈ rows ↔ hit ∈ hits

/-- The three routes meet on a drive. With only extensions to test, every candidate of the extension
table has a name that is text. Otherwise the records that pass the scan are named, pass as rows, and
hang below a root through named directories; and what a walk comes to and passes as a row, passes
the scan. -/
structure RoutesMeet (drive : DriveCompactIndex) : Prop where
  listed : ext_fast_path filters filter_mode = true → ∀ rec ∈ drive.records,
    rec.extension_id ∈ (filters.resolve_ext_ids_for_drive env drive).resolved_ext_ids →
      ext_candidate_passes rec drive.names filters filter_mode = true → rec.name drive.names ≠ []
  scanned : ext_fast_path filters filter_mode = false → ∀ (idx : UInt32) (rec : CompactRecord),
    drive.records[idx.toNat]? = some rec →
      full_scan_record_passes env rec drive (filters.resolve_ext_ids_for_drive env drive) filter_mode
        (has_filters filters filter_mode) = true →
      (filters.needs_display_row_filter = true → row_accepted env categories fold render drive filters idx = true) →
        rec.name drive.names ≠ [] ∧ row_accepted env categories fold render drive filters idx = true ∧
          Descends drive (fun i => is_named drive i && is_dir drive i) idx
  walked : ext_fast_path filters filter_mode = false → ∀ (idx : UInt32) (rec : CompactRecord),
    drive.records[idx.toNat]? = some rec → rec.name drive.names ≠ [] →
      passes_filter_mode rec.is_directory filter_mode = true →
      row_accepted env categories fold render drive filters idx = true →
      Descends drive (is_named drive) idx ∨ Descends drive (is_dir drive) idx →
        has_filters filters filter_mode = true →
          (filters.resolve_ext_ids_for_drive env drive).matches_record env rec drive.names drive.fold = true

omit filter_mode in
/-- A filter on extensions alone has nothing for rows. -/
theorem needs_display_row_filter_of_ext_only (hext : filters.is_ext_only = true) : filters.needs_display_row_filter = false := by
  simp only [SearchFilters.is_ext_only, Bool.and_eq_true, Option.isNone_iff_eq_none] at hext
  simp [SearchFilters.needs_display_row_filter, hext]

theorem emit_if_passes_iff {drive : DriveCompactIndex} {idx : UInt32} :
    emit_if_passes env categories fold render drive filter_mode filters idx = true ↔
      ∃ rec, drive.records[idx.toNat]? = some rec ∧ rec.name drive.names ≠ [] ∧
        passes_filter_mode rec.is_directory filter_mode = true ∧
        row_accepted env categories fold render drive filters idx = true := by
  simp only [emit_if_passes, row_accepted, Option.any_eq_true, Bool.and_eq_true, Bool.not_eq_true', List.isEmpty_eq_false_iff]
  constructor
  · rintro ⟨rec, hget, ⟨hname, hmode⟩, hrow⟩
    exact ⟨rec, hget, hname, hmode, rec, hget, hrow⟩
  · rintro ⟨rec, hget, hname, hmode, rec', hget', hrow⟩
    cases hget.symm.trans hget'
    exact ⟨rec, hget, ⟨hname, hmode⟩, hrow⟩

theorem full_scan_record_passes_iff {drive : DriveCompactIndex} {resolved : SearchFilters} {rec : CompactRecord} :
    full_scan_record_passes env rec drive resolved filter_mode (has_filters filters filter_mode) = true ↔
      rec.Live ∧ passes_filter_mode rec.is_directory filter_mode = true ∧
        (has_filters filters filter_mode = true → resolved.matches_record env rec drive.names drive.fold = true) := by
  have hall : has_filters filters filter_mode = false → passes_filter_mode rec.is_directory filter_mode = true := by
    intro hnone
    have hmode : filter_mode = .All := by
      simp only [has_filters, Bool.or_eq_false_iff, bne_eq_false_iff_eq] at hnone
      exact hnone.2
    rw [hmode]
    rfl
  unfold full_scan_record_passes CompactRecord.Live
  cases hsome : has_filters filters filter_mode with
  | false => simp [hall hsome]
  | true => simp

theorem ext_candidate_passes_resolved (drive : DriveCompactIndex) (rec : CompactRecord) :
    ext_candidate_passes rec drive.names (filters.resolve_ext_ids_for_drive env drive) filter_mode =
      ext_candidate_passes rec drive.names filters filter_mode := by
  obtain ⟨ids, hframe⟩ := resolve_ext_ids_for_drive_frame filters env drive
  rw [hframe]
  rfl

theorem is_ext_only_resolved (drive : DriveCompactIndex) :
    (filters.resolve_ext_ids_for_drive env drive).is_ext_only = filters.is_ext_only := by
  obtain ⟨ids, hframe⟩ := resolve_ext_ids_for_drive_frame filters env drive
  rw [hframe]
  rfl

variable {drive : DriveCompactIndex} (hserved : Served env drive)

include hserved

/-- The routes of the extension table meet where the candidates have names that are text. -/
theorem columns_agree_iff_of_ext (hfast : ext_fast_path filters filter_mode = true) :
    (∀ sort_column idx, Selected env categories fold render filter_mode filters sort_column drive idx ↔
        Selected env categories fold render filter_mode filters .Size drive idx) ↔
      ∀ rec ∈ drive.records, rec.extension_id ∈ (filters.resolve_ext_ids_for_drive env drive).resolved_ext_ids →
        ext_candidate_passes rec drive.names filters filter_mode = true → rec.name drive.names ≠ [] := by
  obtain ⟨letter, table, index, hwf, hreach⟩ := hserved
  obtain ⟨hext, hmode⟩ : filters.is_ext_only = true ∧ filter_mode ≠ .DirsOnly := by simpa [ext_fast_path] using hfast
  have hnone := needs_display_row_filter_of_ext_only filters hext
  have hresolved := (is_ext_only_resolved env filters drive).trans hext
  have hscan : ∀ idx, Selected env categories fold render filter_mode filters .Size drive idx ↔
      ∃ rec, drive.records[idx.toNat]? = some rec ∧
        rec.extension_id ∈ (filters.resolve_ext_ids_for_drive env drive).resolved_ext_ids ∧
        ext_candidate_passes rec drive.names filters filter_mode = true := by
    intro idx
    simp only [Selected, Collected, hnone, Bool.false_eq_true, IsEmpty.forall_iff, and_true,
      mem_scan_drive_candidates hwf hreach hresolved hmode, ext_candidate_passes_resolved]
  have hpath : ∀ idx, idx ∈ path_ext_slots drive (filters.resolve_ext_ids_for_drive env drive) filter_mode ↔
      ∃ rec, drive.records[idx.toNat]? = some rec ∧
        rec.extension_id ∈ (filters.resolve_ext_ids_for_drive env drive).resolved_ext_ids ∧
        ext_candidate_passes rec drive.names filters filter_mode = true ∧ rec.name drive.names ≠ [] := by
    intro idx
    simp only [mem_path_ext_slots hwf hreach, ext_candidate_passes_resolved]
  have hrows : (∀ idx, idx ∈ path_ext_slots drive (filters.resolve_ext_ids_for_drive env drive) filter_mode ↔
      Selected env categories fold render filter_mode filters .Size drive idx) ↔
      ∀ rec ∈ drive.records, rec.extension_id ∈ (filters.resolve_ext_ids_for_drive env drive).resolved_ext_ids →
        ext_candidate_passes rec drive.names filters filter_mode = true → rec.name drive.names ≠ [] := by
    simp only [hpath, hscan, slots_agree_iff hreach.ok.lt_size]
    exact forall₂_congr fun rec _ => by tauto
  rw [← hrows]
  constructor
  · intro h idx
    rw [← h .Path idx]
    simp [Selected, Collected, hfast, hnone, collect_path_via_ext_index]
  · intro h sort_column idx
    cases sort_column
    case Path => rw [← h idx]; simp [Selected, Collected, hfast, hnone, collect_path_via_ext_index]
    case PathOnly => rw [← h idx]; simp [Selected, Collected, hfast, hnone, collect_path_only_via_ext_index]
    all_goals exact Iff.rfl

/-- The slots of the scan, where the extension table does not serve. -/
theorem selected_scan_iff (hscan : ext_fast_path filters filter_mode = false) (idx : UInt32) :
    Selected env categories fold render filter_mode filters .Size drive idx ↔
      ∃ rec, drive.records[idx.toNat]? = some rec ∧
        full_scan_record_passes env rec drive (filters.resolve_ext_ids_for_drive env drive) filter_mode
          (has_filters filters filter_mode) = true ∧
        (filters.needs_display_row_filter = true → row_accepted env categories fold render drive filters idx = true) := by
  obtain ⟨letter, table, index, hwf, hreach⟩ := hserved
  have hslow : ((filters.resolve_ext_ids_for_drive env drive).is_ext_only && filter_mode != .DirsOnly) = false := by
    rw [is_ext_only_resolved]
    exact hscan
  simp only [Selected, Collected, scan_drive_candidates, hslow, Bool.false_and, Bool.false_eq_true, if_false,
    mem_scan_full_records hreach.ok.lt_size]
  constructor
  · rintro ⟨⟨rec, hget, hpasses⟩, hrow⟩
    exact ⟨rec, hget, hpasses, hrow⟩
  · rintro ⟨rec, hget, hpasses, hrow⟩
    exact ⟨⟨rec, hget, hpasses⟩, hrow⟩

omit hserved in
theorem selected_walk_iff (hscan : ext_fast_path filters filter_mode = false) (idx : UInt32) :
    (Selected env categories fold render filter_mode filters .Path drive idx ↔ Descends drive (is_named drive) idx ∧
        emit_if_passes env categories fold render drive filter_mode filters idx = true) ∧
      (Selected env categories fold render filter_mode filters .PathOnly drive idx ↔ Descends drive (is_dir drive) idx ∧
        emit_if_passes env categories fold render drive filter_mode filters idx = true) := by
  have hrow : emit_if_passes env categories fold render drive filter_mode filters idx = true →
      row_accepted env categories fold render drive filters idx = true := by
    intro hemit
    obtain ⟨rec, -, -, -, hrow⟩ := (emit_if_passes_iff env categories fold render filter_mode filters).mp hemit
    exact hrow
  simp only [Selected, Collected, hscan, Bool.false_eq_true, if_false]
  tauto

/-- All columns select the same slots of a drive exactly if the routes meet there. -/
theorem columns_agree_iff :
    (∀ sort_column idx, Selected env categories fold render filter_mode filters sort_column drive idx ↔
        Selected env categories fold render filter_mode filters .Size drive idx) ↔
      RoutesMeet env categories fold render filter_mode filters drive := by
  cases hfast : ext_fast_path filters filter_mode with
  | true =>
    rw [columns_agree_iff_of_ext env categories fold render filter_mode filters hserved hfast]
    constructor
    · intro h
      exact ⟨fun _ => h, fun hslow => by simp [hfast] at hslow, fun hslow => by simp [hfast] at hslow⟩
    · exact fun h => h.listed hfast
  | false =>
    have hscan := selected_scan_iff env categories fold render filter_mode filters hserved hfast
    have hwalk := fun idx => @selected_walk_iff env categories fold render filter_mode filters drive hfast idx
    have hemit := fun idx => @emit_if_passes_iff env categories fold render filter_mode filters drive idx
    obtain ⟨letter, table, index, hwf, hreach⟩ := hserved
    obtain ⟨-, base, base_names, hinv⟩ := hreach.overlayInv hwf fun _ h => h
    constructor
    · intro h
      refine ⟨fun hext => by simp [hfast] at hext, ?_, ?_⟩
      · intro _ idx rec hget hpasses hrow
        have hselected := (hscan idx).mpr ⟨rec, hget, hpasses, hrow⟩
        obtain ⟨hnamed, hemitted⟩ := (hwalk idx).1.mp ((h .Path idx).mpr hselected)
        obtain ⟨hdir, -⟩ := (hwalk idx).2.mp ((h .PathOnly idx).mpr hselected)
        obtain ⟨rec', hget', hname, -, haccepted⟩ := (hemit idx).mp hemitted
        cases hget.symm.trans hget'
        exact ⟨hname, haccepted, hnamed.both hinv hreach.ok hdir⟩
      · intro _ idx rec hget hname hmode haccepted hdescends
        have hemitted := (hemit idx).mpr ⟨rec, hget, hname, hmode, haccepted⟩
        have hselected : Selected env categories fold render filter_mode filters .Size drive idx := by
          cases hdescends with
          | inl hnamed => exact (h .Path idx).mp ((hwalk idx).1.mpr ⟨hnamed, hemitted⟩)
          | inr hdir => exact (h .PathOnly idx).mp ((hwalk idx).2.mpr ⟨hdir, hemitted⟩)
        obtain ⟨rec', hget', hpasses, -⟩ := (hscan idx).mp hselected
        cases hget.symm.trans hget'
        exact ((full_scan_record_passes_iff env filter_mode filters).mp hpasses).2.2
    · intro h
      have hdown : ∀ idx, Selected env categories fold render filter_mode filters .Size drive idx →
          Descends drive (fun i => is_named drive i && is_dir drive i) idx ∧
            emit_if_passes env categories fold render drive filter_mode filters idx = true := by
        intro idx hselected
        obtain ⟨rec, hget, hpasses, hrow⟩ := (hscan idx).mp hselected
        obtain ⟨hname, haccepted, hdescends⟩ := h.scanned hfast idx rec hget hpasses hrow
        have hmode := ((full_scan_record_passes_iff env filter_mode filters).mp hpasses).2.1
        exact ⟨hdescends, (hemit idx).mpr ⟨rec, hget, hname, hmode, haccepted⟩⟩
      have hup : ∀ idx, (Descends drive (is_named drive) idx ∨ Descends drive (is_dir drive) idx) →
          emit_if_passes env categories fold render drive filter_mode filters idx = true →
            Selected env categories fold render filter_mode filters .Size drive idx := by
        intro idx hdescends hemitted
        obtain ⟨rec, hget, hname, hmode, haccepted⟩ := (hemit idx).mp hemitted
        have hmatches := h.walked hfast idx rec hget hname hmode haccepted hdescends
        have hlive : rec.Live := CompactRecord.live_of_name hname
        exact (hscan idx).mpr ⟨rec, hget, (full_scan_record_passes_iff env filter_mode filters).mpr ⟨hlive, hmode, hmatches⟩,
          fun _ => haccepted⟩
      intro sort_column idx
      cases sort_column
      case Path =>
        rw [(hwalk idx).1]
        refine ⟨fun hwalked => hup idx (Or.inl hwalked.1) hwalked.2, fun hselected => ?_⟩
        obtain ⟨hdescends, hemitted⟩ := hdown idx hselected
        exact ⟨hdescends.mono fun i hi => (Bool.and_eq_true_iff.mp hi).1, hemitted⟩
      case PathOnly =>
        rw [(hwalk idx).2]
        refine ⟨fun hwalked => hup idx (Or.inr hwalked.1) hwalked.2, fun hselected => ?_⟩
        obtain ⟨hdescends, hemitted⟩ := hdown idx hselected
        exact ⟨hdescends.mono fun i hi => (Bool.and_eq_true_iff.mp hi).2, hemitted⟩
      all_goals exact Iff.rfl

end independent

theorem columns_agree_of_sort_independent {env : Env} {categories : List (Str × List Str)} {fold : CaseFold}
    {render : Render} {filter_mode : FilterMode} {filters : SearchFilters}
    (hserved : ∀ drive ∈ drives, Served env drive)
    (h : SortIndependent env categories fold render filter_mode filters drives) {drive : DriveCompactIndex}
    (hmem : drive ∈ drives) (sort_column : FieldId) (idx : UInt32) :
    Selected env categories fold render filter_mode filters sort_column drive idx ↔
      Selected env categories fold render filter_mode filters .Size drive idx := by
  have hspec := dispatch_match_all_spec env categories fold render filter_mode filters hserved
  obtain ⟨hits, hall⟩ := h
  obtain ⟨i, hget⟩ := List.getElem?_of_mem hmem
  have hcolumn : ∀ sort_column, Selected env categories fold render filter_mode filters sort_column drive idx ↔
      (i, idx) ∈ hits := by
    intro sort_column
    obtain ⟨enough, hrows⟩ := hspec sort_column false
    obtain ⟨enough', hrows'⟩ := hall sort_column false
    obtain ⟨rows, hrun, hiff⟩ := hrows (max enough enough') (Nat.le_max_left _ _)
    obtain ⟨rows', hrun', hiff'⟩ := hrows' (max enough enough') (Nat.le_max_right _ _)
    cases hrun.symm.trans hrun'
    rw [← hiff' (i, idx), hiff (i, idx)]
    simp [hget]
  rw [hcolumn sort_column, hcolumn .Size]

/-- On drives no deeper than the cut, where the rows do not show what the shared cache of directories
held, those of a match-all query do not depend on the sort exactly if the routes meet on every drive. -/
theorem sort_independent_iff {env : Env} (categories : List (Str × List Str)) (fold : CaseFold) (render : Render)
    (filter_mode : FilterMode) (filters : SearchFilters) {drives : List DriveCompactIndex}
    (hshown : ∀ drive ∈ drives, Shown env drive) :
    (∀ drive ∈ drives, CacheUnseen drive render) ∧
      (SortIndependent env categories fold render filter_mode filters drives ↔
        ∀ drive ∈ drives, RoutesMeet env categories fold render filter_mode filters drive) := by
  have hserved : ∀ drive ∈ drives, Served env drive := fun drive hmem => (hshown drive hmem).served
  refine ⟨fun drive hmem => (hshown drive hmem).shallow.cacheUnseen render, ?_, ?_⟩
  · intro h drive hmem
    apply (columns_agree_iff env categories fold render filter_mode filters (hserved drive hmem)).mp
    exact columns_agree_of_sort_independent hserved h hmem
  · intro h
    refine ⟨{ hit | ∃ drive, drives[hit.1]? = some drive ∧
      Selected env categories fold render filter_mode filters .Size drive hit.2 }, fun sort_column sort_desc => ?_⟩
    obtain ⟨enough, hrows⟩ :=
      dispatch_match_all_spec env categories fold render filter_mode filters hserved sort_column sort_desc
    refine ⟨enough, fun fuel hle => ?_⟩
    obtain ⟨rows, hrun, hiff⟩ := hrows fuel hle
    refine ⟨rows, hrun, fun hit => ?_⟩
    rw [hiff, Set.mem_ofPred_eq]
    refine exists_congr fun drive => and_congr_right fun hget => ?_
    have hmem := List.mem_of_getElem? hget
    exact (columns_agree_iff env categories fold render filter_mode filters (hserved drive hmem)).mpr (h drive hmem) sort_column
      hit.2

theorem zip_drive_parent {rec : CompactRecord} (hmem : rec ∈ zip_drive.records) : rec.parent_idx = NO_ENTRY :=
  parent_idx_of_core ((zip_drive_row hmem).trans (show zip_row = zip_row.core from rfl))

theorem zip_drive_shown : Shown sample_env zip_drive where
  served := ⟨_, _, _, zip_mft_wellFormed, zip_drive_reachable⟩
  shallow := shallow_of_roots fun _ hmem => zip_drive_parent hmem

theorem sort_independent_iff_zip : SortIndependent sample_env [] sample_fold (fun _ => []) .All {} [zip_drive] := by
  apply (sort_independent_iff [] sample_fold (fun _ => []) .All {} (by simpa using zip_drive_shown)).2.mpr
  intro drive hdrive
  obtain rfl := List.mem_singleton.mp hdrive
  constructor
  · intro hfast
    cases hfast
  · intro _ idx rec hget _ _
    have hmem := List.mem_of_getElem? hget
    have hrow : rec.core = zip_row.core := (zip_drive_row hmem).trans (show zip_row = zip_row.core from rfl)
    have hlive : rec.Live := (live_of_core hrow).mpr (by decide)
    refine ⟨by simp [(zip_drive_name hmem).2], ?_, Descends.root hget hlive (zip_drive_parent hmem)⟩
    simp [row_accepted, hget, row_passes_filters, SearchFilters.is_empty]
  · intro _ idx rec _ _ _ _ _ hsome
    cases hsome

/-- A volume with one file, whose name is a lone surrogate. -/
def surrogate_mft : MftIndex where
  records := [{ frs := 16, first_name := { name := { offset := 0, bits := 3 }, parent_frs := 5 } }]
  frs_to_idx := List.replicate 16 NO_ENTRY ++ [0]
  names := [0xED, 0xA0, 0x80]
  extension_names := [[]]

def surrogate_drive : DriveCompactIndex := build_compact_index sample_env 'C' sample_fold surrogate_mft

/-- The only row of the index. -/
theorem surrogate_drive_slot :
    ∃ rec, surrogate_drive.records = [rec] ∧ rec.Live ∧ rec.parent_idx = NO_ENTRY ∧ rec.name surrogate_drive.names = [] := by
  have hrows : surrogate_drive.records.map (fun rec => (rec.name_len, rec.parent_idx, rec.name surrogate_drive.names)) =
      [(3, NO_ENTRY, [])] := by decide
  obtain ⟨rec, hrecords, hrec⟩ := List.map_eq_singleton_iff.mp hrows
  simp only [Prod.mk.injEq] at hrec
  refine ⟨rec, hrecords, ?_, hrec.2⟩
  rw [CompactRecord.Live, hrec.1]
  decide

theorem surrogate_drive_shown : Shown sample_env surrogate_drive where
  served := ⟨'C', sample_fold, surrogate_mft, ⟨mapped_of_zipIdx (by decide), by decide, by decide, by decide⟩,
    Reachable.start (roomy_build (by decide) _ _ _)⟩
  shallow := by
    obtain ⟨rec, hrecords, -, hroot, -⟩ := surrogate_drive_slot
    refine shallow_of_roots fun rec' hmem => ?_
    rw [hrecords] at hmem
    rwa [List.mem_singleton.mp hmem]

/-- The file is listed by size, and not by path. -/
theorem path_walk_hides_surrogate : Shown sample_env surrogate_drive ∧
    ¬ SortIndependent sample_env [] sample_fold (fun _ => []) .All {} [surrogate_drive] := by
  refine ⟨surrogate_drive_shown, fun h => ?_⟩
  have hserved : ∀ drive ∈ [surrogate_drive], Served sample_env drive := by simpa using surrogate_drive_shown.served
  obtain ⟨rec, hrecords, hlive, -, hname⟩ := surrogate_drive_slot
  have hget : surrogate_drive.records[(0 : UInt32).toNat]? = some rec := by
    rw [hrecords]
    rfl
  have hsize : Selected sample_env [] sample_fold (fun _ => []) .All {} .Size surrogate_drive 0 := by
    apply (selected_scan_iff _ _ _ _ _ _ surrogate_drive_shown.served (by decide) 0).mpr
    refine ⟨rec, hget, ?_, fun hneeds => by cases hneeds⟩
    apply (full_scan_record_passes_iff _ _ _).mpr
    exact ⟨hlive, rfl, fun hsome => by cases hsome⟩
  have hpath := (columns_agree_of_sort_independent hserved h List.mem_cons_self .Path 0).mpr hsize
  obtain ⟨-, hemitted⟩ := (selected_walk_iff _ _ _ _ _ _ (by decide) 0).1.mp hpath
  obtain ⟨rec', hget', hne, -⟩ := (emit_if_passes_iff _ _ _ _ _ _).mp hemitted
  cases hget.symm.trans hget'
  exact hne hname

end uffs.search
