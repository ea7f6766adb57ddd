import Uffs.Lib.Bytes
import Uffs.Search.RowOrder

open uffs.lib uffs.mft uffs.text uffs.bloom uffs.compact uffs.usn

namespace uffs.search

/-! The best rows of a match-all query with a limit, for the columns that no tree walk sorts by. -/

def i64_of_bool (flag : Bool) : Int64 := if flag then 1 else 0

def i64_from_be_bytes (key : List UInt8) : Int64 := (UInt64.ofNat (bytes.from_be_bytes key)).toInt64

/-- The low bytes of the first folded characters, filled up with zeros. -/
def name_key_bytes (fold : CaseFold) (name : Str) (len : Nat) : List UInt8 :=
  let bytes := (name.take len).map fun ch => (fold.fold_char ch).toUInt8
  bytes ++ List.replicate (len - bytes.length) 0

/-- A count as a key; one that does not fit is the greatest. -/
def i64_of_count (count : Nat) : Int64 := if count < 2 ^ 63 then Int64.ofNat count else Int64.maxValue

/-- The number a record is selected by. -/
def extract_sort_key (rec : CompactRecord) (sort_column : FieldId) (drive : DriveCompactIndex) : Int64 :=
  let flag (mask : UInt32) : Int64 := i64_of_bool (rec.flags &&& mask != 0)
  match sort_column with
  | .Size => rec.size.toInt64
  | .SizeOnDisk => rec.allocated.toInt64
  | .Created => rec.created
  | .Accessed => rec.accessed
  | .Descendants => rec.descendants.toUInt64.toInt64
  | .TreeAllocated => if rec.is_directory then rec.tree_allocated.toInt64 else rec.allocated.toInt64
  | .Bulkiness => (bulkiness_for_record rec).toInt64
  | .Extension | .Type => rec.extension_id.toUInt64.toInt64
  | .Name => i64_from_be_bytes (name_key_bytes drive.fold (rec.name drive.names) 8)
  | .Drive => i64_from_be_bytes (UInt8.ofNat drive.letter.toNat :: name_key_bytes drive.fold (rec.name drive.names) 7)
  | .TreeSize => if rec.is_directory then rec.treesize.toInt64 else rec.size.toInt64
  | .DirectoryFlag => i64_of_bool rec.is_directory
  | .Hidden => flag 0x0002
  | .System => flag 0x0004
  | .ReadOnly => flag 0x0001
  | .Archive => flag 0x0020
  | .Compressed => flag 0x0800
  | .Encrypted => flag 0x4000
  | .Sparse => flag 0x0200
  | .Reparse => flag 0x0400
  | .Offline => flag 0x1000
  | .NotIndexed => flag 0x2000
  | .Temporary => flag 0x0100
  | .Integrity => flag 0x8000
  | .NoScrub => flag 0x00020000
  | .Pinned => flag 0x00080000
  | .Unpinned => flag 0x00100000
  | .RecallOnOpen => flag 0x00040000
  | .RecallOnDataAccess => flag 0x00400000
  | .Attributes | .AttributeValue | .ParityAttributes => rec.flags.toUInt64.toInt64
  | .Virtual => flag 0x00010000
  | .Malformed => i64_of_bool (from_utf8 (rec.name_bytes drive.names)).isNone
  -- No number stands for a path: the last change serves.
  | .Path | .PathOnly | .Modified | .MalformedPath | .NameHex => rec.modified
  | .NameLength | .PathLength => i64_of_count (rec.name drive.names).length

structure HeapEntry where
  sort_key : Int64
  drive_idx : Nat
  rec_idx : UInt32
deriving DecidableEq

/-- Entries are ordered by their key, then by drive and slot. -/
instance : LinearOrder HeapEntry :=
  LinearOrder.lift' (fun entry => toLex (entry.sort_key.toInt, toLex (entry.drive_idx, entry.rec_idx.toNat))) (by
    intro a b h
    cases a
    cases b
    simpa [Int64.toInt_inj, UInt32.toNat_inj] using h)

/-- Push onto a heap whose greatest entry is on top, and keep at most `limit` entries. -/
def heap_push_capped {T : Type} [LinearOrder T] (heap : List T) (entry : T) (limit : Nat) : List T :=
  if heap.length < limit then heap ++ [entry]
  else
    match heap.max? with
    | some top => if entry < top then heap.erase top ++ [entry] else heap
    | none => heap

/-- Drive, slot and key. -/
abbrev Candidate := Nat × UInt32 × Int64

structure DriveScanCfg where
  limit : Nat
  use_heap : Bool
  sort_column : FieldId
  sort_desc : Bool
  filter_mode : FilterMode
  has_filters : Bool

/-- The best entries of one drive. Descending, the heap holds them the other way round. -/
structure DriveTopN where
  heap_desc : List HeapEntryᵒᵈ
  heap_asc : List HeapEntry
  fallback : List Candidate
  use_heap : Bool
  sort_desc : Bool
  limit : Nat

namespace DriveTopN

def new (cfg : DriveScanCfg) : DriveTopN where
  heap_desc := []
  heap_asc := []
  fallback := []
  use_heap := cfg.use_heap
  sort_desc := cfg.sort_desc
  limit := cfg.limit

def push (self : DriveTopN) (entry : HeapEntry) : DriveTopN :=
  if self.use_heap then
    if self.sort_desc then { self with heap_desc := heap_push_capped self.heap_desc (OrderDual.toDual entry) self.limit }
    else { self with heap_asc := heap_push_capped self.heap_asc entry self.limit }
  else { self with fallback := self.fallback ++ [(entry.drive_idx, entry.rec_idx, entry.sort_key)] }

def drain (self : DriveTopN) : List Candidate :=
  if self.use_heap then
    if self.sort_desc then
      self.heap_desc.map fun rev =>
        let entry := OrderDual.ofDual rev
        (entry.drive_idx, entry.rec_idx, entry.sort_key)
    else self.heap_asc.map fun entry => (entry.drive_idx, entry.rec_idx, entry.sort_key)
  else self.fallback

end DriveTopN

def heap_entry_for (drive_idx : Nat) (rec_idx : UInt32) (rec : CompactRecord) (drive : DriveCompactIndex)
    (sort_column : FieldId) : HeapEntry where
  sort_key := extract_sort_key rec sort_column drive
  drive_idx := drive_idx
  rec_idx := rec_idx

namespace bounded

/-- Push the slots that one drive hands to the sort. -/
def scan_drive_candidates (env : Env) (drive_idx : Nat) (drive : DriveCompactIndex) (filters : SearchFilters)
    (cfg : DriveScanCfg) : List Candidate :=
  let slots := search.scan_drive_candidates env drive filters cfg.filter_mode cfg.has_filters
  let entries := slots.filterMap fun rec_idx =>
    drive.records[rec_idx.toNat]?.map fun rec => heap_entry_for drive_idx rec_idx rec drive cfg.sort_column
  (entries.foldl DriveTopN.push (DriveTopN.new cfg)).drain

def scan_all_drives_parallel (env : Env) (drives : List DriveCompactIndex) (filters : SearchFilters) (cfg : DriveScanCfg) :
    List Candidate :=
  drives.zipIdx.flatMap fun entry =>
    scan_drive_candidates env entry.2 entry.1 (filters.resolve_ext_ids_for_drive env entry.1) cfg

/-- By drive and slot, as the records lie in the table. -/
def locality_order : Candidate → Candidate → Ordering := compareLex (compareOn (·.1)) (compareOn (·.2.1))

/-- Keep the best by key, and put them in the order of the records. -/
def sort_and_localise (sort : UnstableSort) (candidates : List Candidate) (sort_desc : Bool) (limit : Nat) :
    List Candidate :=
  if limit ≥ candidates.length then sort.run locality_order candidates
  else sort.run locality_order ((sort.run (directed sort_desc (compareOn (·.2.2))) candidates).take limit)

/-- The row of a hit, unless its slot is empty. -/
def hit_row (drives : List DriveCompactIndex) (render : Render) (hit : Hit) : Option DisplayRow :=
  drives[hit.1]?.bind fun drive => drive.records[hit.2.toNat]?.bind fun rec =>
    if rec.name_len = 0 then none else some (build_row drive hit.2 rec render)

def resolve_candidates_to_rows (drives : List DriveCompactIndex) (candidates : List Candidate) (render : Render) :
    List DisplayRow := candidates.filterMap fun candidate => hit_row drives render (candidate.1, candidate.2.1)

section collect

variable (env : Env) (categories : List (Str × List Str)) (fold : CaseFold) (render : Render) (sort : UnstableSort)

/-- The candidates that are left of all drives. -/
def selected_candidates (drives : List DriveCompactIndex) (limit : Nat) (sort_column : FieldId) (sort_desc : Bool)
    (filter_mode : FilterMode) (filters : SearchFilters) : List Candidate :=
  let cfg : DriveScanCfg :=
    { limit, use_heap := limit < 1000000, sort_column, sort_desc, filter_mode, has_filters := has_filters filters filter_mode }
  sort_and_localise sort (scan_all_drives_parallel env drives filters cfg) sort_desc limit

def collect_global_top_n_numeric (drives : List DriveCompactIndex) (limit : Nat) (sort_column : FieldId) (sort_desc : Bool)
    (filter_mode : FilterMode) (filters : SearchFilters) : List DisplayRow :=
  let sorted_candidates := selected_candidates env sort drives limit sort_column sort_desc filter_mode filters
  sort_rows categories fold sort (resolve_candidates_to_rows drives sorted_candidates render) sort_column sort_desc []

end collect

/-- The record is live, of the kind the mode asks for, and no filter turns it away. -/
def record_passes (env : Env) (drive : DriveCompactIndex) (filters : SearchFilters) (filter_mode : FilterMode)
    (rec : CompactRecord) : Bool :=
  rec.name_len != 0 && passes_filter_mode rec.is_directory filter_mode &&
    filters.matches_record env rec drive.names drive.fold

/-- The passing records of all drives, with nothing but the tests of a record. -/
def passing_hits (env : Env) (drives : List DriveCompactIndex) (filter_mode : FilterMode) (filters : SearchFilters) : List Hit :=
  collect_resolved env (fun drive resolved => ((List.range drive.records.length).filter fun rec_idx =>
    drive.records[rec_idx]?.any (record_passes env drive resolved filter_mode)).map len_to_u32) drives filters

end bounded

variable {pushed : List HeapEntry}

section heap

theorem HeapEntry.sort_key_le {a b : HeapEntry} (h : a ≤ b) : a.sort_key.toInt ≤ b.sort_key.toInt := by
  have hlex : toLex (a.sort_key.toInt, toLex (a.drive_idx, a.rec_idx.toNat)) ≤
      toLex (b.sort_key.toInt, toLex (b.drive_idx, b.rec_idx.toNat)) := h
  rw [Prod.Lex.toLex_le_toLex] at hlex
  omega

/-- One push keeps the best. -/
theorem keeps_heap_push_capped {T : Type} [LinearOrder T] {limit : Nat} {all heap : List T} (h : Keeps id limit all heap)
    (entry : T) : Keeps id limit (all ++ [entry]) (heap_push_capped heap entry limit) := by
  unfold heap_push_capped
  split
  next hroom => exact h.grow hroom entry
  next hroom =>
    have hfull : heap.length = limit := Nat.le_antisymm h.1 (Nat.not_lt.mp hroom)
    cases hmax : heap.max? with
    | none =>
      rw [List.max?_eq_none_iff] at hmax
      exact h.pass hfull fun a ha => by simp [hmax] at ha
    | some top =>
      obtain ⟨hmem, hworst⟩ := List.max?_eq_some_iff.mp hmax
      dsimp only
      split
      next hbetter => exact h.replace hfull hmem hworst hbetter
      next hworse => exact h.pass hfull fun a ha => le_trans (hworst a ha) (not_lt.mp hworse)

def HeapEntry.candidate (entry : HeapEntry) : Candidate := (entry.drive_idx, entry.rec_idx, entry.sort_key)

/-- What a candidate is ranked by. -/
def candidate_key (sort_desc : Bool) (candidate : Candidate) : Int :=
  if sort_desc then -candidate.2.2.toInt else candidate.2.2.toInt

/-- The workspace of one drive after some entries have been pushed. -/
structure DriveTopN.Holds (state : DriveTopN) (cfg : DriveScanCfg) (pushed : List HeapEntry) : Prop where
  use_heap : state.use_heap = cfg.use_heap
  sort_desc : state.sort_desc = cfg.sort_desc
  limit : state.limit = cfg.limit
  heap_desc : cfg.use_heap = true → cfg.sort_desc = true → Keeps id cfg.limit (pushed.map OrderDual.toDual) state.heap_desc
  heap_asc : cfg.use_heap = true → cfg.sort_desc = false → Keeps id cfg.limit pushed state.heap_asc
  fallback : cfg.use_heap = false → state.fallback = pushed.map HeapEntry.candidate

theorem DriveTopN.holds_new (cfg : DriveScanCfg) : (DriveTopN.new cfg).Holds cfg [] :=
  ⟨rfl, rfl, rfl, fun _ _ => Keeps.nil _, fun _ _ => Keeps.nil _, fun _ => rfl⟩

theorem DriveTopN.Holds.push {state : DriveTopN} {cfg : DriveScanCfg} (h : state.Holds cfg pushed)
    (entry : HeapEntry) : (state.push entry).Holds cfg (pushed ++ [entry]) := by
  unfold DriveTopN.push
  rw [h.use_heap, h.sort_desc, h.limit]
  cases huse : cfg.use_heap with
  | false =>
    refine ⟨huse.symm, rfl, rfl, fun hheap => ?_, fun hheap => ?_, fun _ => ?_⟩
    · exact absurd (huse.symm.trans hheap) Bool.false_ne_true
    · exact absurd (huse.symm.trans hheap) Bool.false_ne_true
    · rw [List.map_append, ← h.fallback huse]
      rfl
  | true =>
    cases hdesc : cfg.sort_desc with
    | false =>
      refine ⟨huse.symm, hdesc.symm, rfl, fun _ hd => ?_, fun _ _ => ?_, fun hnone => ?_⟩
      · exact absurd (hdesc.symm.trans hd) Bool.false_ne_true
      · exact keeps_heap_push_capped (h.heap_asc huse hdesc) entry
      · exact absurd (huse.symm.trans hnone) (Ne.symm Bool.false_ne_true)
    | true =>
      refine ⟨huse.symm, hdesc.symm, rfl, fun _ _ => ?_, fun _ hd => ?_, fun hnone => ?_⟩
      · rw [List.map_append]
        exact keeps_heap_push_capped (h.heap_desc huse hdesc) (OrderDual.toDual entry)
      · exact absurd (hdesc.symm.trans hd) (Ne.symm Bool.false_ne_true)
      · exact absurd (huse.symm.trans hnone) (Ne.symm Bool.false_ne_true)

theorem DriveTopN.Holds.push_all {state : DriveTopN} {cfg : DriveScanCfg} (h : state.Holds cfg pushed)
    (entries : List HeapEntry) : (entries.foldl DriveTopN.push state).Holds cfg (pushed ++ entries) := by
  induction entries generalizing state pushed with
  | nil => rwa [List.append_nil]
  | cons entry entries ih =>
    have hrest := ih (h.push entry)
    rwa [List.append_assoc] at hrest

/-- A drive hands on all that was pushed, or the best of it. -/
theorem DriveTopN.Holds.drain {state : DriveTopN} {cfg : DriveScanCfg} (h : state.Holds cfg pushed) :
    state.drain = pushed.map HeapEntry.candidate ∨
      Keeps (candidate_key cfg.sort_desc) cfg.limit (pushed.map HeapEntry.candidate) state.drain := by
  unfold DriveTopN.drain
  rw [h.use_heap, h.sort_desc]
  cases huse : cfg.use_heap with
  | false => exact Or.inl (h.fallback huse)
  | true =>
    right
    cases hdesc : cfg.sort_desc with
    | false =>
      have hkept := (h.heap_asc huse hdesc).coarsen (f := fun entry : HeapEntry => entry.sort_key.toInt)
        fun _ _ => HeapEntry.sort_key_le
      exact hkept.map fun _ _ => rfl
    | true =>
      have hkept := (h.heap_desc huse hdesc).coarsen
        (f := fun rev : HeapEntryᵒᵈ => -(OrderDual.ofDual rev).sort_key.toInt)
        fun _ _ hle => Int.neg_le_neg (HeapEntry.sort_key_le hle)
      have hmapped : Keeps (candidate_key true) cfg.limit _ (state.heap_desc.map fun rev => (OrderDual.ofDual rev).candidate) :=
        hkept.map fun _ _ => rfl
      rwa [List.map_map] at hmapped

end heap

/-- The drive and the record behind a hit. -/
def hit_record (drives : List DriveCompactIndex) (hit : Hit) : Option (DriveCompactIndex × CompactRecord) :=
  drives[hit.1]?.bind fun drive => drive.records[hit.2.toNat]?.map (drive, ·)

/-- The key of the record behind a hit. -/
def hit_sort_key (drives : List DriveCompactIndex) (sort_column : FieldId) (hit : Hit) : Int64 :=
  ((hit_record drives hit).map fun found => extract_sort_key found.2 sort_column found.1).getD 0

/-- What a hit is ranked by. -/
def hit_key (drives : List DriveCompactIndex) (sort_column : FieldId) (sort_desc : Bool) (hit : Hit) : Int :=
  let key := (hit_sort_key drives sort_column hit).toInt
  if sort_desc then -key else key

namespace bounded

def selected_hits (env : Env) (sort : UnstableSort) (drives : List DriveCompactIndex) (limit : Nat) (sort_column : FieldId)
    (sort_desc : Bool) (filter_mode : FilterMode) (filters : SearchFilters) : List Hit :=
  (selected_candidates env sort drives limit sort_column sort_desc filter_mode filters).map fun candidate =>
    (candidate.1, candidate.2.1)

def hit_candidate (drives : List DriveCompactIndex) (sort_column : FieldId) (hit : Hit) : Candidate :=
  (hit.1, hit.2, hit_sort_key drives sort_column hit)

theorem key_order_isLE_iff (sort_desc : Bool) (a b : Candidate) :
    (directed sort_desc (compareOn (·.2.2)) a b).isLE ↔ candidate_key sort_desc a ≤ candidate_key sort_desc b := by
  cases sort_desc with
  | false => simp [directed, compareOn, candidate_key, Std.isLE_compare, Int64.le_iff_toInt_le]
  | true => simp [directed, compareOn, candidate_key, Std.isGE_compare, Int64.le_iff_toInt_le]

/-- The merged candidates are cut to the best. -/
theorem keeps_sort_and_localise (sort : UnstableSort) (candidates : List Candidate) (sort_desc : Bool) (limit : Nat) :
    Keeps (candidate_key sort_desc) limit candidates (sort_and_localise sort candidates sort_desc limit) := by
  unfold sort_and_localise
  split
  next hfits => exact (Keeps.all hfits).reorder (sort.perm _ _)
  next =>
    have hranked : Ranked (candidate_key sort_desc) (sort.run (directed sort_desc (compareOn (·.2.2))) candidates) :=
      (sort.sorted _ candidates).imp fun {a b} hle => (key_order_isLE_iff sort_desc a b).mp hle
    exact (hranked.keeps_take (sort.perm _ _)).reorder (sort.perm _ _)

variable {drive : DriveCompactIndex}

/-- The extension table hands out no slot twice. -/
theorem nodup_scan_ext_fast_path {env : Env} (hserved : Served env drive)
    (filters : SearchFilters) (filter_mode : FilterMode) :
    (scan_ext_fast_path drive (filters.resolve_ext_ids_for_drive env drive) filter_mode).Nodup := by
  obtain ⟨base, base_names, hinv, hroomy⟩ := hserved.overlay
  have hexact := records_with_ext_exact hinv hroomy
  unfold scan_ext_fast_path
  rw [List.nodup_flatMap]
  constructor
  · exact fun id _ => (hexact id).ascending.nodup.filter _
  · have hids : (filters.resolve_ext_ids_for_drive env drive).resolved_ext_ids.Nodup := by
      unfold SearchFilters.resolve_ext_ids_for_drive
      split
      · exact List.nodup_nil
      · apply nodup_dedup_runs (r := fun a b : UInt16 => a ≤ b) fun a b => UInt16.le_antisymm
        exact (List.pairwise_mergeSort (by simpa using fun a b c => UInt16.le_trans) (by simpa using UInt16.le_total) _).imp
          fun hle => by simpa using hle
    refine hids.imp fun {a b} hne => ?_
    rw [Function.onFun, List.disjoint_left]
    intro idx ha hb
    obtain ⟨rec, hget, -, heq⟩ := ((hexact a).mem idx).mp (List.mem_of_mem_filter ha)
    obtain ⟨rec', hget', -, heq'⟩ := ((hexact b).mem idx).mp (List.mem_of_mem_filter hb)
    cases hget.symm.trans hget'
    exact hne (heq.symm.trans heq')

/-- The slots that pass a test, as the table has them. -/
theorem nodup_filter_slots {length : Nat} (hlength : length < UInt32.size) (test : Nat → Bool) :
    (((List.range length).filter test).map len_to_u32).Nodup := by
  refine List.Nodup.map_on ?_ (List.nodup_range.filter _)
  intro i hi j hj heq
  have hlt : ∀ k ∈ List.range length, k < UInt32.size := fun k hk => Nat.lt_trans (List.mem_range.mp hk) hlength
  rw [← len_to_u32_toNat (hlt i (List.mem_of_mem_filter hi)), ← len_to_u32_toNat (hlt j (List.mem_of_mem_filter hj)), heq]

theorem nodup_scan_drive_candidates {env : Env} (hserved : Served env drive)
    (filters : SearchFilters) (filter_mode : FilterMode) (has_filters : Bool) :
    (search.scan_drive_candidates env drive (filters.resolve_ext_ids_for_drive env drive) filter_mode has_filters).Nodup := by
  unfold search.scan_drive_candidates
  dsimp only
  split
  · exact nodup_scan_ext_fast_path hserved filters filter_mode
  · split
    · exact List.nodup_nil
    · exact nodup_filter_slots hserved.lt_size _

variable {drives : List DriveCompactIndex}

theorem nodup_collect_resolved {env : Env} {slots : DriveCompactIndex → SearchFilters → List UInt32}
    {filters : SearchFilters} (hslots : ∀ drive ∈ drives, (slots drive (filters.resolve_ext_ids_for_drive env drive)).Nodup) :
    (collect_resolved env slots drives filters).Nodup := by
  unfold collect_resolved
  rw [List.nodup_flatMap]
  constructor
  · intro entry hentry
    have hdrive := List.mem_of_getElem? (List.mem_zipIdx_iff_getElem?.mp hentry)
    exact (hslots entry.1 hdrive).map fun _ _ heq => (Prod.mk.inj heq).2
  · have hdistinct : (drives.zipIdx.map Prod.snd).Nodup := List.nodup_zipIdx_map_snd drives
    rw [List.Nodup, List.pairwise_map] at hdistinct
    refine hdistinct.imp fun hne => ?_
    rw [Function.onFun, List.disjoint_left]
    intro hit ha hb
    exact hne ((mem_hits_of.mp ha).1.symm.trans (mem_hits_of.mp hb).1)

section passing

variable {env : Env} (hserved : ∀ drive ∈ drives, Served env drive)
  (filter_mode : FilterMode) (filters : SearchFilters)

/-- Filters that ask for nothing turn no record away. -/
theorem matches_record_of_empty {resolved : SearchFilters} (hempty : resolved.is_empty = true) (hids : resolved.resolved_ext_ids = [])
    (env : Env) (rec : CompactRecord) (names : List UInt8) (fold : CaseFold) :
    resolved.matches_record env rec names fold = true := by
  simp only [SearchFilters.is_empty, Bool.and_eq_true, Bool.not_eq_true', Option.isNone_iff_eq_none, List.isEmpty_iff, beq_iff_eq]
    at hempty
  simp [SearchFilters.matches_record, SearchFilters.matches_derived, SearchFilters.matches_extension, at_least, at_most, older_than,
    hempty, hids]

/-- The scan leaves its tests out only where they would pass. -/
theorem full_scan_eq_record_passes (drive : DriveCompactIndex) (rec : CompactRecord) :
    full_scan_record_passes env rec drive (filters.resolve_ext_ids_for_drive env drive) filter_mode (has_filters filters filter_mode) =
      record_passes env drive (filters.resolve_ext_ids_for_drive env drive) filter_mode rec := by
  cases hsome : has_filters filters filter_mode with
  | true => simp only [full_scan_record_passes, record_passes, Bool.not_true, Bool.false_or, Bool.and_assoc]
  | false =>
    simp only [has_filters, Bool.or_eq_false_iff, Bool.not_eq_false', bne_eq_false_iff_eq] at hsome
    obtain ⟨hempty, rfl⟩ := hsome
    have hextensions : filters.extensions.isEmpty = true := by
      simp only [SearchFilters.is_empty, Bool.and_eq_true] at hempty
      tauto
    rw [full_scan_record_passes, record_passes, SearchFilters.resolve_ext_ids_for_drive, if_pos hextensions,
      matches_record_of_empty (by exact hempty) rfl]
    simp [passes_filter_mode]

/-- With only extensions to test, the extension table lists no record that the toggles for deleted and
ill-formed names turn away; and where it knows none of the extensions, no such record has one. -/
structure TableExact (env : Env) (drive : DriveCompactIndex) (filters : SearchFilters) (filter_mode : FilterMode) : Prop where
  listed : ∀ rec ∈ drive.records, rec.extension_id ∈ filters.resolved_ext_ids →
    ext_candidate_passes rec drive.names filters filter_mode = true → toggles_accept filters rec drive.names = true
  unlisted : filters.resolved_ext_ids = [] → ∀ rec ∈ drive.records,
    ext_candidate_passes rec drive.names filters filter_mode = true → toggles_accept filters rec drive.names = true →
      filters.name_has_extension env (rec.name drive.names) = false

/-- What a drive hands out are its passing records exactly if its extension table is exact. -/
theorem scanned_passing_iff (h : Served env drive) :
    (∀ idx, idx ∈ search.scan_drive_candidates env drive (filters.resolve_ext_ids_for_drive env drive) filter_mode
        (has_filters filters filter_mode) ↔
      ∃ rec, drive.records[idx.toNat]? = some rec ∧
        record_passes env drive (filters.resolve_ext_ids_for_drive env drive) filter_mode rec = true) ↔
      (filters.is_ext_only = true → filter_mode ≠ .DirsOnly →
        TableExact env drive (filters.resolve_ext_ids_for_drive env drive) filter_mode) := by
  have hfull := @full_scan_eq_record_passes env filter_mode filters drive
  have honly := is_ext_only_resolved env filters drive
  have hmem : ∀ idx, idx ∈ scan_full_records env drive (filters.resolve_ext_ids_for_drive env drive) filter_mode
        (has_filters filters filter_mode) ↔ ∃ rec, drive.records[idx.toNat]? = some rec ∧
      record_passes env drive (filters.resolve_ext_ids_for_drive env drive) filter_mode rec = true := by
    intro idx
    rw [mem_scan_full_records h.lt_size]
    simp only [hfull]
  by_cases hfast : filters.is_ext_only = true ∧ filter_mode ≠ .DirsOnly
  · obtain ⟨hext, hmode⟩ := hfast
    obtain ⟨letter, table, index, hwf, hreach⟩ := h
    simp only [hext, hmode, ne_eq, not_false_eq_true, true_implies]
    rw [hext] at honly
    have hsome : has_filters filters filter_mode = has_filters (filters.resolve_ext_ids_for_drive env drive) filter_mode := by
      obtain ⟨ids, hframe⟩ := resolve_ext_ids_for_drive_frame filters env drive
      rw [hframe]
      simp [has_filters, SearchFilters.is_empty]
    simp only [← hfull, hsome]
    generalize filters.resolve_ext_ids_for_drive env drive = resolved at *
    simp only [mem_scan_drive_candidates hwf hreach honly hmode, full_scan_of_ext_only honly hmode, slots_agree_iff hreach.ok.lt_size,
      matches_extension_eq honly]
    constructor
    · intro hrows
      refine ⟨fun rec hrec hid hcandidate => ?_, fun hids rec hrec hcandidate haccept => ?_⟩
      · have hboth := (hrows rec hrec).mp ⟨hid, hcandidate⟩
        simp only [Bool.and_eq_true] at hboth
        exact hboth.1.2
      · by_contra hname
        obtain ⟨hid, -⟩ := (hrows rec hrec).mpr (by simpa [hids, hcandidate, haccept] using hname)
        rw [hids] at hid
        cases hid
    · intro hexact rec hrec
      by_cases hids : resolved.resolved_ext_ids = []
      · have hnone := hexact.unlisted hids rec hrec
        simp only [hids, List.not_mem_nil, false_and, if_true, Bool.and_eq_true, false_iff]
        rintro ⟨⟨hcandidate, haccept⟩, hname⟩
        rw [hnone hcandidate haccept] at hname
        cases hname
      · have hlisted := hexact.listed rec hrec
        simp only [hids, if_false, Bool.and_eq_true, decide_eq_true_eq]
        tauto
  · have hslow : (filters.is_ext_only && filter_mode != .DirsOnly) = false := by
      rw [Bool.eq_false_iff]
      simpa using hfast
    have hscan : ∀ idx, idx ∈ search.scan_drive_candidates env drive (filters.resolve_ext_ids_for_drive env drive) filter_mode
        (has_filters filters filter_mode) ↔ idx ∈ scan_full_records env drive (filters.resolve_ext_ids_for_drive env drive)
        filter_mode (has_filters filters filter_mode) := by
      intro idx
      rw [search.scan_drive_candidates, honly, hslow]
      simp
    simp only [hscan, hmem, implies_true, true_iff]
    exact fun hext hmode => absurd ⟨hext, hmode⟩ hfast

include hserved in
theorem mem_passing_hits {hit : Hit} : hit ∈ passing_hits env drives filter_mode filters ↔
    ∃ drive, drives[hit.1]? = some drive ∧ ∃ rec, drive.records[hit.2.toNat]? = some rec ∧
      record_passes env drive (filters.resolve_ext_ids_for_drive env drive) filter_mode rec = true := by
  rw [passing_hits, mem_collect_resolved]
  refine exists_congr fun drive => and_congr_right fun hget => ?_
  have hlt := (hserved drive (List.mem_of_getElem? hget)).lt_size
  simp only [List.mem_map, List.mem_filter, List.mem_range, Option.any_eq_true]
  constructor
  · rintro ⟨i, ⟨hi, rec, hrec, hpasses⟩, hslot⟩
    rw [← hslot, len_to_u32_toNat (by omega)]
    exact ⟨rec, hrec, hpasses⟩
  · rintro ⟨rec, hrec, hpasses⟩
    exact ⟨hit.2.toNat, ⟨(List.getElem?_eq_some_iff.mp hrec).1, rec, hrec, hpasses⟩, len_to_u32_of_toNat hit.2⟩

include hserved

/-- The hits of the scan are the passing records exactly if every extension table is exact. -/
theorem scan_perm_passing_iff : (search.collect_global_top_n_numeric env drives filter_mode filters).Perm
      (passing_hits env drives filter_mode filters) ↔
    (filters.is_ext_only = true → filter_mode ≠ .DirsOnly → ∀ drive ∈ drives,
      TableExact env drive (filters.resolve_ext_ids_for_drive env drive) filter_mode) := by
  have hscan : (search.collect_global_top_n_numeric env drives filter_mode filters).Nodup :=
    nodup_collect_resolved fun drive hdrive => nodup_scan_drive_candidates (hserved drive hdrive) filters filter_mode _
  have hpassing : (passing_hits env drives filter_mode filters).Nodup :=
    nodup_collect_resolved fun drive hdrive => nodup_filter_slots (hserved drive hdrive).lt_size _
  rw [List.perm_ext_iff_of_nodup hscan hpassing]
  simp only [search.collect_global_top_n_numeric, mem_collect_resolved, mem_passing_hits hserved filter_mode filters]
  have hdrives : (∀ hit : Hit, (∃ drive, drives[hit.1]? = some drive ∧
        hit.2 ∈ search.scan_drive_candidates env drive (filters.resolve_ext_ids_for_drive env drive) filter_mode
          (has_filters filters filter_mode)) ↔
      ∃ drive, drives[hit.1]? = some drive ∧ ∃ rec, drive.records[hit.2.toNat]? = some rec ∧
        record_passes env drive (filters.resolve_ext_ids_for_drive env drive) filter_mode rec = true) ↔
      ∀ drive ∈ drives, filters.is_ext_only = true → filter_mode ≠ .DirsOnly →
        TableExact env drive (filters.resolve_ext_ids_for_drive env drive) filter_mode := by
    constructor
    · intro hhits drive hdrive
      obtain ⟨i, hget⟩ := List.getElem?_of_mem hdrive
      rw [← scanned_passing_iff filter_mode filters (hserved drive hdrive)]
      intro idx
      simpa [hget] using hhits (i, idx)
    · intro hexact hit
      refine exists_congr fun drive => and_congr_right fun hget => ?_
      have hdrive := List.mem_of_getElem? hget
      exact (scanned_passing_iff filter_mode filters (hserved drive hdrive)).mpr (hexact drive hdrive) hit.2
  rw [hdrives]
  exact ⟨fun h hext hmode drive hdrive => h drive hdrive hext hmode, fun h drive hdrive hext hmode => h hext hmode drive hdrive⟩

end passing

section selection

variable (env : Env) (sort : UnstableSort)
  (hfits : ∀ drive ∈ drives, drive.records.length < UInt32.size) (sort_column : FieldId) (sort_desc : Bool)
  (filter_mode : FilterMode) (filters : SearchFilters)

/-- The scan hands out live slots. -/
theorem scanned_live {env : Env} (hrecords : drive.records.length < UInt32.size)
    {filters : SearchFilters} {filter_mode : FilterMode} {has_filters : Bool} {idx : UInt32}
    (h : idx ∈ search.scan_drive_candidates env drive filters filter_mode has_filters) :
    ∃ rec, drive.records[idx.toNat]? = some rec ∧ rec.Live := by
  unfold search.scan_drive_candidates at h
  dsimp only at h
  split at h
  · simp only [scan_ext_fast_path, List.mem_flatMap, List.mem_filter, Option.any_eq_true] at h
    obtain ⟨-, -, -, rec, hget, hpasses⟩ := h
    unfold ext_candidate_passes at hpasses
    simp only [Bool.and_eq_true, bne_iff_ne] at hpasses
    exact ⟨rec, hget, hpasses.1.1.1⟩
  · split at h
    · cases h
    · obtain ⟨rec, hget, hpasses⟩ := (mem_scan_full_records hrecords).mp h
      unfold full_scan_record_passes at hpasses
      simp only [Bool.and_eq_true, bne_iff_ne] at hpasses
      exact ⟨rec, hget, hpasses.1⟩

/-- One drive pushes its slots with their keys. -/
theorem entries_candidates {drive_idx : Nat} (hget : drives[drive_idx]? = some drive)
    {slots : List UInt32} (hslots : ∀ idx ∈ slots, ∃ rec, drive.records[idx.toNat]? = some rec ∧ rec.Live) :
    (slots.filterMap fun rec_idx => drive.records[rec_idx.toNat]?.map fun rec =>
      heap_entry_for drive_idx rec_idx rec drive sort_column).map HeapEntry.candidate =
      (hits_of drive_idx slots).map (hit_candidate drives sort_column) := by
  induction slots with
  | nil => rfl
  | cons idx slots ih =>
    obtain ⟨rec, hrec, -⟩ := hslots idx List.mem_cons_self
    rw [List.filterMap_cons_some (by rw [hrec]; rfl), List.map_cons, ih fun other hother => hslots other (List.mem_cons_of_mem _ hother)]
    simp [hits_of, hit_candidate, hit_sort_key, hit_record, HeapEntry.candidate, heap_entry_for, hget, hrec]

include hfits

/-- Of all candidates, with their keys, the best are selected. -/
theorem keeps_selected (limit : Nat) :
    Keeps (candidate_key sort_desc) limit
      ((search.collect_global_top_n_numeric env drives filter_mode filters).map (hit_candidate drives sort_column))
      (selected_candidates env sort drives limit sort_column sort_desc filter_mode filters) := by
  unfold selected_candidates
  dsimp only
  set cfg : DriveScanCfg := ⟨limit, limit < 1000000, sort_column, sort_desc, filter_mode, has_filters filters filter_mode⟩
  have hall : (search.collect_global_top_n_numeric env drives filter_mode filters).map (hit_candidate drives sort_column) =
      (drives.zipIdx.map fun entry =>
        let resolved := filters.resolve_ext_ids_for_drive env entry.1
        ((hits_of entry.2 (search.scan_drive_candidates env entry.1 resolved filter_mode (has_filters filters filter_mode))).map
          (hit_candidate drives sort_column), scan_drive_candidates env entry.2 entry.1 resolved cfg)).flatMap Prod.fst := by
    rw [search.collect_global_top_n_numeric, collect_resolved, List.map_flatMap, List.flatMap_map]
  have hkept : scan_all_drives_parallel env drives filters cfg =
      (drives.zipIdx.map fun entry =>
        let resolved := filters.resolve_ext_ids_for_drive env entry.1
        ((hits_of entry.2 (search.scan_drive_candidates env entry.1 resolved filter_mode (has_filters filters filter_mode))).map
          (hit_candidate drives sort_column), scan_drive_candidates env entry.2 entry.1 resolved cfg)).flatMap Prod.snd := by
    rw [scan_all_drives_parallel, List.flatMap_map]
  have hcut := keeps_sort_and_localise sort (scan_all_drives_parallel env drives filters cfg) sort_desc limit
  rw [hall]
  rw [hkept] at hcut ⊢
  refine @Keeps.merge _ _ _ _ _ _ ?_ _ [] hcut
  intro part hpart
  obtain ⟨⟨drive, drive_idx⟩, hmem, rfl⟩ := List.mem_map.mp hpart
  have hget := List.mem_zipIdx_iff_getElem?.mp hmem
  dsimp only
  rw [← entries_candidates sort_column hget fun idx => scanned_live (hfits drive (List.mem_of_getElem? hget))]
  exact ((DriveTopN.holds_new cfg).push_all _).drain

/-- The hits that are shown. -/
theorem keeps_selected_hits (limit : Nat) :
    Keeps (hit_key drives sort_column sort_desc) limit (search.collect_global_top_n_numeric env drives filter_mode filters)
      (selected_hits env sort drives limit sort_column sort_desc filter_mode filters) := by
  have hkept := keeps_selected env sort hfits sort_column sort_desc filter_mode filters limit
  have hhits : Keeps (hit_key drives sort_column sort_desc) limit
      (((search.collect_global_top_n_numeric env drives filter_mode filters).map (hit_candidate drives sort_column)).map
        fun candidate => (candidate.1, candidate.2.1))
      (selected_hits env sort drives limit sort_column sort_desc filter_mode filters) := by
    apply hkept.map
    intro candidate hmem
    obtain ⟨hit, -, rfl⟩ := List.mem_map.mp hmem
    rfl
  rwa [List.map_map, show (fun candidate : Candidate => (candidate.1, candidate.2.1)) ∘ hit_candidate drives sort_column = id
    from rfl, List.map_id] at hhits

/-- Every hit of the scan has a record and a row. -/
theorem passing_row (render : Render) {hit : Hit}
    (hmem : hit ∈ search.collect_global_top_n_numeric env drives filter_mode filters) :
    ∃ drive rec, drive ∈ drives ∧ rec ∈ drive.records ∧ hit_record drives hit = some (drive, rec) ∧
      hit_row drives render hit = some (build_row drive hit.2 rec render) := by
  obtain ⟨drive, hget, hscanned⟩ := mem_collect_resolved.mp hmem
  have hdrive := List.mem_of_getElem? hget
  obtain ⟨rec, hrec, hlive⟩ := scanned_live (hfits drive hdrive) hscanned
  refine ⟨drive, rec, hdrive, List.mem_of_getElem? hrec, by simp [hit_record, hget, hrec], ?_⟩
  have hne : rec.name_len ≠ 0 := hlive
  simp [hit_row, hget, hrec, hne]

/-- The rows are those of the selected hits. -/
theorem selected_rows (categories : List (Str × List Str)) (fold : CaseFold) (render : Render) (limit : Nat) :
    ((selected_hits env sort drives limit sort_column sort_desc filter_mode filters).map (hit_row drives render)).Perm
      ((collect_global_top_n_numeric env categories fold render sort drives limit sort_column sort_desc filter_mode
        filters).map some) := by
  have hrows : ∀ hits : List Hit, (∀ hit ∈ hits, ∃ row, hit_row drives render hit = some row) →
      hits.map (hit_row drives render) = (hits.filterMap (hit_row drives render)).map some := by
    intro hits hall
    induction hits with
    | nil => rfl
    | cons hit hits ih =>
      obtain ⟨row, hrow⟩ := hall hit List.mem_cons_self
      rw [List.map_cons, List.filterMap_cons_some hrow, List.map_cons, hrow,
        ih fun other hother => hall other (List.mem_cons_of_mem _ hother)]
  have hkept := keeps_selected_hits env sort hfits sort_column sort_desc filter_mode filters limit
  obtain ⟨-, dropped, hsplit, -⟩ := hkept
  rw [hrows]
  · refine List.Perm.map some (List.Perm.symm ?_)
    unfold collect_global_top_n_numeric
    refine (sort_rows_perm categories fold sort _ sort_column sort_desc []).trans ?_
    rw [resolve_candidates_to_rows, selected_hits, List.filterMap_map]
    exact List.Perm.refl _
  · intro hit hmem
    have hpassing := hsplit.subset (List.mem_append_left _ hmem)
    obtain ⟨drive, rec, -, -, -, hrow⟩ := passing_row env hfits filter_mode filters render hpassing
    exact ⟨_, hrow⟩

end selection

/-- The columns whose key is a number that the row shows as well. -/
def NUMBER_COLUMNS : List FieldId := [.Size, .SizeOnDisk, .Created, .Modified, .Accessed, .Descendants]

theorem toInt_toInt64 {value : UInt64} (hsmall : value.toNat < 2 ^ 63) : value.toInt64.toInt = value.toNat := by
  rw [← Int64.toInt_toBitVec, UInt64.toBitVec_toInt64, BitVec.toInt_eq_toNat_cond]
  exact if_pos (show 2 * value.toNat < 2 ^ 64 by omega)

theorem descendants_toInt (descendants : UInt32) : descendants.toUInt64.toInt64.toInt = descendants.toNat := by
  have hlt := descendants.toNat_lt
  rw [toInt_toInt64 (by rw [UInt32.toNat_toUInt64]; omega), UInt32.toNat_toUInt64]

/-- A column of numbers orders two rows as their keys are ordered. -/
theorem row_order_isLE_iff (categories : List (Str × List Str)) (fold : CaseFold) (render : Render)
    {sort_column : FieldId} (hcolumn : sort_column ∈ NUMBER_COLUMNS) {drive_a drive_b : DriveCompactIndex}
    (idx_a idx_b : UInt32) {rec_a rec_b : CompactRecord}
    (hsmall_a : rec_a.size.toNat < 2 ^ 63 ∧ rec_a.allocated.toNat < 2 ^ 63)
    (hsmall_b : rec_b.size.toNat < 2 ^ 63 ∧ rec_b.allocated.toNat < 2 ^ 63) :
    (row_order categories fold sort_column (build_row drive_a idx_a rec_a render) (build_row drive_b idx_b rec_b render)).isLE ↔
      (extract_sort_key rec_a sort_column drive_a).toInt ≤ (extract_sort_key rec_b sort_column drive_b).toInt := by
  simp only [NUMBER_COLUMNS, List.mem_cons, List.not_mem_nil, or_false] at hcolumn
  rcases hcolumn with rfl | rfl | rfl | rfl | rfl | rfl
  · change (compare rec_a.size rec_b.size).isLE ↔ rec_a.size.toInt64.toInt ≤ rec_b.size.toInt64.toInt
    rw [Std.isLE_compare, UInt64.le_iff_toNat_le, toInt_toInt64 hsmall_a.1, toInt_toInt64 hsmall_b.1, Int.ofNat_le]
  · change (compare rec_a.allocated rec_b.allocated).isLE ↔ rec_a.allocated.toInt64.toInt ≤ rec_b.allocated.toInt64.toInt
    rw [Std.isLE_compare, UInt64.le_iff_toNat_le, toInt_toInt64 hsmall_a.2, toInt_toInt64 hsmall_b.2, Int.ofNat_le]
  · change (compare rec_a.created rec_b.created).isLE ↔ rec_a.created.toInt ≤ rec_b.created.toInt
    rw [Std.isLE_compare, Int64.le_iff_toInt_le]
  · change (compare rec_a.modified rec_b.modified).isLE ↔ rec_a.modified.toInt ≤ rec_b.modified.toInt
    rw [Std.isLE_compare, Int64.le_iff_toInt_le]
  · change (compare rec_a.accessed rec_b.accessed).isLE ↔ rec_a.accessed.toInt ≤ rec_b.accessed.toInt
    rw [Std.isLE_compare, Int64.le_iff_toInt_le]
  · change (compare rec_a.descendants rec_b.descendants).isLE ↔
      rec_a.descendants.toUInt64.toInt64.toInt ≤ rec_b.descendants.toUInt64.toInt64.toInt
    rw [Std.isLE_compare, UInt32.le_iff_toNat_le, descendants_toInt, descendants_toInt, Int.ofNat_le]

/-- One row stands strictly before the other in the order of the column. -/
def sorts_before (categories : List (Str × List Str)) (fold : CaseFold) (sort_column : FieldId) (sort_desc : Bool)
    (row_a row_b : DisplayRow) : Prop := directed sort_desc (row_order categories fold sort_column) row_a row_b = .lt

/-- The row of one hit stands strictly before the row of the other. -/
def hit_before (categories : List (Str × List Str)) (fold : CaseFold) (render : Render)
    (drives : List DriveCompactIndex) (sort_column : FieldId) (sort_desc : Bool) (a b : Hit) : Prop :=
  ∃ row_a row_b, hit_row drives render a = some row_a ∧ hit_row drives render b = some row_b ∧
    sorts_before categories fold sort_column sort_desc row_a row_b

theorem not_sorts_before_iff {categories : List (Str × List Str)} {fold : CaseFold} {sort_column : FieldId} {sort_desc : Bool}
    {row_a row_b : DisplayRow} :
    ¬sorts_before categories fold sort_column sort_desc row_b row_a ↔
      (directed sort_desc (row_order categories fold sort_column) row_a row_b).isLE := by
  unfold sorts_before
  rw [cmp_flip (directed sort_desc (row_order categories fold sort_column)) row_a row_b]
  cases directed sort_desc (row_order categories fold sort_column) row_a row_b <;> simp

/-- With a limit, a column of numbers shows the first rows of all that the scan hands out. -/
theorem scan_top_n (env : Env) (categories : List (Str × List Str)) (fold : CaseFold) (render : Render)
    (sort : UnstableSort) (hfits : ∀ drive ∈ drives, drive.records.length < UInt32.size)
    (hsmall : ∀ drive ∈ drives, ∀ rec ∈ drive.records, rec.size.toNat < 2 ^ 63 ∧ rec.allocated.toNat < 2 ^ 63)
    {sort_column : FieldId} (hcolumn : sort_column ∈ NUMBER_COLUMNS) (sort_desc : Bool) (filter_mode : FilterMode)
    (filters : SearchFilters) (limit : Nat) :
    TopN (hit_row drives render) (sorts_before categories fold sort_column sort_desc)
      (hit_before categories fold render drives sort_column sort_desc) limit
      (search.collect_global_top_n_numeric env drives filter_mode filters)
      (collect_global_top_n_numeric env categories fold render sort drives limit sort_column sort_desc filter_mode filters) := by
  have hplain : field_to_attr_bit sort_column = 0 := by
    simp only [NUMBER_COLUMNS, List.mem_cons, List.not_mem_nil, or_false] at hcolumn
    rcases hcolumn with rfl | rfl | rfl | rfl | rfl | rfl <;> rfl
  apply TopN.of_keeps (keeps_selected_hits env sort hfits sort_column sort_desc filter_mode filters limit)
  · exact selected_rows env sort hfits sort_column sort_desc filter_mode filters categories fold render limit
  · exact (sort_rows_sorted categories fold sort _ hplain sort_desc).imp fun hle => not_sorts_before_iff.mpr hle
  · rintro a ha b hb hkey ⟨row_b, row_a, hrow_b, hrow_a, hbefore⟩
    obtain ⟨drive_a, rec_a, hdrive_a, hrec_a, hrecord_a, hrow_a'⟩ := passing_row env hfits filter_mode filters render ha
    obtain ⟨drive_b, rec_b, hdrive_b, hrec_b, hrecord_b, hrow_b'⟩ := passing_row env hfits filter_mode filters render hb
    obtain rfl := Option.some.inj (hrow_a.symm.trans hrow_a')
    obtain rfl := Option.some.inj (hrow_b.symm.trans hrow_b')
    have hsmall_a := hsmall drive_a hdrive_a rec_a hrec_a
    have hsmall_b := hsmall drive_b hdrive_b rec_b hrec_b
    have hle : (directed sort_desc (row_order categories fold sort_column) (build_row drive_a a.2 rec_a render)
        (build_row drive_b b.2 rec_b render)).isLE := by
      unfold hit_key hit_sort_key at hkey
      rw [hrecord_a, hrecord_b] at hkey
      cases sort_desc with
      | false => exact (row_order_isLE_iff categories fold render hcolumn a.2 b.2 hsmall_a hsmall_b).mpr hkey
      | true =>
        have hback := (row_order_isLE_iff categories fold render hcolumn b.2 a.2 hsmall_b hsmall_a).mpr (Int.neg_le_neg_iff.mp hkey)
        rw [cmp_flip (row_order categories fold sort_column)] at hback
        exact hback
    exact not_sorts_before_iff.mpr hle hbefore

/-- A row tells the slot, and on drives with letters of their own the drive. -/
theorem hit_row_injective (hletters : (drives.map (·.letter)).Nodup) (render : Render)
    (a b : Hit) (row : DisplayRow) (ha : hit_row drives render a = some row) (hb : hit_row drives render b = some row) : a = b := by
  have hparts : ∀ {hit : Hit}, hit_row drives render hit = some row →
      row.record_index = hit.2 ∧ (drives.map (·.letter))[hit.1]? = some row.drive := by
    intro hit h
    obtain ⟨drive, hget, h⟩ := Option.bind_eq_some_iff.mp h
    obtain ⟨rec, -, h⟩ := Option.bind_eq_some_iff.mp h
    split at h
    · cases h
    · cases h
      exact ⟨rfl, by rw [List.getElem?_map, hget]; rfl⟩
  obtain ⟨hindex, hletter⟩ := hparts ha
  obtain ⟨hindex', hletter'⟩ := hparts hb
  have hdrive : a.1 = b.1 := by
    have hlt := (List.getElem?_eq_some_iff.mp hletter).1
    exact (List.getElem?_inj hlt hletters).mp (hletter.trans hletter'.symm)
  exact Prod.ext hdrive (hindex.symm.trans hindex')

section optimal

variable (env : Env) (categories : List (Str × List Str)) (fold : CaseFold) (render : Render) (sort : UnstableSort)
  (hserved : ∀ drive ∈ drives, Served env drive)
  (hsmall : ∀ drive ∈ drives, ∀ rec ∈ drive.records, rec.size.toNat < 2 ^ 63 ∧ rec.allocated.toNat < 2 ^ 63)
  {sort_column : FieldId} (hcolumn : sort_column ∈ NUMBER_COLUMNS) (sort_desc : Bool) (filter_mode : FilterMode)
  (filters : SearchFilters)

/-- Under the limit the rows are the first ones of the passing records. -/
def Optimal (drives : List DriveCompactIndex) (sort_column : FieldId) (limit : Nat) : Prop :=
  TopN (hit_row drives render) (sorts_before categories fold sort_column sort_desc)
    (hit_before categories fold render drives sort_column sort_desc) limit (passing_hits env drives filter_mode filters)
    (collect_global_top_n_numeric env categories fold render sort drives limit sort_column sort_desc filter_mode filters)

include hserved hsmall hcolumn

/-- The best of the passing records are shown where the scan hands out these records; where the letters
are distinct, the rows of an unlimited query tell them apart. -/
theorem optimal_of_perm (hperm : (search.collect_global_top_n_numeric env drives filter_mode filters).Perm
    (passing_hits env drives filter_mode filters)) (limit : Nat) :
    Optimal env categories fold render sort sort_desc filter_mode filters drives sort_column limit :=
  (scan_top_n env categories fold render sort (fun drive hdrive => (hserved drive hdrive).lt_size) hsmall hcolumn sort_desc
    filter_mode filters limit).of_perm hperm

theorem perm_of_optimal (hletters : (drives.map (·.letter)).Nodup)
    (hoptimal : ∀ limit, Optimal env categories fold render sort sort_desc filter_mode filters drives sort_column limit) :
    (search.collect_global_top_n_numeric env drives filter_mode filters).Perm (passing_hits env drives filter_mode filters) := by
  obtain ⟨limit, hlimit⟩ : ∃ limit, limit = max (search.collect_global_top_n_numeric env drives filter_mode filters).length
    (passing_hits env drives filter_mode filters).length := ⟨_, rfl⟩
  have hscan := scan_top_n env categories fold render sort (fun drive hdrive => (hserved drive hdrive).lt_size) hsmall hcolumn sort_desc
    filter_mode filters limit
  refine perm_of_rows (hit_row_injective hletters render) ?_ ?_ (hscan.rows_of_all (by omega)) ((hoptimal limit).rows_of_all (by omega))
  · exact nodup_collect_resolved fun drive hdrive => nodup_scan_drive_candidates (hserved drive hdrive) filters filter_mode _
  · exact nodup_collect_resolved fun drive hdrive => nodup_filter_slots (hserved drive hdrive).lt_size _

/-- The first rows of the passing records are shown under every limit, whatever drive they are on, if the
extension tables that serve the query are exact; where no two drives share a letter, only then. -/
theorem numeric_top_n_optimal_iff :
    ((filters.is_ext_only = true → filter_mode ≠ .DirsOnly → ∀ drive ∈ drives,
        TableExact env drive (filters.resolve_ext_ids_for_drive env drive) filter_mode) →
      ∀ limit, Optimal env categories fold render sort sort_desc filter_mode filters drives sort_column limit) ∧
    ((drives.map (·.letter)).Nodup →
      (∀ limit, Optimal env categories fold render sort sort_desc filter_mode filters drives sort_column limit) →
      filters.is_ext_only = true → filter_mode ≠ .DirsOnly → ∀ drive ∈ drives,
        TableExact env drive (filters.resolve_ext_ids_for_drive env drive) filter_mode) := by
  have hexact := scan_perm_passing_iff hserved filter_mode filters
  constructor
  · exact fun h => optimal_of_perm env categories fold render sort hserved hsmall hcolumn sort_desc filter_mode filters (hexact.mpr h)
  · exact fun hletters h => hexact.mp
      (perm_of_optimal env categories fold render sort hserved hsmall hcolumn sort_desc filter_mode filters hletters h)

end optimal

/-- The volume with one archive, as two drives. -/
def zip_drives : List DriveCompactIndex := [zip_drive, { zip_drive with letter := 'D' }]

theorem zip_drives_served : ∀ drive ∈ zip_drives, Served sample_env drive := by
  intro drive hdrive
  simp only [zip_drives, List.mem_cons, List.not_mem_nil, or_false] at hdrive
  rcases hdrive with rfl | rfl
  · exact ⟨_, _, _, zip_mft_wellFormed, zip_drive_reachable⟩
  · exact ⟨'D', _, _, zip_mft_wellFormed, Reachable.start (roomy_build (by decide) _ _ _)⟩

theorem zip_drives_small : ∀ drive ∈ zip_drives, ∀ rec ∈ drive.records, rec.size.toNat < 2 ^ 63 ∧ rec.allocated.toNat < 2 ^ 63 := by
  intro drive hdrive rec hrec
  have hrec : rec ∈ zip_drive.records := by
    simp only [zip_drives, List.mem_cons, List.not_mem_nil, or_false] at hdrive
    rcases hdrive with rfl | rfl <;> exact hrec
  have hsize : rec.core.size = zip_row.size ∧ rec.core.allocated = zip_row.allocated := by rw [zip_drive_row hrec]; exact ⟨rfl, rfl⟩
  exact ⟨by rw [show rec.size = 0 from hsize.1]; decide, by rw [show rec.allocated = 0 from hsize.2]; decide⟩

/-- Archives on both drives, by size. -/
theorem numeric_top_n_optimal_iff_zip :
    Optimal sample_env [] sample_fold (fun _ => []) .stable true .All (zip_filters none) zip_drives .Size 1 := by
  refine (numeric_top_n_optimal_iff sample_env [] sample_fold (fun _ => []) .stable zip_drives_served zip_drives_small
    (by decide) true .All (zip_filters none)).1 ?_ 1
  intro _ _ drive hdrive
  obtain ⟨ids, hframe⟩ := resolve_ext_ids_for_drive_frame (zip_filters none) sample_env drive
  have hids : ((zip_filters none).resolve_ext_ids_for_drive sample_env drive).resolved_ext_ids = [1] := by
    simp only [zip_drives, List.mem_cons, List.not_mem_nil, or_false] at hdrive
    rcases hdrive with rfl | rfl <;> exact zip_drive_ids none
  constructor
  · rw [hframe]
    simp [toggles_accept, zip_filters]
  · intro hnone
    rw [hids] at hnone
    cases hnone

/-- Ill-formed names are asked for and no record passes, but the extension table hands one out. -/
theorem numeric_top_n_shows_rejected : passing_hits sample_env [zip_drive] .All (zip_filters (some true)) = [] ∧
    ¬ Optimal sample_env [] sample_fold (fun _ => []) .stable true .All (zip_filters (some true)) [zip_drive] .Size 1 := by
  have hserved : ∀ drive ∈ [zip_drive], Served sample_env drive := fun drive hdrive =>
    zip_drives_served drive (List.mem_of_mem_head? (List.mem_singleton.mp hdrive ▸ rfl))
  have hsmall : ∀ drive ∈ [zip_drive], ∀ rec ∈ drive.records, rec.size.toNat < 2 ^ 63 ∧ rec.allocated.toNat < 2 ^ 63 :=
    fun drive hdrive => zip_drives_small drive (List.mem_of_mem_head? (List.mem_singleton.mp hdrive ▸ rfl))
  obtain ⟨ids, hframe⟩ := resolve_ext_ids_for_drive_frame (zip_filters (some true)) sample_env zip_drive
  have hids := zip_drive_ids (some true)
  rw [hframe] at hids
  obtain rfl : ids = [1] := hids
  have hnone : passing_hits sample_env [zip_drive] .All (zip_filters (some true)) = [] := by
    rw [List.eq_nil_iff_forall_not_mem]
    intro hit hhit
    obtain ⟨drive, hdrive, rec, hrec, hpasses⟩ := (mem_passing_hits hserved .All _).mp hhit
    obtain rfl : drive = zip_drive := List.mem_singleton.mp (List.mem_of_getElem? hdrive)
    rw [hframe, record_passes, matches_record_of_ext_only (by decide), zip_rejected (List.mem_of_getElem? hrec)] at hpasses
    simp at hpasses
  refine ⟨hnone, fun hoptimal => ?_⟩
  have hscan := scan_top_n sample_env [] sample_fold (fun _ => []) .stable (fun drive hdrive => (hserved drive hdrive).lt_size) hsmall
    (show .Size ∈ NUMBER_COLUMNS by decide) true .All (zip_filters (some true)) 1
  have hlisted : ((0, 0) : Hit) ∈ search.collect_global_top_n_numeric sample_env [zip_drive] .All (zip_filters (some true)) := by
    refine mem_collect_resolved.mpr ⟨zip_drive, rfl, ?_⟩
    rw [hframe]
    exact zip_listed
  have hpos := List.length_pos_of_mem hlisted
  have hempty := hoptimal.length
  rw [hscan.length, hnone, List.length_nil] at hempty
  omega

/-- A drive whose files have these sizes. -/
def sized_drive (letter : Char) (sizes : List UInt64) : DriveCompactIndex :=
  { bare_drive with
    letter := letter
    records := sizes.map fun size => { size, name_len := 1, parent_idx := NO_ENTRY }
    names := [0x61] }

def two_drives : List DriveCompactIndex := [sized_drive 'C' [3, 9], sized_drive 'D' [5]]

example : (search.collect_global_top_n_numeric sample_env two_drives .All {}).length = 3 := by decide

end bounded

end uffs.search
