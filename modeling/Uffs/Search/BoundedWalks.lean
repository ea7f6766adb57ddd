import Uffs.Lib.Preorder
import Uffs.Search.TopN

open uffs.lib uffs.mft uffs.text uffs.bloom uffs.compact

namespace uffs.search

/-! The two tree walks as they run, for a limited number of rows. -/

/-- The row of a slot. -/
def slot_row (drive : DriveCompactIndex) (render : Render) (idx : UInt32) : Option DisplayRow :=
  drive.records[idx.toNat]?.map fun rec => build_row drive idx rec render

def rows_of (drive : DriveCompactIndex) (render : Render) (slots : List UInt32) : List DisplayRow :=
  slots.filterMap (slot_row drive render)

/-- The subdirectories of a directory, by name. -/
def subdirs (drive : DriveCompactIndex) (dir_idx : UInt32) : List UInt32 :=
  (sorted_children drive false dir_idx).filter (is_dir drive)

/-- By drive and slot. -/
def hit_order : Hit → Hit → Ordering := compareLex (compareOn (·.1)) (compareOn (·.2))

namespace bounded

/-- Walk drive after drive, each for as many rows as are still wanted. -/
def walk_drives (walk : DriveCompactIndex → Nat → Option (List DisplayRow)) (limit : Nat)
    (order : List (DriveCompactIndex × Nat)) : Option (List DisplayRow) :=
  order.foldlM (fun output entry =>
    if limit ≤ output.length then some output else (walk entry.1 (limit - output.length)).map (output ++ ·)) []

section walks

variable (env : Env) (categories : List (Str × List Str)) (fold : CaseFold) (render : Render) (sort : UnstableSort)

/-- The depth-first walk. -/
def walk_tree_path_sorted (fuel : Nat) (drives : List DriveCompactIndex) (limit : Nat) (sort_desc : Bool)
    (filter_mode : FilterMode) (filters : SearchFilters) : Option (List DisplayRow) :=
  walk_drives (fun drive room =>
      (worklist.run_limited (path_successors drive sort_desc) (fun idx => [idx])
        (emit_if_passes env categories fold render drive filter_mode filters) room fuel (root_slots drive sort_desc) []).map
        (rows_of drive render))
    limit (drive_order drives sort_desc)

/-- The two-phase walk, ascending. -/
def walk_drive_asc (fuel : Nat) (drive : DriveCompactIndex) (roots : List UInt32) (limit : Nat) (filter_mode : FilterMode)
    (filters : SearchFilters) : Option (List UInt32) :=
  let passes := emit_if_passes env categories fold render drive filter_mode filters
  worklist.run_limited (subdirs drive) (sorted_children drive false) passes limit fuel (roots.filter (is_dir drive))
    (worklist.emit_each passes limit roots [])

/-- The two-phase walk, descending. -/
def walk_drive_desc (fuel : Nat) (drive : DriveCompactIndex) (roots : List UInt32) (limit : Nat) (filter_mode : FilterMode)
    (filters : SearchFilters) : Option (List UInt32) :=
  worklist.run_limited (desc_successors drive) (fun task => task.emitted.toList)
    (emit_if_passes env categories fold render drive filter_mode filters) limit fuel (desc_level drive roots) []

/-- Rows of the candidates of the extension table, sorted and cut. -/
def collect_path_only_via_ext_index (drives : List DriveCompactIndex) (limit : Nat) (sort_desc : Bool)
    (filter_mode : FilterMode) (filters : SearchFilters) : List DisplayRow :=
  let candidates := sort.run hit_order
    (collect_resolved env (fun drive resolved => scan_ext_fast_path drive resolved filter_mode) drives filters)
  let rows := candidates.filterMap fun hit => drives[hit.1]?.bind fun drive =>
    if is_named drive hit.2 then slot_row drive render hit.2 else none
  (sort_rows categories fold sort rows .PathOnly sort_desc []).take limit

def collect_path_only_sorted_top_n (fuel : Nat) (drives : List DriveCompactIndex) (limit : Nat) (sort_desc : Bool)
    (filter_mode : FilterMode) (filters : SearchFilters) : Option (List DisplayRow) :=
  if limit = 0 then some []
  else if ext_fast_path filters filter_mode then
    some (collect_path_only_via_ext_index env categories fold render sort drives limit sort_desc filter_mode filters)
  else
    walk_drives (fun drive room =>
        let roots := root_slots drive false
        (if sort_desc then walk_drive_desc env categories fold render fuel drive roots room filter_mode filters
          else walk_drive_asc env categories fold render fuel drive roots room filter_mode filters).map (rows_of drive render))
      limit (drive_order drives sort_desc)

end walks

end bounded

/-- The slots whose rows match. -/
def matching_slots (env : Env) (categories : List (Str × List Str)) (fold : CaseFold) (render : Render)
    (drive : DriveCompactIndex) (filter_mode : FilterMode) (filters : SearchFilters) : List UInt32 :=
  ((List.range drive.records.length).map len_to_u32).filter
    (emit_if_passes env categories fold render drive filter_mode filters)

section runs

variable {env : Env} {categories : List (Str × List Str)} {fold : CaseFold} {render : Render}
  {drive : DriveCompactIndex} {filter_mode : FilterMode} {filters : SearchFilters}

theorem slot_row_of_passes {idx : UInt32}
    (hpasses : emit_if_passes env categories fold render drive filter_mode filters idx = true) :
    ∃ row, slot_row drive render idx = some row := by
  obtain ⟨rec, hget, -⟩ := (emit_if_passes_iff env categories fold render filter_mode filters).mp hpasses
  exact ⟨_, by rw [slot_row, hget, Option.map_some]⟩

theorem slot_row_index {idx : UInt32} {row : DisplayRow} (hrow : slot_row drive render idx = some row) :
    row.record_index = idx := by
  obtain ⟨rec, -, rfl⟩ := Option.map_eq_some_iff.mp hrow
  rfl

/-- Slots whose rows pass can be cut before or after the rows are built. -/
theorem rows_of_take {slots : List UInt32}
    (hpass : ∀ idx ∈ slots, emit_if_passes env categories fold render drive filter_mode filters idx = true) (limit : Nat) :
    rows_of drive render (slots.take limit) = (rows_of drive render slots).take limit := by
  induction slots generalizing limit with
  | nil => simp [rows_of]
  | cons idx slots ih =>
    obtain ⟨row, hrow⟩ := slot_row_of_passes (hpass idx List.mem_cons_self)
    cases limit with
    | zero => rfl
    | succ limit =>
      have hrest := ih (fun i hi => hpass i (List.mem_cons_of_mem _ hi)) limit
      unfold rows_of at hrest ⊢
      rw [List.take_succ_cons, List.filterMap_cons_some hrow, List.filterMap_cons_some hrow, List.take_succ_cons, hrest]

/-- The rows of a walk over one drive are the first of its rows. -/
theorem walk_one_drive {walk : DriveCompactIndex → Nat → Option (List DisplayRow)} {rows : List DisplayRow}
    (hwalk : ∀ room, walk drive room = some (rows.take room)) (limit : Nat) (sort_desc : Bool) :
    bounded.walk_drives walk limit (drive_order [drive] sort_desc) = some (rows.take limit) := by
  have horder : drive_order [drive] sort_desc = [(drive, 0)] := by
    unfold drive_order
    exact List.mergeSort_singleton _
  rw [horder, bounded.walk_drives, List.foldlM_cons]
  cases limit with
  | zero => rfl
  | succ limit => simp [hwalk]

/-- What the depth-first walk of a drive hands out, limited or not. -/
theorem walk_tree_path_sorted_rows {sort_desc : Bool} {popped : List UInt32}
    (hpopped : worklist.Listing (path_successors drive sort_desc) (root_slots drive sort_desc) popped) :
    ∃ enough, ∀ fuel, enough ≤ fuel → ∀ limit,
      bounded.walk_tree_path_sorted env categories fold render fuel [drive] limit sort_desc filter_mode filters =
        some ((rows_of drive render
          (popped.filter (emit_if_passes env categories fold render drive filter_mode filters))).take limit) := by
  obtain ⟨enough, hrun⟩ := hpopped
  refine ⟨enough, fun fuel hle limit => ?_⟩
  apply walk_one_drive
  intro room
  rw [worklist.run_limited_eq (worklist.run_mono hrun hle) (Nat.zero_le _), Option.map_some, List.nil_append,
    List.flatMap_singleton', rows_of_take fun idx hidx => (List.mem_filter.mp hidx).2]

end runs

section desc

variable (drive : DriveCompactIndex)

/-- What tasks hand out. -/
def emitted_slots (tasks : List DescTask) : List UInt32 := tasks.flatMap fun task => task.emitted.toList

theorem emitted_slots_append (tasks tasks' : List DescTask) :
    emitted_slots (tasks ++ tasks') = emitted_slots tasks ++ emitted_slots tasks' := List.flatMap_append

theorem listing_emits (level : List UInt32) : ∃ tasks,
    worklist.Listing (desc_successors drive) (level.map DescTask.Emit) tasks ∧ emitted_slots tasks = level := by
  induction level with
  | nil => exact ⟨[], worklist.Listing.nil, rfl⟩
  | cons idx level ih =>
    obtain ⟨tasks, htasks, hemitted⟩ := ih
    have hfirst : worklist.Listing (desc_successors drive) [.Emit idx] [.Emit idx] := worklist.Listing.nil.item
    refine ⟨_, hfirst.append htasks, ?_⟩
    rw [emitted_slots_append, hemitted]
    rfl

/-- Directories that end open in the order of the one walk, and in the opposite order in the other. -/
def Mirrored (dirs : List UInt32) : Prop := ∃ opened tasks,
  worklist.Listing (subdirs drive) dirs opened ∧
    worklist.Listing (desc_successors drive) (dirs.reverse.map DescTask.Recurse) tasks ∧
    emitted_slots tasks = opened.reverse.flatMap (sorted_children drive false)

variable {drive}

theorem mirrored_of_items {dirs : List UInt32} (h : ∀ dir_idx ∈ dirs, Mirrored drive [dir_idx]) : Mirrored drive dirs := by
  induction dirs with
  | nil => exact ⟨[], [], worklist.Listing.nil, worklist.Listing.nil, rfl⟩
  | cons dir_idx dirs ih =>
    obtain ⟨opened, tasks, hopened, htasks, hemitted⟩ := h dir_idx List.mem_cons_self
    obtain ⟨opened', tasks', hopened', htasks', hemitted'⟩ := ih fun d hd => h d (List.mem_cons_of_mem _ hd)
    refine ⟨opened ++ opened', tasks' ++ tasks, hopened.append hopened', ?_, ?_⟩
    · rw [List.reverse_cons, List.map_append]
      exact htasks'.append htasks
    · rw [emitted_slots_append, hemitted, hemitted', List.reverse_append, List.flatMap_append]

theorem mirrored_item {dir_idx : UInt32} (hacc : Acc (worklist.Pushes (subdirs drive)) dir_idx) :
    Mirrored drive [dir_idx] := by
  induction hacc with
  | intro dir_idx _ ih =>
    obtain ⟨opened, tasks, hopened, htasks, hemitted⟩ := @mirrored_of_items drive (subdirs drive dir_idx) fun c hc => ih c hc
    obtain ⟨emits, hemits, hlevel⟩ := listing_emits drive (sorted_children drive false dir_idx)
    refine ⟨_, _, hopened.item, worklist.Listing.item (htasks.append hemits), ?_⟩
    change emitted_slots (tasks ++ emits) = _
    rw [emitted_slots_append, hemitted, hlevel, List.reverse_cons, List.flatMap_append, List.flatMap_singleton]

end desc

/-- The slots the two-phase walk looks at, from the directories it opens. -/
def path_only_slots (drive : DriveCompactIndex) (sort_desc : Bool) (opened : List UInt32) : List UInt32 :=
  if sort_desc then opened.reverse.flatMap (sorted_children drive false) ++ root_slots drive false
  else root_slots drive false ++ opened.flatMap (sorted_children drive false)

/-- What the two-phase walk of a drive hands out, limited or not. -/
theorem collect_path_only_sorted_rows (env : Env) (categories : List (Str × List Str)) (fold : CaseFold)
    (render : Render) (sort : UnstableSort) {drive : DriveCompactIndex} (filter_mode : FilterMode)
    {filters : SearchFilters} (hwalk : ext_fast_path filters filter_mode = false)
    (hacc : ∀ r ∈ root_slots drive false, Acc (worklist.Pushes (subdirs drive)) r) :
    ∃ opened, worklist.Listing (subdirs drive) ((root_slots drive false).filter (is_dir drive)) opened ∧
      ∀ sort_desc, ∃ enough, ∀ fuel, enough ≤ fuel → ∀ limit,
        bounded.collect_path_only_sorted_top_n env categories fold render sort fuel [drive] limit sort_desc filter_mode filters =
          some ((rows_of drive render ((path_only_slots drive sort_desc opened).filter
            (emit_if_passes env categories fold render drive filter_mode filters))).take limit) := by
  have hpass : ∀ slots : List UInt32, ∀ idx ∈ slots.filter (emit_if_passes env categories fold render drive filter_mode filters),
      emit_if_passes env categories fold render drive filter_mode filters idx = true := fun _ _ hidx => (List.mem_filter.mp hidx).2
  obtain ⟨opened, tasks, hopened, htasks, hmirror⟩ := mirrored_of_items fun r hr =>
    mirrored_item (hacc r (List.mem_of_mem_filter hr))
  obtain ⟨emits, hemits, hlevel⟩ := listing_emits drive (root_slots drive false)
  refine ⟨opened, hopened, fun sort_desc => ?_⟩
  cases sort_desc with
  | false =>
    obtain ⟨enough, hrun⟩ := hopened
    refine ⟨enough, fun fuel hle limit => ?_⟩
    unfold bounded.collect_path_only_sorted_top_n
    rw [hwalk, if_neg Bool.false_ne_true]
    split
    next hnone => rw [hnone, List.take_zero]
    next =>
      apply walk_one_drive
      intro room
      have hroots : (worklist.emit_each (emit_if_passes env categories fold render drive filter_mode filters) room
          (root_slots drive false) []).length ≤ room := by
        rw [worklist.emit_each_eq (Nat.zero_le _)]
        exact List.length_take_le _ _
      dsimp only
      rw [if_neg Bool.false_ne_true, bounded.walk_drive_asc, worklist.run_limited_eq (worklist.run_mono hrun hle) hroots,
        worklist.emit_each_eq (Nat.zero_le _), worklist.take_append_of_take, List.nil_append, ← List.filter_append,
        Option.map_some, rows_of_take (hpass _)]
      rfl
  | true =>
    obtain ⟨enough, hrun⟩ := htasks.append hemits
    refine ⟨enough, fun fuel hle limit => ?_⟩
    unfold bounded.collect_path_only_sorted_top_n
    rw [hwalk, if_neg Bool.false_ne_true]
    split
    next hnone => rw [hnone, List.take_zero]
    next =>
      apply walk_one_drive
      intro room
      dsimp only
      rw [if_pos rfl, bounded.walk_drive_desc, desc_level, worklist.run_limited_eq (worklist.run_mono hrun hle) (Nat.zero_le _),
        List.nil_append]
      change Option.map _ (some (((emitted_slots (tasks ++ emits)).filter _).take room)) = _
      rw [emitted_slots_append, hmirror, hlevel, Option.map_some, rows_of_take (hpass _)]
      rfl

end uffs.search
