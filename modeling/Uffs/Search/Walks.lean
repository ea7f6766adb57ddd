import Uffs.Search.ExtScan

open uffs.lib uffs.mft uffs.text uffs.bloom uffs.compact uffs.usn

namespace uffs.search

/-- Slots in the order of their folded names. Slots with equal names may come out in any order;
here they keep theirs. -/
def sort_indices_by_name (indices : List UInt32) (drive : DriveCompactIndex) (desc : Bool) : List UInt32 :=
  indices.mergeSort fun idx_a idx_b =>
    let name_of (idx : UInt32) : Str := (drive.records[idx.toNat]?.map fun rec => rec.name drive.names).getD []
    let ord := drive.fold.cmp_str (name_of idx_a) (name_of idx_b)
    (if desc then ord.swap else ord).isLE

/-- Live slots without a parent. -/
def root_slots (drive : DriveCompactIndex) (desc : Bool) : List UInt32 :=
  let roots := (List.range drive.records.length).filter fun idx =>
    drive.records[idx]?.any fun rec => rec.parent_idx == NO_ENTRY && rec.name_len != 0
  sort_indices_by_name (roots.map len_to_u32) drive desc

/-- The children of a slot in the order of their names. -/
def sorted_children (drive : DriveCompactIndex) (desc : Bool) (idx : UInt32) : List UInt32 :=
  sort_indices_by_name (drive.children_of idx) drive desc

/-- Fast "is this record a directory" lookup by slot. -/
def is_dir (drive : DriveCompactIndex) (idx : UInt32) : Bool :=
  drive.records[idx.toNat]?.any fun rec => rec.is_directory

/-- The slot has a name that is text. -/
def is_named (drive : DriveCompactIndex) (idx : UInt32) : Bool :=
  drive.records[idx.toNat]?.any fun rec => !(rec.name drive.names).isEmpty

section walks

variable (env : Env) (categories : List (Str × List Str)) (fold : CaseFold) (render : Render)

/-- A walk hands out a slot if its name is text and its row passes the mode and the filters. -/
def emit_if_passes (drive : DriveCompactIndex) (filter_mode : FilterMode) (filters : SearchFilters) (idx : UInt32) : Bool :=
  drive.records[idx.toNat]?.any fun rec =>
    !(rec.name drive.names).isEmpty && passes_filter_mode rec.is_directory filter_mode &&
      row_passes_filters env categories (build_row drive idx rec render) filters fold

/-- The slots the depth-first walk pushes: the children, unless the slot has no name to show. -/
def path_successors (drive : DriveCompactIndex) (sort_desc : Bool) (idx : UInt32) : List UInt32 :=
  if is_named drive idx then sorted_children drive sort_desc idx else []

/-- The depth-first walk of one drive. A slot that fails the filters is left out, its children are
still visited. -/
def walk_tree_path_sorted (fuel : Nat) (drive : DriveCompactIndex) (sort_desc : Bool) (filter_mode : FilterMode)
    (filters : SearchFilters) : Option (List UInt32) :=
  (worklist.run (· ++ ·) (path_successors drive sort_desc) fuel (root_slots drive sort_desc)).map fun popped =>
    popped.filter (emit_if_passes env categories fold render drive filter_mode filters)

/-- The two-phase walk, ascending: the children of a directory, then its subdirectories. -/
def walk_drive_asc (fuel : Nat) (drive : DriveCompactIndex) (filter_mode : FilterMode) (filters : SearchFilters) :
    Option (List UInt32) :=
  let roots := root_slots drive false
  let subdirs (dir_idx : UInt32) : List UInt32 := (sorted_children drive false dir_idx).filter (is_dir drive)
  (worklist.run (· ++ ·) subdirs fuel (roots.filter (is_dir drive))).map fun dirs =>
    (roots ++ dirs.flatMap (sorted_children drive false)).filter
      (emit_if_passes env categories fold render drive filter_mode filters)

/-- Tasks of the descending walk. -/
inductive DescTask where
  | Emit (idx : UInt32)
  | Recurse (dir_idx : UInt32)
  deriving DecidableEq

/-- The slot a task hands out. -/
def DescTask.emitted : DescTask → Option UInt32
  | .Emit idx => some idx
  | .Recurse _ => none

/-- Subdirectories first, the last name on top; below them the slots of the level by name. -/
def desc_level (drive : DriveCompactIndex) (level : List UInt32) : List DescTask :=
  (level.filter (is_dir drive)).reverse.map DescTask.Recurse ++ level.map DescTask.Emit

def desc_successors (drive : DriveCompactIndex) : DescTask → List DescTask
  | .Emit _ => []
  | .Recurse dir_idx => desc_level drive (sorted_children drive false dir_idx)

/-- The two-phase walk, descending: the subdirectories of a directory, then its children. -/
def walk_drive_desc (fuel : Nat) (drive : DriveCompactIndex) (filter_mode : FilterMode) (filters : SearchFilters) :
    Option (List UInt32) :=
  (worklist.run (· ++ ·) (desc_successors drive) fuel (desc_level drive (root_slots drive false))).map fun tasks =>
    (tasks.filterMap DescTask.emitted).filter (emit_if_passes env categories fold render drive filter_mode filters)

end walks

/-- Slots that hang below a root through slots that are opened. -/
inductive Descends (drive : DriveCompactIndex) (opens : UInt32 → Bool) : UInt32 → Prop where
  | root {idx : UInt32} {rec : CompactRecord} (hget : drive.records[idx.toNat]? = some rec) (hlive : rec.Live)
      (hroot : rec.parent_idx = NO_ENTRY) : Descends drive opens idx
  | child {idx parent : UInt32} (h : Descends drive opens parent) (hopens : opens parent = true)
      (hchild : idx ∈ drive.children_of parent) : Descends drive opens idx

variable {drive : DriveCompactIndex}

theorem mem_sort_indices {indices : List UInt32} {desc : Bool} {idx : UInt32} :
    idx ∈ sort_indices_by_name indices drive desc ↔ idx ∈ indices := List.mem_mergeSort

theorem pushing_append {α : Type} : worklist.Pushing ((· ++ ·) : List α → List α → List α) := fun _ _ => List.Perm.refl _

theorem Descends.mono {opens opens' : UInt32 → Bool}
    (himp : ∀ idx, opens idx = true → opens' idx = true) {idx : UInt32} (h : Descends drive opens idx) :
    Descends drive opens' idx := by
  induction h with
  | root hget hlive hroot => exact Descends.root hget hlive hroot
  | child _ hopens hchild ih => exact Descends.child ih (himp _ hopens) hchild

theorem mem_root_slots (hrecords : drive.records.length < UInt32.size) {desc : Bool} {idx : UInt32} :
    idx ∈ root_slots drive desc ↔ ∃ rec, drive.records[idx.toNat]? = some rec ∧ rec.Live ∧ rec.parent_idx = NO_ENTRY := by
  simp only [root_slots, mem_sort_indices, List.mem_map, List.mem_filter, List.mem_range, Option.any_eq_true,
    Bool.and_eq_true, beq_iff_eq, bne_iff_ne]
  constructor
  · rintro ⟨i, ⟨hi, rec, hget, hroot, hlive⟩, rfl⟩
    rw [len_to_u32_toNat (by omega)]
    exact ⟨rec, hget, hlive, hroot⟩
  · rintro ⟨rec, hget, hlive, hroot⟩
    exact ⟨idx.toNat, ⟨(List.getElem?_eq_some_iff.mp hget).1, rec, hget, hroot, hlive⟩, len_to_u32_of_toNat idx⟩

theorem mem_desc_level {level : List UInt32} {task : DescTask} :
    task ∈ desc_level drive level ↔
      (∃ d ∈ level, is_dir drive d = true ∧ task = .Recurse d) ∨ ∃ c ∈ level, task = .Emit c := by
  simp only [desc_level, List.mem_append, List.mem_map, List.mem_reverse, List.mem_filter, and_assoc, @eq_comm _ task]

/-- The parent of a slot. -/
def slot_parent (drive : DriveCompactIndex) (idx : UInt32) : Option UInt32 :=
  drive.records[idx.toNat]?.bind fun rec => if rec.parent_idx = NO_ENTRY then none else some rec.parent_idx

section overlay

variable {base : List CompactRecord} {base_names : List UInt8}
  (hinv : OverlayInv drive base base_names) (hroomy : Roomy drive)

include hinv hroomy

theorem slot_parent_of_child {idx parent : UInt32} (hparent : parent.toNat < drive.records.length)
    (hchild : idx ∈ drive.children_of parent) :
    idx.toNat < drive.records.length ∧ slot_parent drive idx = some parent := by
  obtain ⟨rec, hget, rfl, -⟩ := children_of_sound hinv hroomy hchild
  have hne : rec.parent_idx ≠ NO_ENTRY := by
    intro heq
    unfold Roomy at hroomy
    rw [heq] at hparent
    omega
  exact ⟨(List.getElem?_eq_some_iff.mp hget).1, by simp [slot_parent, hget, hne]⟩

variable {idx : UInt32} {next : UInt32 → List UInt32}

theorem Descends.lt_length {opens : UInt32 → Bool} (h : Descends drive opens idx) : idx.toNat < drive.records.length := by
  induction h with
  | root hget _ _ => exact (List.getElem?_eq_some_iff.mp hget).1
  | child _ _ hchild ih => exact (slot_parent_of_child hinv hroomy ih hchild).1

/-- A slot has one parent, so that two ways down to it open the same slots. -/
theorem Descends.both {opens opens' : UInt32 → Bool} (h : Descends drive opens idx) (h' : Descends drive opens' idx) :
    Descends drive (fun i => opens i && opens' i) idx := by
  induction h with
  | root hget hlive hroot => exact Descends.root hget hlive hroot
  | child h hopens hchild ih =>
    obtain ⟨-, hparent⟩ := slot_parent_of_child hinv hroomy (h.lt_length hinv hroomy) hchild
    cases h' with
    | root hget _ hroot => simp [slot_parent, hget, hroot] at hparent
    | child h' hopens' hchild' =>
      obtain ⟨-, hparent'⟩ := slot_parent_of_child hinv hroomy (h'.lt_length hinv hroomy) hchild'
      obtain rfl := Option.some.inj (hparent.symm.trans hparent')
      exact Descends.child (ih h') (by simp [hopens, hopens']) hchild

theorem acc_of_children (hnext : ∀ p, ∀ c ∈ next p, c ∈ drive.children_of p) (hlt : idx.toNat < drive.records.length)
    (hacc : Acc (fun c p => slot_parent drive c = some p) idx) : Acc (worklist.Pushes next) idx := by
  induction hacc with
  | intro p _ ih =>
    constructor
    intro c hc
    obtain ⟨hc_lt, hparent⟩ := slot_parent_of_child hinv hroomy hlt (hnext p c hc)
    exact ih c hparent hc_lt

/-- Below the roots there is no cycle. -/
theorem acc_of_root (hnext : ∀ p, ∀ c ∈ next p, c ∈ drive.children_of p) {desc : Bool} (hroot : idx ∈ root_slots drive desc) :
    Acc (worklist.Pushes next) idx := by
  obtain ⟨rec, hget, -, hparent⟩ := (mem_root_slots hroomy.lt_size).mp hroot
  apply acc_of_children hinv hroomy hnext (List.getElem?_eq_some_iff.mp hget).1
  exact worklist.acc_root (by simp [slot_parent, hget, hparent])

omit hinv in
/-- What comes up hangs below the roots through slots that are opened, and is entered itself. -/
theorem reaches_iff {opens enters : UInt32 → Bool} {roots : List UInt32} {desc : Bool}
    (hroots : ∀ r, r ∈ roots ↔ r ∈ root_slots drive desc ∧ enters r = true) (hopens : ∀ p, opens p = true → enters p = true)
    (hnext : ∀ p c, enters p = true → (c ∈ next p ↔ opens p = true ∧ c ∈ drive.children_of p ∧ enters c = true)) :
    (∃ r ∈ roots, Relation.ReflTransGen (worklist.Pushes next) idx r) ↔ Descends drive opens idx ∧ enters idx = true := by
  constructor
  · rintro ⟨r, hr, hreach⟩
    obtain ⟨hr, henters⟩ := (hroots r).mp hr
    induction hreach using Relation.ReflTransGen.head_induction_on with
    | refl =>
      obtain ⟨rec, hget, hlive, hroot⟩ := (mem_root_slots hroomy.lt_size).mp hr
      exact ⟨Descends.root hget hlive hroot, henters⟩
    | head hstep _ ih =>
      obtain ⟨hopen, hchild, henter⟩ := (hnext _ _ ih.2).mp hstep
      exact ⟨Descends.child ih.1 hopen hchild, henter⟩
  · rintro ⟨h, henter⟩
    induction h with
    | root hget hlive hroot =>
      refine ⟨_, (hroots _).mpr ⟨?_, henter⟩, Relation.ReflTransGen.refl⟩
      exact (mem_root_slots hroomy.lt_size).mpr ⟨_, hget, hlive, hroot⟩
    | child _ hopen hchild ih =>
      obtain ⟨r, hr, hreach⟩ := ih (hopens _ hopen)
      exact ⟨r, hr, Relation.ReflTransGen.head ((hnext _ _ (hopens _ hopen)).mpr ⟨hopen, hchild, henter⟩) hreach⟩

omit hinv in
theorem reaches_root_iff {opens : UInt32 → Bool} {desc : Bool}
    (hnext : ∀ p c, c ∈ next p ↔ opens p = true ∧ c ∈ drive.children_of p) :
    (∃ r ∈ root_slots drive desc, Relation.ReflTransGen (worklist.Pushes next) idx r) ↔ Descends drive opens idx := by
  rw [@reaches_iff drive hroomy idx next opens (fun _ => true) (root_slots drive desc) desc (by simp) (fun _ _ => rfl)
    (by simp [hnext]), and_iff_left rfl]

omit hinv in
/-- A directory is opened exactly if it hangs below the roots through directories. -/
theorem reaches_dir_iff (hnext : ∀ p c, c ∈ next p ↔ c ∈ drive.children_of p ∧ is_dir drive c = true) :
    (∃ r ∈ (root_slots drive false).filter (is_dir drive), Relation.ReflTransGen (worklist.Pushes next) idx r) ↔
      Descends drive (is_dir drive) idx ∧ is_dir drive idx = true := by
  apply reaches_iff hroomy (fun r => List.mem_filter) fun _ hdir => hdir
  intro p c hdir
  rw [hnext, and_iff_right hdir]

variable (env : Env) (categories : List (Str × List Str)) (fold : CaseFold) (render : Render)
  (filter_mode : FilterMode) (filters : SearchFilters)

/-- The depth-first walk ends and hands out what hangs below the roots through named slots. -/
theorem walk_tree_path_sorted_spec (sort_desc : Bool) :
    ∃ enough, ∀ fuel, enough ≤ fuel → ∃ slots,
      walk_tree_path_sorted env categories fold render fuel drive sort_desc filter_mode filters = some slots ∧
      ∀ c, c ∈ slots ↔ Descends drive (is_named drive) c ∧
        emit_if_passes env categories fold render drive filter_mode filters c = true := by
  have hnext : ∀ p c, c ∈ path_successors drive sort_desc p ↔ is_named drive p = true ∧ c ∈ drive.children_of p := by
    intro p c
    unfold path_successors
    split
    next hnamed => simp [hnamed, sorted_children, mem_sort_indices]
    next hnamed => simp [hnamed]
  have hacc : ∀ a ∈ root_slots drive sort_desc, Acc (worklist.Pushes (path_successors drive sort_desc)) a :=
    fun a ha => acc_of_root hinv hroomy (fun p c hc => ((hnext p c).mp hc).2) ha
  obtain ⟨enough, hrun⟩ := worklist.run_reaches pushing_append hacc
  refine ⟨enough, fun fuel hle => ?_⟩
  obtain ⟨popped, hpopped, hmem⟩ := hrun fuel hle
  refine ⟨_, by rw [walk_tree_path_sorted, hpopped, Option.map_some], fun c => ?_⟩
  rw [List.mem_filter, hmem, reaches_root_iff hroomy hnext]

omit hinv in
theorem descends_dir_iff :
    Descends drive (is_dir drive) idx ↔ idx ∈ root_slots drive false ∨
      ∃ p, (Descends drive (is_dir drive) p ∧ is_dir drive p = true) ∧ idx ∈ drive.children_of p := by
  constructor
  · intro h
    cases h with
    | root hget hlive hroot => exact Or.inl ((mem_root_slots hroomy.lt_size).mpr ⟨_, hget, hlive, hroot⟩)
    | child h hopens hchild => exact Or.inr ⟨_, ⟨h, hopens⟩, hchild⟩
  · rintro (hroot | ⟨p, ⟨h, hopens⟩, hchild⟩)
    · obtain ⟨rec, hget, hlive, hroot⟩ := (mem_root_slots hroomy.lt_size).mp hroot
      exact Descends.root hget hlive hroot
    · exact Descends.child h hopens hchild

/-- The ascending walk ends and hands out what hangs below the roots through directories. -/
theorem walk_drive_asc_spec :
    ∃ enough, ∀ fuel, enough ≤ fuel → ∃ slots,
      walk_drive_asc env categories fold render fuel drive filter_mode filters = some slots ∧
      ∀ c, c ∈ slots ↔ Descends drive (is_dir drive) c ∧
        emit_if_passes env categories fold render drive filter_mode filters c = true := by
  have hnext : ∀ p c, c ∈ (sorted_children drive false p).filter (is_dir drive) ↔
      c ∈ drive.children_of p ∧ is_dir drive c = true := by
    intro p c
    rw [List.mem_filter, sorted_children, mem_sort_indices]
  have hacc : ∀ a ∈ (root_slots drive false).filter (is_dir drive),
      Acc (worklist.Pushes fun p => (sorted_children drive false p).filter (is_dir drive)) a :=
    fun a ha => acc_of_root hinv hroomy (fun p c hc => ((hnext p c).mp hc).1) (List.mem_filter.mp ha).1
  obtain ⟨enough, hrun⟩ := worklist.run_reaches pushing_append hacc
  refine ⟨enough, fun fuel hle => ?_⟩
  obtain ⟨dirs, hdirs, hmem⟩ := hrun fuel hle
  refine ⟨_, by rw [walk_drive_asc, hdirs, Option.map_some], fun c => ?_⟩
  have hopened : ∀ d, d ∈ dirs ↔ Descends drive (is_dir drive) d ∧ is_dir drive d = true :=
    fun d => (hmem d).trans (reaches_dir_iff hroomy hnext)
  rw [List.mem_filter, List.mem_append, List.mem_flatMap, descends_dir_iff hroomy]
  simp only [hopened, sorted_children, mem_sort_indices]

omit hinv hroomy in
theorem acc_emit (idx : UInt32) : Acc (worklist.Pushes (desc_successors drive)) (.Emit idx) :=
  ⟨_, fun _ htask => absurd htask List.not_mem_nil⟩

omit hinv hroomy in
theorem acc_recurse (hacc : Acc (worklist.Pushes fun p => (sorted_children drive false p).filter (is_dir drive)) idx) :
    Acc (worklist.Pushes (desc_successors drive)) (.Recurse idx) := by
  induction hacc with
  | intro p _ ih =>
    constructor
    intro task htask
    rcases mem_desc_level.mp htask with ⟨d, hd, hdir, rfl⟩ | ⟨c, -, rfl⟩
    · exact ih d (List.mem_filter.mpr ⟨hd, hdir⟩)
    · exact acc_emit c

omit hinv in
/-- The tasks that come up: a slot is handed out where it hangs below the roots through directories,
and opened if it is a directory itself. -/
theorem desc_reaches_iff :
    (∃ r ∈ desc_level drive (root_slots drive false), Relation.ReflTransGen (worklist.Pushes (desc_successors drive)) (.Emit idx) r) ↔
      Descends drive (is_dir drive) idx := by
  have hchildren : ∀ p c, c ∈ sorted_children drive false p ↔ c ∈ drive.children_of p := fun p c => mem_sort_indices
  constructor
  · rintro ⟨r, hr, hreach⟩
    have hgood : ∀ task, Relation.ReflTransGen (worklist.Pushes (desc_successors drive)) task r →
        (∀ c, task = .Emit c → Descends drive (is_dir drive) c) ∧
          ∀ d, task = .Recurse d → Descends drive (is_dir drive) d ∧ is_dir drive d = true := by
      intro task hreach
      induction hreach using Relation.ReflTransGen.head_induction_on with
      | refl =>
        have hdescends := fun c (hc : c ∈ root_slots drive false) => (descends_dir_iff hroomy).mpr (Or.inl hc)
        rcases mem_desc_level.mp hr with ⟨d, hd, hdir, rfl⟩ | ⟨c, hc, rfl⟩
        · exact ⟨by simp, by simpa using ⟨hdescends d hd, hdir⟩⟩
        · exact ⟨by simpa using hdescends c hc, by simp⟩
      | @head task parent hstep _ ih =>
        cases parent with
        | Emit c => cases hstep
        | Recurse p =>
          obtain ⟨hp, hopens⟩ := ih.2 p rfl
          have hdescends := fun c hc => Descends.child hp hopens ((hchildren p c).mp hc)
          rcases mem_desc_level.mp hstep with ⟨d, hd, hdir, rfl⟩ | ⟨c, hc, rfl⟩
          · exact ⟨by simp, by simpa using ⟨hdescends d hd, hdir⟩⟩
          · exact ⟨by simpa using hdescends c hc, by simp⟩
    exact (hgood _ hreach).1 idx rfl
  · intro h
    -- with the slot as a task of its own, and as a directory to open
    have hboth : (∃ r ∈ desc_level drive (root_slots drive false),
          Relation.ReflTransGen (worklist.Pushes (desc_successors drive)) (.Emit idx) r) ∧
        (is_dir drive idx = true → ∃ r ∈ desc_level drive (root_slots drive false),
          Relation.ReflTransGen (worklist.Pushes (desc_successors drive)) (.Recurse idx) r) := by
      induction h with
      | root hget hlive hroot =>
        have hmem : _ ∈ root_slots drive false := (mem_root_slots hroomy.lt_size).mpr ⟨_, hget, hlive, hroot⟩
        refine ⟨⟨_, mem_desc_level.mpr (Or.inr ⟨_, hmem, rfl⟩), Relation.ReflTransGen.refl⟩, fun hdir => ?_⟩
        exact ⟨_, mem_desc_level.mpr (Or.inl ⟨_, hmem, hdir, rfl⟩), Relation.ReflTransGen.refl⟩
      | child _ hopens hchild ih =>
        obtain ⟨r, hr, hreach⟩ := ih.2 hopens
        have hmem := (hchildren _ _).mpr hchild
        refine ⟨⟨r, hr, Relation.ReflTransGen.head ?_ hreach⟩, fun hdir => ⟨r, hr, Relation.ReflTransGen.head ?_ hreach⟩⟩
        · exact mem_desc_level.mpr (Or.inr ⟨_, hmem, rfl⟩)
        · exact mem_desc_level.mpr (Or.inl ⟨_, hmem, hdir, rfl⟩)
    exact hboth.1

/-- The descending walk ends and hands out the same. -/
theorem walk_drive_desc_spec :
    ∃ enough, ∀ fuel, enough ≤ fuel → ∃ slots,
      walk_drive_desc env categories fold render fuel drive filter_mode filters = some slots ∧
      ∀ c, c ∈ slots ↔ Descends drive (is_dir drive) c ∧
        emit_if_passes env categories fold render drive filter_mode filters c = true := by
  have hchildren : ∀ p c, c ∈ sorted_children drive false p ↔ c ∈ drive.children_of p := fun p c => mem_sort_indices
  have hacc : ∀ task ∈ desc_level drive (root_slots drive false), Acc (worklist.Pushes (desc_successors drive)) task := by
    intro task htask
    rcases mem_desc_level.mp htask with ⟨d, hd, -, rfl⟩ | ⟨c, -, rfl⟩
    · exact acc_recurse (acc_of_root hinv hroomy (fun p c hc => (hchildren p c).mp (List.mem_filter.mp hc).1) hd)
    · exact acc_emit c
  obtain ⟨enough, hrun⟩ := worklist.run_reaches pushing_append hacc
  refine ⟨enough, fun fuel hle => ?_⟩
  obtain ⟨tasks, htasks, hmem⟩ := hrun fuel hle
  refine ⟨_, by rw [walk_drive_desc, htasks, Option.map_some], fun c => ?_⟩
  have hemits : c ∈ tasks.filterMap DescTask.emitted ↔ .Emit c ∈ tasks := by
    rw [List.mem_filterMap]
    constructor
    · rintro ⟨task, htask, hemitted⟩
      cases task with
      | Emit idx => exact Option.some.inj hemitted ▸ htask
      | Recurse d => cases hemitted
    · exact fun h => ⟨_, h, rfl⟩
  rw [List.mem_filter, hemits, hmem, desc_reaches_iff hroomy]

end overlay

end uffs.search
