import Uffs.Search.NamedTree

open uffs.lib uffs.mft uffs.text uffs.bloom uffs.compact uffs.usn

namespace uffs.search

/-! The depth-first walk against the sort by path. -/

section general

variable (env : Env) (categories : List (Str × List Str)) (fold : CaseFold) (render : Render) (sort : UnstableSort)
  (drive : DriveCompactIndex) (sort_desc : Bool) (filter_mode : FilterMode) (filters : SearchFilters)

/-- For every limit, the depth-first walk hands out the first of the sorted matching rows, up to the
order of rows with one path. -/
def PathWalkSorted : Prop :=
  ∃ enough, ∀ fuel, enough ≤ fuel → ∀ limit, ∃ rows,
    bounded.walk_tree_path_sorted env categories fold render fuel [drive] limit sort_desc filter_mode filters = some rows ∧
    FirstOf (·.path) limit rows (sorted_matches env categories fold render sort filter_mode filters drive .Path sort_desc)

/-- For every limit, the depth-first walk hands out the first of the sorted matching rows. -/
def PathWalkExact : Prop :=
  ∃ enough, ∀ fuel, enough ≤ fuel → ∀ limit,
    bounded.walk_tree_path_sorted env categories fold render fuel [drive] limit sort_desc filter_mode filters =
      some ((sorted_matches env categories fold render sort filter_mode filters drive .Path sort_desc).take limit)

/-- All that matches hangs below the roots by named slots, every tree is in the order of the paths,
and so are the roots with all that hangs below each. -/
structure PathTreesOrdered : Prop where
  hung : ∀ idx, emit_if_passes env categories fold render drive filter_mode filters idx = true →
    Descends drive (is_named drive) idx
  trees : ∀ r ∈ root_slots drive sort_desc, worklist.TreeOrdered (path_successors drive sort_desc)
    (InOrder env categories fold render filter_mode filters drive (·.path) sort_desc) r
  roots : (root_slots drive sort_desc).Pairwise (worklist.Leads (path_successors drive sort_desc)
    (InOrder env categories fold render filter_mode filters drive (·.path) sort_desc))

variable {env categories fold render drive sort_desc filter_mode filters}

theorem mem_path_successors {p c : UInt32} :
    c ∈ path_successors drive sort_desc p ↔ is_named drive p = true ∧ c ∈ drive.children_of p := by
  unfold path_successors
  split
  next hnamed => simp [hnamed, sorted_children, mem_sort_indices]
  next hnamed => simp [hnamed]

theorem path_successors_sublist (drive : DriveCompactIndex) (sort_desc : Bool) (p : UInt32) :
    (path_successors drive sort_desc p).Sublist (sorted_children drive sort_desc p) := by
  unfold path_successors
  split
  · exact List.Sublist.refl _
  · exact List.nil_sublist _

/-- On every drive that is served. -/
theorem path_walk_sorted_iff_trees (hserved : Served env drive) :
    PathWalkSorted env categories fold render sort drive sort_desc filter_mode filters ↔
      PathTreesOrdered env categories fold render drive sort_desc filter_mode filters := by
  obtain ⟨base, base_names, hinv, hroomy⟩ := hserved.overlay
  have hacc : ∀ a ∈ root_slots drive sort_desc, Acc (worklist.Pushes (path_successors drive sort_desc)) a := fun a ha =>
    acc_of_root hinv hroomy (fun p c hc => (mem_path_successors.mp hc).2) ha
  obtain ⟨popped, hlisting⟩ := worklist.exists_listing hacc
  have hnodup : popped.Nodup := nodup_walked hinv hroomy
    (fun p => ⟨sort_desc, path_successors_sublist drive sort_desc p⟩) (List.Sublist.refl _) hlisting
  refine Iff.trans (worklist.enough_iff (@walk_tree_path_sorted_rows env categories fold render drive filter_mode filters
    sort_desc popped hlisting)) ?_
  obtain ⟨fuel, hrun⟩ := hlisting
  have hmem : ∀ idx, idx ∈ popped ↔ Descends drive (is_named drive) idx := fun idx =>
    (worklist.mem_run_iff worklist.pushing_append hrun).trans
      (reaches_root_iff hroomy fun p c => mem_path_successors)
  rw [walked_first_iff sort (path_column categories fold) hroomy.lt_size hnodup, worklist.pairwise_run_iff hrun]
  simp only [hmem]
  exact ⟨fun h => ⟨h.1, h.2.1, h.2.2⟩, fun h => ⟨h.hung, h.trees, h.roots⟩⟩

end general

/-- What matches at or below the one slot counts for less, or descending for more, than what matches at
or below the other. -/
def CountsBefore (fold : CaseFold) (drive : DriveCompactIndex) (sort_desc : Bool) (matching : UInt32 → Bool) (u v : UInt32) :
    Prop :=
  ∀ a b text other, Counts fold drive u a text → Counts fold drive v b other → matching a = true → matching b = true →
    directed sort_desc compare text other = .lt

/-- At the top and in each directory the slots, listed by name, are in the order of what counts for
the matches at or below them; and descending, no match lies below another one. -/
structure PathNamesOrdered (fold : CaseFold) (drive : DriveCompactIndex) (sort_desc : Bool) (matching : UInt32 → Bool) :
    Prop where
  top : (root_slots drive sort_desc).Pairwise (CountsBefore fold drive sort_desc matching)
  level : ∀ p rec, drive.records[p.toNat]? = some rec → rec.Live →
    (sorted_children drive sort_desc p).Pairwise (CountsBefore fold drive sort_desc matching)
  nested : sort_desc = true → ∀ p a, matching p = true → Beneath drive a p → matching a = false

section named

variable {env : Env} {categories : List (Str × List Str)} {fold : CaseFold} {render : Render}
  {drive : DriveCompactIndex} {sort_desc : Bool} {filter_mode : FilterMode} {filters : SearchFilters}
  (htree : NamedTree fold drive)

include htree

theorem named_of_passes {idx : UInt32}
    (hpasses : emit_if_passes env categories fold render drive filter_mode filters idx = true) :
    ∃ rec name, Named drive idx rec name := by
  obtain ⟨rec, hget, hname, -⟩ := (emit_if_passes_iff env categories fold render filter_mode filters).mp hpasses
  obtain ⟨name, hnamed⟩ := htree.named hget (CompactRecord.live_of_name hname)
  exact ⟨rec, name, hnamed⟩

omit htree in
/-- The order of two matching slots by path is the order of their paths. -/
theorem in_path_order_iff {a b : UInt32}
    (ha : emit_if_passes env categories fold render drive filter_mode filters a = true)
    (hb : emit_if_passes env categories fold render drive filter_mode filters b = true) :
    InOrder env categories fold render filter_mode filters drive (·.path) sort_desc a b ↔
      (directed sort_desc (text_order fold) (slot_path drive render a) (slot_path drive render b)).isLE := by
  apply in_order_iff (fun {idx row} hrow => ?_) ha hb
  obtain ⟨rec, -, rfl⟩ := Option.map_eq_some_iff.mp hrow
  rfl

variable {base : List CompactRecord} {base_names : List UInt8} (hinv : OverlayInv drive base base_names) (hroomy : Roomy drive)

include hinv hroomy

/-- The walk opens all that a live slot hangs below. -/
theorem under_path_successors {a c : UInt32} (hc : c.toNat < drive.records.length) {rec : CompactRecord} {name : Str}
    (hnamed : Named drive a rec name) :
    worklist.Under (path_successors drive sort_desc) a c ↔ worklist.Under drive.children_of a c := by
  constructor
  · intro h
    exact Relation.ReflTransGen.mono (fun _ _ hpush => (mem_path_successors.mp hpush).2) _ _ h
  · intro h
    induction h using Relation.ReflTransGen.head_induction_on generalizing rec name with
    | refl => exact Relation.ReflTransGen.refl
    | head hstep hrest ih =>
      have hlt := under_lt_length hinv hroomy (fun _ _ hx => hx) hc hrest
      obtain ⟨rfl, hne⟩ := NamedTree.parent_of_listed hinv hroomy hlt hstep hnamed
      obtain ⟨prec, pname, hparent⟩ := htree.parent hnamed hne
      exact Relation.ReflTransGen.head (mem_path_successors.mpr ⟨hparent.is_named, hstep⟩) (ih hparent)

/-- A match is in order with one below it only in ascending order. -/
theorem in_path_order_nested (hfold : fold.Upcase) {p a : UInt32} (hp : p.toNat < drive.records.length)
    (hbelow : Beneath drive a p) (hshow : emit_if_passes env categories fold render drive filter_mode filters p = true)
    (hshow' : emit_if_passes env categories fold render drive filter_mode filters a = true) :
    InOrder env categories fold render filter_mode filters drive (·.path) sort_desc p a ↔ sort_desc = false := by
  obtain ⟨rec, name, hnamed⟩ := named_of_passes htree hshow'
  obtain ⟨rest, hrest, hpath⟩ := htree.slot_path_continued hinv hroomy render hp hbelow hnamed
  have hlt : text_order fold (slot_path drive render p) (slot_path drive render a) = .lt := by
    rw [hpath, opened_path]
    split
    · rw [List.append_assoc]
      exact text_order_continued hfold _ (List.append_ne_nil_of_right_ne_nil _ hrest)
    · exact text_order_continued hfold _ hrest
  rw [in_path_order_iff hshow hshow', directed, hlt]
  cases sort_desc <;> decide

/-- Trees that are compared by what counts lead one another by path exactly if what counts does. -/
theorem leads_iff_counts {u v : UInt32} (hu : u.toNat < drive.records.length) (hv : v.toNat < drive.records.length)
    (hmates : Mates fold drive render u v) :
    worklist.Leads (path_successors drive sort_desc)
        (InOrder env categories fold render filter_mode filters drive (·.path) sort_desc) u v ↔
      CountsBefore fold drive sort_desc (emit_if_passes env categories fold render drive filter_mode filters) u v := by
  have hpair : ∀ {a b text other}, Counts fold drive u a text → Counts fold drive v b other →
      emit_if_passes env categories fold render drive filter_mode filters a = true →
      emit_if_passes env categories fold render drive filter_mode filters b = true →
      (InOrder env categories fold render filter_mode filters drive (·.path) sort_desc a b ↔
        directed sort_desc compare text other = .lt) := by
    intro a b text other hcount hcount' hshow hshow'
    obtain ⟨rec, name, hnamed⟩ := named_of_passes htree hshow
    obtain ⟨rec', name', hnamed'⟩ := named_of_passes htree hshow'
    obtain ⟨horder, hstrict⟩ := hmates _ _ _ _ _ _ _ _ hcount hcount' hnamed hnamed'
    rw [in_path_order_iff hshow hshow', directed, directed, horder]
    generalize compare text other = ord at hstrict
    cases sort_desc <;> cases ord <;> simp_all
  constructor
  · intro h a b text other hcount hcount' hshow hshow'
    obtain ⟨rec, name, hnamed⟩ := named_of_passes htree hshow
    obtain ⟨rec', name', hnamed'⟩ := named_of_passes htree hshow'
    apply (hpair hcount hcount' hshow hshow').mp
    apply h
    · exact (under_path_successors htree hinv hroomy hu hnamed).mpr (under_iff_counts.mpr ⟨text, hcount⟩)
    · exact (under_path_successors htree hinv hroomy hv hnamed').mpr (under_iff_counts.mpr ⟨other, hcount'⟩)
  · intro h a b ha hb hshow hshow'
    obtain ⟨rec, name, hnamed⟩ := named_of_passes htree hshow
    obtain ⟨rec', name', hnamed'⟩ := named_of_passes htree hshow'
    obtain ⟨text, hcount⟩ := under_iff_counts.mp ((under_path_successors htree hinv hroomy hu hnamed).mp ha)
    obtain ⟨other, hcount'⟩ := under_iff_counts.mp ((under_path_successors htree hinv hroomy hv hnamed').mp hb)
    exact (hpair hcount hcount' hshow hshow').mpr (h a b text other hcount hcount' hshow hshow') hshow hshow'

/-- The trees of a list of slots, any two of which are compared by what counts. -/
theorem pairwise_leads_iff {slots : List UInt32} (hlt : ∀ u ∈ slots, u.toNat < drive.records.length) (hnodup : slots.Nodup)
    (hmates : ∀ u ∈ slots, ∀ v ∈ slots, u ≠ v → Mates fold drive render u v) :
    slots.Pairwise (worklist.Leads (path_successors drive sort_desc)
        (InOrder env categories fold render filter_mode filters drive (·.path) sort_desc)) ↔
      slots.Pairwise
        (CountsBefore fold drive sort_desc (emit_if_passes env categories fold render drive filter_mode filters)) := by
  apply worklist.pairwise_congr_of_nodup hnodup
  intro u hu v hv hne
  exact leads_iff_counts htree hinv hroomy (hlt u hu) (hlt v hv) (hmates u hu v hv hne)

/-- The children of a live slot lead one another by path exactly if what counts is in order. -/
theorem level_ordered_iff (hfold : fold.Whole) {p : UInt32} {rec : CompactRecord} {name : Str} (hp : Named drive p rec name) :
    (path_successors drive sort_desc p).Pairwise (worklist.Leads (path_successors drive sort_desc)
        (InOrder env categories fold render filter_mode filters drive (·.path) sort_desc)) ↔
      (sorted_children drive sort_desc p).Pairwise
        (CountsBefore fold drive sort_desc (emit_if_passes env categories fold render drive filter_mode filters)) := by
  have hp_lt : p.toNat < drive.records.length := (List.getElem?_eq_some_iff.mp hp.get).1
  rw [path_successors, if_pos hp.is_named]
  apply pairwise_leads_iff htree hinv hroomy
  · exact fun u hu => (slot_parent_of_child hinv hroomy hp_lt (mem_sort_indices.mp hu)).1
  · exact nodup_sorted_children hinv hroomy sort_desc p
  · intro u hu v hv hne
    exact (htree.compares_paths hinv hroomy hfold render).children htree hinv hroomy
      (fun u a text hcount => under_iff_counts.mpr ⟨text, hcount⟩) hp_lt (mem_sort_indices.mp hu) (mem_sort_indices.mp hv) hne

/-- So do the slots at the top. -/
theorem roots_ordered_iff (hfold : fold.Whole) :
    (root_slots drive sort_desc).Pairwise (worklist.Leads (path_successors drive sort_desc)
        (InOrder env categories fold render filter_mode filters drive (·.path) sort_desc)) ↔
      (root_slots drive sort_desc).Pairwise
        (CountsBefore fold drive sort_desc (emit_if_passes env categories fold render drive filter_mode filters)) := by
  apply pairwise_leads_iff htree hinv hroomy
  · intro r hr
    obtain ⟨rec, name, hnamed, -⟩ := htree.root_named hroomy hr
    exact (List.getElem?_eq_some_iff.mp hnamed.get).1
  · exact nodup_root_slots hroomy sort_desc
  · intro u hu v hv hne
    obtain ⟨urec, uname, hun, hunone⟩ := htree.root_named hroomy hu
    obtain ⟨vrec, vname, hvn, hvnone⟩ := htree.root_named hroomy hv
    exact (htree.compares_paths hinv hroomy hfold render).roots htree hinv hroomy hun hvn hunone hvnone hne

/-- In a tree with well-formed names, paths are in order exactly if the names are. -/
theorem path_trees_ordered_iff (hfold : fold.Whole) :
    PathTreesOrdered env categories fold render drive sort_desc filter_mode filters ↔
      PathNamesOrdered fold drive sort_desc (emit_if_passes env categories fold render drive filter_mode filters) := by
  have hlevel := fun {p rec name} => @level_ordered_iff env categories fold render drive sort_desc filter_mode filters htree _ _ hinv
    hroomy hfold p rec name
  have hpushes : ∀ p c, c ∈ path_successors drive sort_desc p ↔ is_named drive p = true ∧ c ∈ drive.children_of p :=
    fun _ _ => mem_path_successors
  constructor
  · intro h
    -- a named slot is popped below one of the roots
    have hrooted : ∀ {p rec name}, Named drive p rec name → ∃ r ∈ root_slots drive sort_desc,
        worklist.Under (path_successors drive sort_desc) p r := fun hp =>
      (reaches_root_iff hroomy hpushes).mpr (htree.descends_named hinv hroomy hp)
    constructor
    · exact (roots_ordered_iff htree hinv hroomy hfold).mp h.roots
    · intro p rec hget hlive
      obtain ⟨name, hp⟩ := htree.named hget hlive
      obtain ⟨r, hr, hunder⟩ := hrooted hp
      exact (hlevel hp).mp ((h.trees r hr).level p hunder)
    · intro hdesc p a hshow hbelow
      by_contra hshow'
      rw [Bool.not_eq_false] at hshow'
      obtain ⟨rec, name, hp⟩ := named_of_passes htree hshow
      obtain ⟨rec', name', ha⟩ := named_of_passes htree hshow'
      obtain ⟨r, hr, hunder⟩ := hrooted hp
      have hp_lt := (List.getElem?_eq_some_iff.mp hp.get).1
      obtain ⟨c, hc, hac⟩ := beneath_iff.mp hbelow
      have hc_lt := (slot_parent_of_child hinv hroomy hp_lt hc).1
      have horder := (h.trees r hr).below p hunder c ((hpushes p c).mpr ⟨hp.is_named, hc⟩) a
        ((under_path_successors htree hinv hroomy hc_lt ha).mpr hac)
      have hasc := (in_path_order_nested htree hinv hroomy hfold.toUpcase hp_lt hbelow hshow hshow').mp horder
      exact Bool.false_ne_true (hasc.symm.trans hdesc)
  · intro h
    refine ⟨fun idx hshow => ?_, fun r hr => ⟨fun p hunder c hc a ha => ?_, fun p hunder => ?_⟩, ?_⟩
    · obtain ⟨rec, name, hnamed⟩ := named_of_passes htree hshow
      exact htree.descends_named hinv hroomy hnamed
    · intro hshow hshow'
      obtain ⟨rec, name, hp⟩ := named_of_passes htree hshow
      have hp_lt := (List.getElem?_eq_some_iff.mp hp.get).1
      have hunder' : worklist.Under drive.children_of a c :=
        Relation.ReflTransGen.mono (fun _ _ hpush => (mem_path_successors.mp hpush).2) _ _ ha
      have hbelow : Beneath drive a p := beneath_iff.mpr ⟨c, ((hpushes p c).mp hc).2, hunder'⟩
      refine (in_path_order_nested htree hinv hroomy hfold.toUpcase hp_lt hbelow hshow hshow').mpr ?_ hshow hshow'
      by_contra hdesc
      rw [Bool.not_eq_false] at hdesc
      exact Bool.false_ne_true ((h.nested hdesc p a hshow hbelow).symm.trans hshow')
    · by_cases hnamed : is_named drive p = true
      · have hsome := hnamed
        rw [is_named, Option.any_eq_true] at hsome
        obtain ⟨rec, hget, hname⟩ := hsome
        have hlive : rec.Live := CompactRecord.live_of_name (by simpa using hname)
        obtain ⟨name, hp⟩ := htree.named hget hlive
        exact (hlevel hp).mpr (h.level p rec hget hlive)
      · rw [path_successors, if_neg hnamed]
        exact List.Pairwise.nil
    · exact (roots_ordered_iff htree hinv hroomy hfold).mpr h.top

omit hinv hroomy in
/-- Matching rows with one path are one row. -/
theorem path_walk_exact_iff (sort : UnstableSort) :
    PathWalkExact env categories fold render sort drive sort_desc filter_mode filters ↔
      PathWalkSorted env categories fold render sort drive sort_desc filter_mode filters := by
  have hinj : ∀ row ∈ sorted_matches env categories fold render sort filter_mode filters drive .Path sort_desc,
      ∀ row' ∈ sorted_matches env categories fold render sort filter_mode filters drive .Path sort_desc,
        row.path = row'.path → row = row' := by
    intro row hrow row' hrow' heq
    have hslot : ∀ {row}, row ∈ sorted_matches env categories fold render sort filter_mode filters drive .Path sort_desc →
        ∃ idx rec name, Named drive idx rec name ∧ slot_row drive render idx = some row := by
      intro row hrow
      obtain ⟨idx, hidx, hrow⟩ := List.mem_filterMap.mp ((sort_rows_perm _ _ _ _ _ _ _).mem_iff.mp hrow)
      obtain ⟨rec, name, hnamed⟩ := named_of_passes htree (mem_matching_slots.mp hidx)
      exact ⟨idx, rec, name, hnamed, hrow⟩
    obtain ⟨a, rec, name, ha, hrow_a⟩ := hslot hrow
    obtain ⟨b, rec', name', hb, hrow_b⟩ := hslot hrow'
    have hpaths : slot_path drive render a = slot_path drive render b := by
      rw [slot_row, ha.get, Option.map_some] at hrow_a
      rw [slot_row, hb.get, Option.map_some] at hrow_b
      obtain rfl := Option.some.inj hrow_a
      obtain rfl := Option.some.inj hrow_b
      exact heq
    obtain rfl := htree.slot_path_inj render ha hb hpaths
    exact Option.some.inj (hrow_a.symm.trans hrow_b)
  constructor
  · rintro ⟨enough, h⟩
    exact ⟨enough, fun fuel hle limit => ⟨_, h fuel hle limit, _, List.Perm.refl _, rfl, rfl⟩⟩
  · rintro ⟨enough, h⟩
    refine ⟨enough, fun fuel hle limit => ?_⟩
    obtain ⟨rows, hrun, hfirst⟩ := h fuel hle limit
    rw [hrun, hfirst.exact hinj]

end named

/-- In a tree with well-formed names the walk is exact as long as the names are in order. -/
theorem path_walk_exact_iff_names {env : Env} {categories : List (Str × List Str)} {fold : CaseFold} {render : Render}
    {drive : DriveCompactIndex} (hserved : Served env drive) (hfold : fold.Whole) (htree : NamedTree fold drive)
    (sort : UnstableSort) (sort_desc : Bool) (filter_mode : FilterMode) (filters : SearchFilters) :
    PathWalkExact env categories fold render sort drive sort_desc filter_mode filters ↔
      PathNamesOrdered fold drive sort_desc (emit_if_passes env categories fold render drive filter_mode filters) := by
  have htrees := @path_walk_sorted_iff_trees env categories fold render sort drive sort_desc filter_mode filters hserved
  obtain ⟨base, base_names, hinv, hroomy⟩ := hserved.overlay
  rw [path_walk_exact_iff htree, htrees, path_trees_ordered_iff htree hinv hroomy hfold]

/-- The depth-first walk of a drive hands out the first of the matching rows as they are sorted by
path, up to the order of rows with one path, exactly if its trees are in the order of the paths. In a
drive tree with well-formed names it hands out the very rows, exactly if at the top and in each
directory the names are in the order of what counts for the matches, and descending no match lies
below another one. The drive is no deeper than the cut, so that its rows do not show what the walk had
in the cache of directories. -/
theorem path_walk_agrees_iff {env : Env} (categories : List (Str × List Str)) {fold : CaseFold} (hfold : fold.Whole)
    (render : Render) (sort : UnstableSort) {drive : DriveCompactIndex} (hshown : Shown env drive)
    (sort_desc : Bool) (filter_mode : FilterMode) (filters : SearchFilters) :
    CacheUnseen drive render ∧
    (PathWalkSorted env categories fold render sort drive sort_desc filter_mode filters ↔
      PathTreesOrdered env categories fold render drive sort_desc filter_mode filters) ∧
    (NamedTree fold drive →
      (PathWalkExact env categories fold render sort drive sort_desc filter_mode filters ↔
        PathNamesOrdered fold drive sort_desc
          (emit_if_passes env categories fold render drive filter_mode filters))) := by
  refine ⟨hshown.shallow.cacheUnseen render, path_walk_sorted_iff_trees sort hshown.served, fun htree => ?_⟩
  exact path_walk_exact_iff_names hshown.served hfold htree sort sort_desc filter_mode filters

/-- A directory with a file in it, and the records from 18 on. -/
def tree_mft (rest : List FileRecord) (slots : List UInt32) : MftIndex where
  records := [
    { frs := 5, stdinfo := { flags := DIRECTORY_BIT }, first_name := { name := { offset := 0, bits := 1 }, parent_frs := 5 } },
    { frs := 16, stdinfo := { flags := DIRECTORY_BIT }, first_name := { name := { offset := 1, bits := 1 }, parent_frs := 5 } },
    { frs := 17, first_name := { name := { offset := 2, bits := 1 }, parent_frs := 16 } }] ++ rest
  frs_to_idx := List.replicate 5 NO_ENTRY ++ [0] ++ List.replicate 10 NO_ENTRY ++ [1, 2] ++ slots
  names := as_bytes ".axab".toList
  extension_names := [[]]

/-- A file whose name goes on where that of the directory ends. -/
def stem_mft : MftIndex := tree_mft [{ frs := 18, first_name := { name := { offset := 3, bits := 2 }, parent_frs := 5 } }] [3]

def stem_drive : DriveCompactIndex := build_compact_index sample_env 'C' sample_fold stem_mft

theorem stem_drive_served : Served sample_env stem_drive :=
  ⟨'C', sample_fold, stem_mft, ⟨mapped_of_zipIdx (by decide), by decide, by decide, by decide⟩,
    Reachable.start (roomy_build (by decide) _ _ _)⟩

/-- The rows of the drive, evaluated once. -/
theorem stem_drive_rows :
    named_tree_check sample_fold stem_drive = true ∧
      ((List.range stem_drive.records.length).filter fun idx =>
        stem_drive.records[idx]?.any fun rec => rec.parent_idx == NO_ENTRY && rec.name_len != 0).map len_to_u32 = [0, 1, 3] ∧
      (slot_name stem_drive 0 = ['.'] ∧ slot_name stem_drive 1 = ['a'] ∧ slot_name stem_drive 3 = ['a', 'b']) ∧
      stem_drive.children_of 0 = [] ∧ stem_drive.children_of 1 = [2] ∧ stem_drive.children_of 2 = [] ∧
      stem_drive.children_of 3 = [] := by
  decide

theorem stem_drive_tree : NamedTree sample_fold stem_drive := named_tree_of_check stem_drive_rows.1

theorem stem_drive_shown : Shown sample_env stem_drive := ⟨stem_drive_served, stem_drive_tree.shallow stem_drive_served.lt_size⟩

theorem stem_drive_roots : root_slots stem_drive false = [0, 1, 3] := by
  rw [root_slots, stem_drive_rows.2.1]
  apply sort_indices_eq
  decide

theorem stem_drive_names : slot_name stem_drive 0 = ['.'] ∧ slot_name stem_drive 1 = ['a'] ∧ slot_name stem_drive 3 = ['a', 'b'] :=
  stem_drive_rows.2.2.1

theorem stem_drive_children : stem_drive.children_of 0 = [] ∧ stem_drive.children_of 1 = [2] ∧
    stem_drive.children_of 2 = [] ∧ stem_drive.children_of 3 = [] :=
  stem_drive_rows.2.2.2

/-- No slot lists two others. -/
theorem stem_drive_lists_one {p : UInt32} {rec : CompactRecord} (hget : stem_drive.records[p.toNat]? = some rec) :
    (stem_drive.children_of p).length ≤ 1 := by
  obtain ⟨hnone, hone, hleaf, hlast⟩ := stem_drive_children
  have hlt : p.toNat < 4 := (List.getElem?_eq_some_iff.mp hget).1
  have hslot : p = 0 ∨ p = 1 ∨ p = 2 ∨ p = 3 := by
    simp only [← UInt32.toNat_inj, UInt32.reduceToNat]
    omega
  rcases hslot with rfl | rfl | rfl | rfl <;> simp [hnone, hone, hleaf, hlast]

/-- The directories alone are handed out as they are sorted. -/
theorem path_walk_agrees_iff_stem : NamedTree sample_fold stem_drive ∧
    PathWalkExact sample_env [] sample_fold (fun _ => []) .stable stem_drive false .DirsOnly {} := by
  refine ⟨stem_drive_tree, ?_⟩
  apply ((path_walk_agrees_iff [] sample_fold_whole (fun _ => []) .stable stem_drive_shown false .DirsOnly {}).2.2
    stem_drive_tree).mpr
  obtain ⟨hnone, -, -, hlast⟩ := stem_drive_children
  obtain ⟨hdot, hdir, hfile⟩ := stem_drive_names
  have hshown : emit_if_passes sample_env [] sample_fold (fun _ => []) stem_drive .DirsOnly {} 3 = false := by decide
  have hlonely : ∀ {p a : UInt32}, stem_drive.children_of p = [] → worklist.Under stem_drive.children_of a p → a = p := by
    intro p a hempty hunder
    rcases worklist.under_iff.mp hunder with heq | ⟨c, hc, -⟩
    · exact heq
    · rw [hempty] at hc
      cases hc
  have hlast_counts : ∀ {b other}, Counts sample_fold stem_drive 3 b other → b = 3 := by
    intro b other hcount
    exact hlonely hlast (under_iff_counts.mpr ⟨other, hcount⟩)
  constructor
  · rw [stem_drive_roots]
    have hfirst : CountsBefore sample_fold stem_drive false
        (emit_if_passes sample_env [] sample_fold (fun _ => []) stem_drive .DirsOnly {}) 0 1 := by
      intro a b text other hcount hcount' _ _
      rw [Counts, if_pos hdot, hnone] at hcount
      rw [Counts, if_neg (by rw [hdir]; decide)] at hcount'
      obtain ⟨-, rfl⟩ : a = 0 ∧ text = [] := by simpa using hcount
      rw [hcount'.2, level_text, hdir]
      cases b != 1 <;> decide
    have hrest : ∀ u, CountsBefore sample_fold stem_drive false
        (emit_if_passes sample_env [] sample_fold (fun _ => []) stem_drive .DirsOnly {}) u 3 := by
      intro u a b text other _ hcount' _ hmatch
      rw [hlast_counts hcount', hshown] at hmatch
      cases hmatch
    simp [hfirst, hrest]
  · intro p rec hget _
    apply worklist.pairwise_of_short
    rw [sorted_children, (sorted_perm _ stem_drive false).length_eq]
    exact stem_drive_lists_one hget
  · intro hdesc
    cases hdesc

/-- The file in the directory is handed out before the other file, and sorted after it. -/
theorem path_walk_breaks_stem : Shown sample_env stem_drive ∧ NamedTree sample_fold stem_drive ∧
    ¬ PathWalkExact sample_env [] sample_fold (fun _ => []) .stable stem_drive false .All {} := by
  refine ⟨stem_drive_shown, stem_drive_tree, fun hexact => ?_⟩
  have hordered := (path_walk_exact_iff_names stem_drive_served sample_fold_whole stem_drive_tree .stable false .All {}).mp hexact
  obtain ⟨-, hdirName, hfileName⟩ := stem_drive_names
  have htop := hordered.top
  rw [stem_drive_roots] at htop
  have hbefore : CountsBefore sample_fold stem_drive false
      (emit_if_passes sample_env [] sample_fold (fun _ => []) stem_drive .All {}) 1 3 := by
    simp only [List.pairwise_cons] at htop
    exact htop.2.1 3 List.mem_cons_self
  have hchild : (2 : UInt32) ∈ stem_drive.children_of 1 := by
    rw [stem_drive_children.2.1]
    exact List.mem_cons_self
  have hdir : Counts sample_fold stem_drive 1 2 (level_text sample_fold stem_drive 1 2) := by
    rw [Counts, if_neg (by rw [hdirName]; decide)]
    exact ⟨Relation.ReflTransGen.single hchild, rfl⟩
  have hfile : Counts sample_fold stem_drive 3 3 (level_text sample_fold stem_drive 3 3) := by
    rw [Counts, if_neg (by rw [hfileName]; decide)]
    exact ⟨Relation.ReflTransGen.refl, rfl⟩
  have hlt := hbefore 2 3 _ _ hdir hfile (by decide) (by decide)
  rw [level_text, level_text, hdirName, hfileName] at hlt
  exact absurd hlt (by decide)

end uffs.search
