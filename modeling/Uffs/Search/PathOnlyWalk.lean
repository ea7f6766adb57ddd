import Uffs.Search.PathWalk

open uffs.lib uffs.mft uffs.text uffs.bloom uffs.compact uffs.usn

namespace uffs.search

/-! The two-phase walk against the sort by directory. -/

section general

variable (env : Env) (categories : List (Str × List Str)) (fold : CaseFold) (render : Render) (sort : UnstableSort)
  (drive : DriveCompactIndex) (sort_desc : Bool) (filter_mode : FilterMode) (filters : SearchFilters)

/-- For every limit, the rows are the first of the sorted matching rows, up to the order of rows in
one directory. -/
def PathOnlySorted : Prop :=
  ∃ enough, ∀ fuel, enough ≤ fuel → ∀ limit, ∃ rows,
    bounded.collect_path_only_sorted_top_n env categories fold render sort fuel [drive] limit sort_desc filter_mode filters =
      some rows ∧
    FirstOf (·.path_dir) limit rows
      (sorted_matches env categories fold render sort filter_mode filters drive .PathOnly sort_desc)

/-- Of the records with a name that is text, those with one of the extensions that pass as candidates
are the ones whose rows match. -/
def TableExact : Prop :=
  ∀ idx rec, drive.records[idx.toNat]? = some rec → rec.name drive.names ≠ [] →
    (rec.extension_id ∈ (filters.resolve_ext_ids_for_drive env drive).resolved_ext_ids ∧
        ext_candidate_passes rec drive.names filters filter_mode = true ↔
      emit_if_passes env categories fold render drive filter_mode filters idx = true)

/-- The rows of what is listed in the one directory come before the rows of what is listed in the
other. -/
def DirsInOrder (d e : UInt32) : Prop :=
  ∀ x ∈ sorted_children drive false d, ∀ y ∈ sorted_children drive false e,
    InOrder env categories fold render filter_mode filters drive (·.path_dir) false x y

/-- All that matches hangs below the roots by directories, what one directory lists is in order, the
roots come before all else, and so does every directory before those below it and before its later
siblings with all below them. -/
structure DirTreesOrdered : Prop where
  hung : ∀ idx, emit_if_passes env categories fold render drive filter_mode filters idx = true → Descends drive (is_dir drive) idx
  listed : ∀ d, Descends drive (is_dir drive) d → is_dir drive d = true →
    (sorted_children drive false d).Pairwise
      (InOrder env categories fold render filter_mode filters drive (·.path_dir) sort_desc)
  top : (root_slots drive false).Pairwise (InOrder env categories fold render filter_mode filters drive (·.path_dir) sort_desc)
  first : ∀ r ∈ root_slots drive false, ∀ d, Descends drive (is_dir drive) d → is_dir drive d = true →
    ∀ c ∈ sorted_children drive false d,
      InOrder env categories fold render filter_mode filters drive (·.path_dir) false r c
  trees : ∀ r ∈ (root_slots drive false).filter (is_dir drive), worklist.TreeOrdered (subdirs drive)
    (DirsInOrder env categories fold render drive filter_mode filters) r
  roots : ((root_slots drive false).filter (is_dir drive)).Pairwise (worklist.Leads (subdirs drive)
    (DirsInOrder env categories fold render drive filter_mode filters))

variable {env categories fold render drive sort_desc filter_mode filters}

/-- The other way round, the order of a pair is the opposite one. -/
theorem in_order_flip {key : DisplayRow → Str} {x y : UInt32} :
    InOrder env categories fold render filter_mode filters drive key true y x ↔
      InOrder env categories fold render filter_mode filters drive key false x y := by
  have hrows : ∀ row_x row_y : DisplayRow, (directed true (text_order fold) (key row_y) (key row_x)).isLE ↔
      (directed false (text_order fold) (key row_x) (key row_y)).isLE := by
    intro row_x row_y
    rw [directed, directed, if_pos rfl, if_neg Bool.false_ne_true, ← cmp_flip (text_order fold)]
  constructor
  · intro h hx hy row_x hrow_x row_y hrow_y
    exact (hrows row_x row_y).mp (h hy hx row_y hrow_y row_x hrow_x)
  · intro h hy hx row_y hrow_y row_x hrow_x
    exact (hrows row_x row_y).mpr (h hx hy row_x hrow_x row_y hrow_y)

/-- In both directions the walk is in order exactly if each group is, in that direction, and the
groups are, ascending. -/
theorem pairwise_path_only_slots {opened : List UInt32} :
    (path_only_slots drive sort_desc opened).Pairwise
        (InOrder env categories fold render filter_mode filters drive (·.path_dir) sort_desc) ↔
      (root_slots drive false).Pairwise (InOrder env categories fold render filter_mode filters drive (·.path_dir) sort_desc) ∧
      (∀ d ∈ opened, (sorted_children drive false d).Pairwise
        (InOrder env categories fold render filter_mode filters drive (·.path_dir) sort_desc)) ∧
      (∀ r ∈ root_slots drive false, ∀ d ∈ opened, ∀ c ∈ sorted_children drive false d,
        InOrder env categories fold render filter_mode filters drive (·.path_dir) false r c) ∧
      opened.Pairwise (DirsInOrder env categories fold render drive filter_mode filters) := by
  unfold path_only_slots
  cases sort_desc with
  | false =>
    rw [if_neg Bool.false_ne_true, List.pairwise_append, List.pairwise_flatMap]
    constructor
    · rintro ⟨hroots, ⟨hgroups, hopened⟩, hcross⟩
      exact ⟨hroots, hgroups, fun r hr d hd c hc => hcross r hr c (List.mem_flatMap.mpr ⟨d, hd, hc⟩), hopened⟩
    · rintro ⟨hroots, hgroups, hcross, hopened⟩
      refine ⟨hroots, ⟨hgroups, hopened⟩, fun r hr c hc => ?_⟩
      obtain ⟨d, hd, hc⟩ := List.mem_flatMap.mp hc
      exact hcross r hr d hd c hc
  | true =>
    rw [if_pos rfl, List.pairwise_append, List.pairwise_flatMap, List.pairwise_reverse]
    constructor
    · rintro ⟨⟨hgroups, hopened⟩, hroots, hcross⟩
      refine ⟨hroots, fun d hd => hgroups d (List.mem_reverse.mpr hd), fun r hr d hd c hc => ?_, ?_⟩
      · exact in_order_flip.mp (hcross c (List.mem_flatMap.mpr ⟨d, List.mem_reverse.mpr hd, hc⟩) r hr)
      · exact hopened.imp fun h x hx y hy => in_order_flip.mp (h y hy x hx)
    · rintro ⟨hroots, hgroups, hcross, hopened⟩
      refine ⟨⟨fun d hd => hgroups d (List.mem_reverse.mp hd), ?_⟩, hroots, fun c hc r hr => ?_⟩
      · exact hopened.imp fun h x hx y hy => in_order_flip.mpr (h y hy x hx)
      · obtain ⟨d, hd, hc⟩ := List.mem_flatMap.mp hc
        exact in_order_flip.mpr (hcross r hr d (List.mem_reverse.mp hd) c hc)

/-- The directories that are opened. -/
def Opens (drive : DriveCompactIndex) (d : UInt32) : Prop := Descends drive (is_dir drive) d ∧ is_dir drive d = true

theorem mem_subdirs {p c : UInt32} : c ∈ subdirs drive p ↔ c ∈ drive.children_of p ∧ is_dir drive c = true := by
  rw [subdirs, List.mem_filter, sorted_children, mem_sort_indices]

theorem mem_path_only_slots (hroomy : Roomy drive) {opened : List UInt32} (hopened : ∀ d, d ∈ opened ↔ Opens drive d) {idx : UInt32} :
    idx ∈ path_only_slots drive sort_desc opened ↔ Descends drive (is_dir drive) idx := by
  have hboth : idx ∈ path_only_slots drive sort_desc opened ↔
      idx ∈ root_slots drive false ∨ ∃ d ∈ opened, idx ∈ sorted_children drive false d := by
    unfold path_only_slots
    cases sort_desc with
    | false => simp
    | true => simp [or_comm]
  rw [hboth, descends_dir_iff hroomy]
  simp only [hopened, Opens, sorted_children, mem_sort_indices]

theorem nodup_path_only_slots {base : List CompactRecord} {base_names : List UInt8} (hinv : OverlayInv drive base base_names)
    (hroomy : Roomy drive) {opened : List UInt32} (hopened : ∀ d, d ∈ opened ↔ Opens drive d) (hnodup : opened.Nodup) :
    (path_only_slots drive sort_desc opened).Nodup := by
  have hlt : ∀ d ∈ opened, d.toNat < drive.records.length := fun d hd => ((hopened d).mp hd).1.lt_length hinv hroomy
  have hgroups : (opened.flatMap (sorted_children drive false)).Nodup := by
    rw [List.nodup_flatMap]
    refine ⟨fun d _ => nodup_sorted_children hinv hroomy false d, hnodup.imp fun {d e} hne => ?_⟩
    rw [Function.onFun, List.disjoint_left]
    intro idx hd he
    exact hne (unique_parent hinv hroomy (mem_sort_indices.mp hd) (mem_sort_indices.mp he))
  have hfresh : ∀ r ∈ root_slots drive false, r ∉ opened.flatMap (sorted_children drive false) := by
    intro r hr hlisted
    obtain ⟨d, hd, hchild⟩ := List.mem_flatMap.mp hlisted
    obtain ⟨rec, hget, -, hroot⟩ := (mem_root_slots hroomy.lt_size).mp hr
    obtain ⟨-, hparent⟩ := slot_parent_of_child hinv hroomy (hlt d hd) (mem_sort_indices.mp hchild)
    simp [slot_parent, hget, hroot] at hparent
  have hboth : (root_slots drive false ++ opened.flatMap (sorted_children drive false)).Nodup := by
    refine List.nodup_append.mpr ⟨nodup_root_slots hroomy false, hgroups, ?_⟩
    rintro r hr _ hlisted rfl
    exact hfresh r hr hlisted
  unfold path_only_slots
  cases sort_desc with
  | false => exact hboth
  | true =>
    have hperm : (opened.reverse.flatMap (sorted_children drive false) ++ root_slots drive false).Perm
        (root_slots drive false ++ opened.flatMap (sorted_children drive false)) :=
      List.perm_append_comm.trans ((List.Perm.flatMap_right _ (List.reverse_perm opened)).append_left _)
    exact hperm.nodup_iff.mpr hboth

/-- On every drive that is served, where the walk is taken. -/
theorem path_only_sorted_iff_trees (hserved : Served env drive) (hwalk : ext_fast_path filters filter_mode = false) :
    PathOnlySorted env categories fold render sort drive sort_desc filter_mode filters ↔
      DirTreesOrdered env categories fold render drive sort_desc filter_mode filters := by
  obtain ⟨base, base_names, hinv, hroomy⟩ := hserved.overlay
  have hacc : ∀ r ∈ root_slots drive false, Acc (worklist.Pushes (subdirs drive)) r := fun r hr =>
    acc_of_root hinv hroomy (fun p c hc => (mem_subdirs.mp hc).1) hr
  obtain ⟨opened, hlisting, hrows⟩ :=
    collect_path_only_sorted_rows env categories fold render sort filter_mode hwalk hacc
  have hnodup : opened.Nodup := @nodup_walked drive base base_names hinv hroomy (subdirs drive)
    (fun p => ⟨false, List.filter_sublist⟩) false _ _ List.filter_sublist hlisting
  refine Iff.trans (worklist.enough_iff (hrows sort_desc)) ?_
  obtain ⟨fuel, hrun⟩ := hlisting
  have hopened : ∀ d, d ∈ opened ↔ Opens drive d := fun d =>
    (worklist.mem_run_iff worklist.pushing_append hrun).trans (reaches_dir_iff hroomy fun _ _ => mem_subdirs)
  rw [walked_first_iff sort (path_only_column categories fold) hroomy.lt_size
    (nodup_path_only_slots hinv hroomy hopened hnodup), pairwise_path_only_slots, worklist.pairwise_run_iff hrun]
  simp only [mem_path_only_slots hroomy hopened, hopened]
  constructor
  · rintro ⟨hhung, htop, hlisted, hfirst, htrees, hroots⟩
    exact ⟨hhung, fun d hd hdir => hlisted d ⟨hd, hdir⟩, htop, fun r hr d hd hdir => hfirst r hr d ⟨hd, hdir⟩, htrees, hroots⟩
  · intro h
    exact ⟨h.hung, h.top, fun d hd => h.listed d hd.1 hd.2, fun r hr d hd => h.first r hr d hd.1 hd.2, h.trees, h.roots⟩

/-- What is sorted and cut where the extension table is used are the rows of the slots that it lists. -/
theorem collect_path_only_via_ext_index_rows (hfast : ext_fast_path filters filter_mode = true) : ∃ rows : List DisplayRow,
    rows.Perm (rows_of drive render (path_ext_slots drive (filters.resolve_ext_ids_for_drive env drive) filter_mode)) ∧
    ∀ fuel limit,
      bounded.collect_path_only_sorted_top_n env categories fold render sort fuel [drive] limit sort_desc filter_mode filters =
        some ((sort_rows categories fold sort rows .PathOnly sort_desc []).take limit) := by
  let row_of (hit : Hit) : Option DisplayRow := [drive][hit.1]?.bind fun drive =>
    if is_named drive hit.2 then slot_row drive render hit.2 else none
  refine ⟨(sort.run hit_order (collect_resolved env (fun drive resolved => scan_ext_fast_path drive resolved filter_mode)
    [drive] filters)).filterMap row_of, ?_, fun fuel limit => ?_⟩
  · refine ((sort.perm hit_order _).filterMap _).trans (List.Perm.of_eq ?_)
    rw [collect_resolved, List.zipIdx_singleton, List.flatMap_singleton, hits_of, List.filterMap_map, rows_of, path_ext_slots,
      List.filterMap_filter]
    rfl
  · unfold bounded.collect_path_only_sorted_top_n
    split
    next hnone => rw [hnone, List.take_zero]
    next => rfl

/-- The extension table lists what matches. -/
theorem table_exact_iff (hserved : Served env drive) :
    TableExact env categories fold render drive filter_mode filters ↔
      ∀ idx, idx ∈ path_ext_slots drive (filters.resolve_ext_ids_for_drive env drive) filter_mode ↔
        emit_if_passes env categories fold render drive filter_mode filters idx = true := by
  obtain ⟨letter, table, index, hwf, hreach⟩ := hserved
  simp only [mem_path_ext_slots hwf hreach, ext_candidate_passes_resolved]
  constructor
  · intro h idx
    constructor
    · rintro ⟨rec, hget, hid, hpasses, hname⟩
      exact (h idx rec hget hname).mp ⟨hid, hpasses⟩
    · intro hshow
      obtain ⟨rec, hget, hname, -⟩ := (emit_if_passes_iff env categories fold render filter_mode filters).mp hshow
      obtain ⟨hid, hpasses⟩ := (h idx rec hget hname).mpr hshow
      exact ⟨rec, hget, hid, hpasses, hname⟩
  · intro h idx rec hget hname
    rw [← h idx]
    constructor
    · rintro ⟨hid, hpasses⟩
      exact ⟨rec, hget, hid, hpasses, hname⟩
    · rintro ⟨rec', hget', hid, hpasses, -⟩
      cases hget.symm.trans hget'
      exact ⟨hid, hpasses⟩

/-- On every drive that is served, where the extension table is used. -/
theorem path_only_sorted_iff_table (hserved : Served env drive) (hfast : ext_fast_path filters filter_mode = true) :
    PathOnlySorted env categories fold render sort drive sort_desc filter_mode filters ↔
      TableExact env categories fold render drive filter_mode filters := by
  obtain ⟨rows, hrows, hrun⟩ := @collect_path_only_via_ext_index_rows env categories fold render sort drive sort_desc filter_mode
    filters hfast
  have hsorted := (sort_rows_perm categories fold sort rows .PathOnly sort_desc []).trans hrows
  have hmatches := sort_rows_perm categories fold sort
    (rows_of drive render (matching_slots env categories fold render drive filter_mode filters)) .PathOnly sort_desc []
  refine Iff.trans (worklist.enough_iff ⟨0, fun fuel _ => hrun fuel⟩) ?_
  have hperm : (sort_rows categories fold sort rows .PathOnly sort_desc []).Perm
      (sorted_matches env categories fold render sort filter_mode filters drive .PathOnly sort_desc) ↔
        TableExact env categories fold render drive filter_mode filters := by
    have hslots : ∀ idx ∈ path_ext_slots drive (filters.resolve_ext_ids_for_drive env drive) filter_mode,
        ∃ row, slot_row drive render idx = some row := by
      intro idx hidx
      have hnamed := (List.mem_filter.mp hidx).2
      rw [Option.any_eq_true] at hnamed
      obtain ⟨rec, hget, -⟩ := hnamed
      exact ⟨_, by rw [slot_row, hget, Option.map_some]⟩
    have hnodup : (path_ext_slots drive (filters.resolve_ext_ids_for_drive env drive) filter_mode).Nodup :=
      (bounded.nodup_scan_ext_fast_path hserved filters filter_mode).filter _
    rw [table_exact_iff hserved]
    obtain ⟨letter, table, index, -, hreach⟩ := hserved
    rw [← rows_perm_matches_iff hreach.ok.lt_size hnodup hslots]
    exact ⟨fun h => hsorted.symm.trans (h.trans hmatches), fun h => hsorted.trans (h.trans hmatches.symm)⟩
  rw [firstOf_iff, hperm]
  refine and_iff_left_of_imp fun htable => ?_
  apply (rows_sorted_iff sort (path_only_column categories fold) (hperm.mpr htable)).mpr
  refine (sort_rows_sorted categories fold sort rows (path_only_column categories fold).plain sort_desc).imp fun {a b} hle => ?_
  unfold directed at hle ⊢
  rwa [(path_only_column categories fold).order] at hle

end general

/-- A slot below another one counts, by its directory, among the siblings of this by a text. What is
below the root directory counts as below the root's siblings. -/
def DirCounts (fold : CaseFold) (drive : DriveCompactIndex) (u x : UInt32) (text : Str) : Prop :=
  if slot_name drive u = ['.'] then
    x ∈ drive.children_of u ∧ text = [] ∨
      ∃ w ∈ drive.children_of u, Beneath drive x w ∧ text = sibling_text fold (slot_name drive w) true
  else Beneath drive x u ∧ text = sibling_text fold (slot_name drive u) true

/-- What matches below the one directory counts for less than what matches below the other. -/
def DirCountsBefore (fold : CaseFold) (drive : DriveCompactIndex) (matching : UInt32 → Bool) (u v : UInt32) : Prop :=
  ∀ x y text other, DirCounts fold drive u x text → DirCounts fold drive v y other → matching x = true → matching y = true →
    compare text other = .lt

/-- At the top and in each directory the subdirectories, listed by name, are in the order of what
counts for the matches below them. -/
structure DirNamesOrdered (fold : CaseFold) (drive : DriveCompactIndex) (matching : UInt32 → Bool) : Prop where
  top : ((root_slots drive false).filter (is_dir drive)).Pairwise (DirCountsBefore fold drive matching)
  level : ∀ p rec, drive.records[p.toNat]? = some rec → rec.Live →
    (subdirs drive p).Pairwise (DirCountsBefore fold drive matching)

/-- The directory of the path of a slot. -/
def slot_dir (drive : DriveCompactIndex) (render : Render) (idx : UInt32) : Str :=
  (slot_path drive render idx).take (name_start_of (slot_path drive render idx))

/-- Two directories such that what is below them is compared by what it counts for. -/
def DirMates (fold : CaseFold) (drive : DriveCompactIndex) (render : Render) (u v : UInt32) : Prop :=
  ∀ x y text other rec rec' name name', DirCounts fold drive u x text → DirCounts fold drive v y other →
    Named drive x rec name → Named drive y rec' name' →
      text_order fold (slot_dir drive render x) (slot_dir drive render y) = compare text other ∧ compare text other ≠ .eq

theorem beneath_iff_parent {drive : DriveCompactIndex} {x u : UInt32} :
    Beneath drive x u ↔ ∃ a, x ∈ drive.children_of a ∧ worklist.Under drive.children_of a u :=
  Relation.TransGen.head'_iff

theorem beneath_iff_dir_counts {fold : CaseFold} {drive : DriveCompactIndex} {u x : UInt32} :
    Beneath drive x u ↔ ∃ text, DirCounts fold drive u x text := by
  unfold DirCounts
  split
  next =>
    rw [beneath_iff]
    constructor
    · rintro ⟨w, hw, hunder⟩
      rcases hunder.cases_head with rfl | ⟨a, hx, ha⟩
      · exact ⟨[], Or.inl ⟨hw, rfl⟩⟩
      · exact ⟨_, Or.inr ⟨w, hw, beneath_iff_parent.mpr ⟨a, hx, ha⟩, rfl⟩⟩
    · rintro ⟨text, ⟨hx, -⟩ | ⟨w, hw, hbelow, -⟩⟩
      · exact ⟨x, hx, Relation.ReflTransGen.refl⟩
      · exact ⟨w, hw, hbelow.to_reflTransGen⟩
  next => exact ⟨fun h => ⟨_, h, rfl⟩, fun ⟨_, h, _⟩ => h⟩

section named

variable {fold : CaseFold} {drive : DriveCompactIndex} (htree : NamedTree fold drive)

include htree

variable {rec : CompactRecord}

/-- The row of a slot has the path of its directory. -/
theorem slot_dir_eq (render : Render) {idx : UInt32} {name : Str} (hnamed : Named drive idx rec name) :
    slot_dir drive render idx = level_path drive render rec := by
  by_cases hdot : name = ['.']
  · subst hdot
    have hroot : rec.parent_idx = NO_ENTRY := by
      by_contra hne
      exact htree.no_dot _ _ _ hnamed hne rfl
    rw [slot_dir, htree.slot_path_dot render hnamed, level_path, if_pos hroot, opened_volume_prefix]
    rfl
  · rw [slot_dir, htree.slot_path_level render hnamed hdot, level_path, name_start_of_opened _ (htree.clean _ _ _ hnamed),
      List.take_left]

variable {base : List CompactRecord} {base_names : List UInt8} (hinv : OverlayInv drive base base_names) (hroomy : Roomy drive)

include hinv hroomy

/-- The directory of what a slot lists is that slot. -/
theorem slot_dir_of_listed (render : Render) {a x : UInt32} (ha : a.toNat < drive.records.length)
    (hx : x ∈ drive.children_of a) {name : Str} (hnamed : Named drive x rec name) :
    slot_dir drive render x = opened_path (slot_path drive render a) := by
  obtain ⟨hparent, hbelow⟩ := NamedTree.parent_of_listed hinv hroomy ha hx hnamed
  rw [slot_dir_eq htree render hnamed, level_path, if_neg hbelow, hparent]

/-- The directory of what is below a slot, other than the root directory, has the path of the slot, a
backslash and maybe more. -/
theorem slot_dir_beneath (render : Render) {x u : UInt32} {rec urec : CompactRecord} {name uname : Str}
    (hu : Named drive u urec uname) (hdot : uname ≠ ['.']) (hbelow : Beneath drive x u) (hnamed : Named drive x rec name) :
    ∃ rest, slot_dir drive render x = headed '\\' (slot_path drive render u) (some rest) := by
  obtain ⟨a, hx, hunder⟩ := beneath_iff_parent.mp hbelow
  have hu_lt := (List.getElem?_eq_some_iff.mp hu.get).1
  have ha_lt := under_lt_length hinv hroomy (fun _ _ hc => hc) hu_lt hunder
  obtain ⟨-, -, prec, pname, -, -, -, -, hp, -⟩ := htree.listed_above hinv hroomy ha_lt hx Relation.ReflTransGen.refl hnamed
  obtain ⟨rest, hpath, -, hpdot⟩ := htree.slot_path_under hinv hroomy render hu hdot hunder hp
  rw [slot_dir_of_listed htree hinv hroomy render ha_lt hx hnamed, htree.opened_slot_path render hp hpdot, hpath]
  cases rest with
  | none => exact ⟨[], rfl⟩
  | some rest => exact ⟨rest ++ ['\\'], by simp [headed]⟩

/-- What is below two siblings is ordered, by directory, by the names of these, and what the root
directory lists comes first. -/
theorem compares_dirs (hfold : fold.Upcase) (render : Render) :
    Compares fold drive (fun x u => x ∈ drive.children_of u) (Beneath drive) (slot_dir drive render)
      fun u _ => sibling_text fold (slot_name drive u) true := by
  refine ⟨fun x u hbelow => hbelow.to_reflTransGen, ?_, ?_⟩
  · intro u v urec vrec uname vname hu hv hudot hvdot hlevel hne x y rec rec' name name' hx hy hnamed hnamed'
    obtain ⟨rest, hdir⟩ := slot_dir_beneath htree hinv hroomy render hu hudot hx hnamed
    obtain ⟨rest', hdir'⟩ := slot_dir_beneath htree hinv hroomy render hv hvdot hy hnamed'
    rw [KeysLike, hdir, hdir', htree.slot_path_level render hu hudot, htree.slot_path_level render hv hvdot,
      htree.level_path_congr render hu hv hlevel, hu.slot_name, hv.slot_name]
    apply text_order_headed hfold _ (htree.clean _ _ _ hu) (htree.clean _ _ _ hv) _ (some rest) (some rest')
    exact htree.siblings _ _ _ hu _ _ _ hv hlevel hne hudot hvdot
  · intro u v urec vrec vname hu hv hvdot htop x y rec rec' name name' hx hy hnamed hnamed'
    -- what the root directory lists has the path of the volume, which all others go on from
    have hu_lt := (List.getElem?_eq_some_iff.mp hu.get).1
    obtain ⟨rest, hdir⟩ := slot_dir_beneath htree hinv hroomy render hv hvdot hy hnamed'
    have hmore : headed '\\' vname (some rest) ≠ [] := List.append_ne_nil_of_left_ne_nil hv.ne_nil _
    rw [KeysLike, slot_dir_of_listed htree hinv hroomy render hu_lt hx hnamed, htree.slot_path_dot render hu,
      opened_volume_prefix, hdir, htree.slot_path_level render hv hvdot, htree.level_path_top render hv htop, headed_append,
      text_order_continued hfold _ hmore]
    have hbefore : compare [] (sibling_text fold (slot_name drive v) true) = .lt :=
      compare_continued [] (List.append_ne_nil_of_right_ne_nil _ (List.cons_ne_nil _ _))
    rw [hbefore]
    exact ⟨rfl, by decide⟩

/-- The walk opens all directories that list a live slot. -/
theorem under_subdirs {a u x : UInt32} (hu : u.toNat < drive.records.length) (hx : x ∈ drive.children_of a) {name : Str}
    (hnamed : Named drive x rec name) : worklist.Under (subdirs drive) a u ↔ worklist.Under drive.children_of a u := by
  constructor
  · intro h
    exact Relation.ReflTransGen.mono (fun _ _ hpush => (mem_subdirs.mp hpush).1) _ _ h
  · intro h
    induction h using Relation.ReflTransGen.head_induction_on generalizing x rec name with
    | refl => exact Relation.ReflTransGen.refl
    | @head a q hstep hrest ih =>
      have hq_lt := under_lt_length hinv hroomy (fun _ _ hc => hc) hu hrest
      have ha_lt := (slot_parent_of_child hinv hroomy hq_lt hstep).1
      obtain ⟨-, -, arec, aname, -, -, -, -, ha, hdir⟩ := htree.listed_above hinv hroomy ha_lt hx Relation.ReflTransGen.refl hnamed
      exact Relation.ReflTransGen.head (mem_subdirs.mpr ⟨hstep, hdir⟩) (ih hstep ha)

variable {env : Env} {categories : List (Str × List Str)} {render : Render} {sort_desc : Bool} {filter_mode : FilterMode}
  {filters : SearchFilters}

omit htree hinv hroomy in
/-- The order of two matching slots by directory is the order of these. -/
theorem in_dir_order_iff {x y : UInt32} (hx : emit_if_passes env categories fold render drive filter_mode filters x = true)
    (hy : emit_if_passes env categories fold render drive filter_mode filters y = true) :
    InOrder env categories fold render filter_mode filters drive (·.path_dir) sort_desc x y ↔
      (directed sort_desc (text_order fold) (slot_dir drive render x) (slot_dir drive render y)).isLE := by
  apply in_order_iff (fun {idx row} hrow => ?_) hx hy
  obtain ⟨rec, -, rfl⟩ := Option.map_eq_some_iff.mp hrow
  rfl

/-- Directories whose contents are compared by what they count for lead one another exactly if what
counts does. -/
theorem dir_leads_iff {u v : UInt32} (hu : u.toNat < drive.records.length) (hv : v.toNat < drive.records.length)
    (hmates : DirMates fold drive render u v) :
    worklist.Leads (subdirs drive) (DirsInOrder env categories fold render drive filter_mode filters) u v ↔
      DirCountsBefore fold drive (emit_if_passes env categories fold render drive filter_mode filters) u v := by
  have hpair : ∀ {x y text other}, DirCounts fold drive u x text → DirCounts fold drive v y other →
      emit_if_passes env categories fold render drive filter_mode filters x = true →
      emit_if_passes env categories fold render drive filter_mode filters y = true →
      (InOrder env categories fold render filter_mode filters drive (·.path_dir) false x y ↔ compare text other = .lt) := by
    intro x y text other hcount hcount' hshow hshow'
    obtain ⟨rec, name, hnamed⟩ := named_of_passes htree hshow
    obtain ⟨rec', name', hnamed'⟩ := named_of_passes htree hshow'
    obtain ⟨horder, hstrict⟩ := hmates _ _ _ _ _ _ _ _ hcount hcount' hnamed hnamed'
    rw [in_dir_order_iff hshow hshow', directed, if_neg Bool.false_ne_true, horder]
    generalize compare text other = ord at hstrict
    cases ord <;> simp_all
  constructor
  · intro h x y text other hcount hcount' hshow hshow'
    obtain ⟨rec, name, hnamed⟩ := named_of_passes htree hshow
    obtain ⟨rec', name', hnamed'⟩ := named_of_passes htree hshow'
    obtain ⟨a, hx, ha⟩ := beneath_iff_parent.mp (beneath_iff_dir_counts.mpr ⟨text, hcount⟩)
    obtain ⟨b, hy, hb⟩ := beneath_iff_parent.mp (beneath_iff_dir_counts.mpr ⟨other, hcount'⟩)
    apply (hpair hcount hcount' hshow hshow').mp
    apply h a b
    · exact (under_subdirs htree hinv hroomy hu hx hnamed).mpr ha
    · exact (under_subdirs htree hinv hroomy hv hy hnamed').mpr hb
    · exact mem_sort_indices.mpr hx
    · exact mem_sort_indices.mpr hy
  · intro h a b ha hb x hx y hy hshow hshow'
    obtain ⟨rec, name, hnamed⟩ := named_of_passes htree hshow
    obtain ⟨rec', name', hnamed'⟩ := named_of_passes htree hshow'
    have hx := mem_sort_indices.mp hx
    have hy := mem_sort_indices.mp hy
    have ha := (under_subdirs htree hinv hroomy hu hx hnamed).mp ha
    have hb := (under_subdirs htree hinv hroomy hv hy hnamed').mp hb
    obtain ⟨text, hcount⟩ := beneath_iff_dir_counts.mp (beneath_iff_parent.mpr ⟨a, hx, ha⟩)
    obtain ⟨other, hcount'⟩ := beneath_iff_dir_counts.mp (beneath_iff_parent.mpr ⟨b, hy, hb⟩)
    exact (hpair hcount hcount' hshow hshow').mpr (h x y text other hcount hcount' hshow hshow') hshow hshow'

/-- The contents of a directory come before those of a directory below it. -/
theorem dirs_nested (hfold : fold.Upcase) {p a : UInt32} (hp : p.toNat < drive.records.length) (hbelow : Beneath drive a p) :
    DirsInOrder env categories fold render drive filter_mode filters p a := by
  intro x hx y hy hshow hshow'
  obtain ⟨rec, name, hnamed⟩ := named_of_passes htree hshow
  obtain ⟨rec', name', hnamed'⟩ := named_of_passes htree hshow'
  have hx := mem_sort_indices.mp hx
  have hy := mem_sort_indices.mp hy
  have ha_lt := under_lt_length hinv hroomy (fun _ _ hc => hc) hp hbelow.to_reflTransGen
  obtain ⟨-, -, arec, aname, -, -, -, -, ha, -⟩ := htree.listed_above hinv hroomy ha_lt hy Relation.ReflTransGen.refl hnamed'
  obtain ⟨rest, hrest, hpath⟩ := htree.slot_path_continued hinv hroomy render hp hbelow ha
  refine (in_dir_order_iff hshow hshow').mpr ?_ hshow hshow'
  rw [slot_dir_of_listed htree hinv hroomy render hp hx hnamed, slot_dir_of_listed htree hinv hroomy render ha_lt hy hnamed',
    directed, if_neg Bool.false_ne_true]
  have hopened : ∃ more, more ≠ [] ∧ opened_path (slot_path drive render a) = opened_path (slot_path drive render p) ++ more := by
    rw [hpath, opened_path]
    split
    · exact ⟨rest ++ ['\\'], by simp, by simp⟩
    · exact ⟨rest, hrest, rfl⟩
  obtain ⟨more, hmore, hdir⟩ := hopened
  rw [hdir, text_order_continued hfold _ hmore]
  rfl

omit hinv hroomy in
/-- Slots with one parent are always in order. -/
theorem in_dir_order_of_eq {x y : UInt32} {rec rec' : CompactRecord} {name name' : Str} (hx : Named drive x rec name)
    (hy : Named drive y rec' name') (hparent : rec.parent_idx = rec'.parent_idx) :
    InOrder env categories fold render filter_mode filters drive (·.path_dir) sort_desc x y := by
  intro hshow hshow'
  refine (in_dir_order_iff hshow hshow').mpr ?_ hshow hshow'
  have htie : slot_dir drive render x = slot_dir drive render y := by
    rw [slot_dir_eq htree render hx, slot_dir_eq htree render hy, level_path, level_path, hparent]
  have hself : text_order fold (slot_dir drive render y) (slot_dir drive render y) = .eq := Std.ReflCmp.compare_self
  rw [htie, directed, hself]
  cases sort_desc <;> rfl

omit hinv in
/-- What is at the top comes before all else. -/
theorem root_first (hfold : fold.Upcase) {r c : UInt32} (hr : r ∈ root_slots drive false) :
    InOrder env categories fold render filter_mode filters drive (·.path_dir) false r c := by
  intro hshow hshow'
  refine (in_dir_order_iff hshow hshow').mpr ?_ hshow hshow'
  obtain ⟨rrec, rname, hrn, hnone⟩ := htree.root_named hroomy hr
  obtain ⟨rec, name, hnamed⟩ := named_of_passes htree hshow'
  obtain ⟨more, hmore⟩ := htree.level_path_volume render hnamed
  rw [slot_dir_eq htree render hrn, htree.level_path_top render hrn (if_pos (Or.inl hnone)), slot_dir_eq htree render hnamed,
    hmore, directed, if_neg Bool.false_ne_true]
  by_cases hnil : more = []
  · rw [hnil, List.append_nil]
    exact Std.ReflCmp.isLE_rfl
  · rw [text_order_continued hfold _ hnil]
    rfl

/-- The subdirectories of a directory lead one another exactly if what counts is in order. -/
theorem subdirs_ordered_iff (hfold : fold.Upcase) {p : UInt32} (hp : p.toNat < drive.records.length) :
    (subdirs drive p).Pairwise
        (worklist.Leads (subdirs drive) (DirsInOrder env categories fold render drive filter_mode filters)) ↔
      (subdirs drive p).Pairwise
        (DirCountsBefore fold drive (emit_if_passes env categories fold render drive filter_mode filters)) := by
  apply worklist.pairwise_congr_of_nodup ((nodup_sorted_children hinv hroomy false p).filter _)
  intro u hu v hv hne
  have hu := (mem_subdirs.mp hu).1
  have hv := (mem_subdirs.mp hv).1
  apply dir_leads_iff htree hinv hroomy (slot_parent_of_child hinv hroomy hp hu).1 (slot_parent_of_child hinv hroomy hp hv).1
  exact (compares_dirs htree hinv hroomy hfold render).children htree hinv hroomy
    (fun u x text hcount => (beneath_iff_dir_counts.mpr ⟨text, hcount⟩).to_reflTransGen) hp hu hv hne

/-- So do the directories at the top. -/
theorem root_dirs_ordered_iff (hfold : fold.Upcase) :
    ((root_slots drive false).filter (is_dir drive)).Pairwise
        (worklist.Leads (subdirs drive) (DirsInOrder env categories fold render drive filter_mode filters)) ↔
      ((root_slots drive false).filter (is_dir drive)).Pairwise
        (DirCountsBefore fold drive (emit_if_passes env categories fold render drive filter_mode filters)) := by
  apply worklist.pairwise_congr_of_nodup ((nodup_root_slots hroomy false).filter _)
  intro u hu v hv hne
  obtain ⟨urec, uname, hun, hunone⟩ := htree.root_named hroomy (List.mem_of_mem_filter hu)
  obtain ⟨vrec, vname, hvn, hvnone⟩ := htree.root_named hroomy (List.mem_of_mem_filter hv)
  apply dir_leads_iff htree hinv hroomy (List.getElem?_eq_some_iff.mp hun.get).1 (List.getElem?_eq_some_iff.mp hvn.get).1
  exact (compares_dirs htree hinv hroomy hfold render).roots htree hinv hroomy hun hvn hunone hvnone hne

/-- Where no live directory lists them, nothing matches below slots. -/
theorem subdirs_idle {p : UInt32} (hp : p.toNat < drive.records.length)
    (hidle : ∀ rec name, Named drive p rec name → is_dir drive p = false) :
    (subdirs drive p).Pairwise
      (DirCountsBefore fold drive (emit_if_passes env categories fold render drive filter_mode filters)) := by
  apply List.pairwise_of_forall_mem_list
  intro u hu v _ x _ text _ hcount _ hshow _
  obtain ⟨rec, name, hnamed⟩ := named_of_passes htree hshow
  have hbelow := (beneath_iff_dir_counts.mpr ⟨text, hcount⟩).to_reflTransGen
  obtain ⟨-, -, prec, pname, -, -, -, -, hpn, hdir⟩ := htree.listed_above hinv hroomy hp (mem_subdirs.mp hu).1 hbelow hnamed
  exact absurd hdir (by rw [hidle prec pname hpn]; exact Bool.false_ne_true)

/-- In a tree with well-formed names, directories are in order exactly if their names are. -/
theorem dir_trees_ordered_iff (hfold : fold.Upcase) :
    DirTreesOrdered env categories fold render drive sort_desc filter_mode filters ↔
      DirNamesOrdered fold drive (emit_if_passes env categories fold render drive filter_mode filters) := by
  have hroots := @root_dirs_ordered_iff fold drive htree base base_names hinv hroomy env categories render filter_mode filters hfold
  have hlevel := fun {p} => @subdirs_ordered_iff fold drive htree base base_names hinv hroomy env categories render filter_mode
    filters hfold p
  constructor
  · intro h
    refine ⟨hroots.mp h.roots, fun p rec hget hlive => ?_⟩
    obtain ⟨name, hp⟩ := htree.named hget hlive
    have hp_lt := (List.getElem?_eq_some_iff.mp hget).1
    cases hdir : is_dir drive p with
    | true =>
      obtain ⟨r, hr, hunder⟩ := (reaches_dir_iff hroomy fun _ _ => mem_subdirs).mpr ⟨htree.descends_dirs hinv hroomy hp, hdir⟩
      exact (hlevel hp_lt).mp ((h.trees r hr).level p hunder)
    | false => exact subdirs_idle htree hinv hroomy hp_lt fun _ _ _ => hdir
  · intro h
    have hopened : ∀ {r p}, r ∈ (root_slots drive false).filter (is_dir drive) → worklist.Under (subdirs drive) p r →
        p.toNat < drive.records.length := by
      intro r p hr hunder
      obtain ⟨rec, name, hnamed, -⟩ := htree.root_named hroomy (List.mem_of_mem_filter hr)
      exact under_lt_length hinv hroomy (fun _ _ hc => (mem_subdirs.mp hc).1) (List.getElem?_eq_some_iff.mp hnamed.get).1 hunder
    constructor
    · intro idx hshow
      obtain ⟨rec, name, hnamed⟩ := named_of_passes htree hshow
      exact htree.descends_dirs hinv hroomy hnamed
    · intro d hd _
      have hd_lt := hd.lt_length hinv hroomy
      apply List.pairwise_of_forall_mem_list
      intro x hx y hy hshow hshow'
      obtain ⟨rec, name, hnamed⟩ := named_of_passes htree hshow
      obtain ⟨rec', name', hnamed'⟩ := named_of_passes htree hshow'
      obtain ⟨hxd, -⟩ := NamedTree.parent_of_listed hinv hroomy hd_lt (mem_sort_indices.mp hx) hnamed
      obtain ⟨hyd, -⟩ := NamedTree.parent_of_listed hinv hroomy hd_lt (mem_sort_indices.mp hy) hnamed'
      exact in_dir_order_of_eq htree hnamed hnamed' (hxd.trans hyd.symm) hshow hshow'
    · apply List.pairwise_of_forall_mem_list
      intro r hr r' hr'
      obtain ⟨rec, name, hnamed, hnone⟩ := htree.root_named hroomy hr
      obtain ⟨rec', name', hnamed', hnone'⟩ := htree.root_named hroomy hr'
      exact in_dir_order_of_eq htree hnamed hnamed' (hnone.trans hnone'.symm)
    · intro r hr d _ _ c _
      exact root_first htree hroomy hfold hr
    · intro r hr
      constructor
      · intro p hunder c hc a ha
        apply dirs_nested htree hinv hroomy hfold (hopened hr hunder)
        have hac : worklist.Under drive.children_of a c :=
          Relation.ReflTransGen.mono (fun _ _ hpush => (mem_subdirs.mp hpush).1) _ _ ha
        exact beneath_iff.mpr ⟨c, (mem_subdirs.mp hc).1, hac⟩
      · intro p hunder
        have hp_lt := hopened hr hunder
        apply (hlevel hp_lt).mpr
        by_cases hlive : ∃ rec name, Named drive p rec name
        · obtain ⟨rec, name, hp⟩ := hlive
          exact h.level p rec hp.get hp.live
        · exact subdirs_idle htree hinv hroomy hp_lt fun rec name hp => absurd ⟨rec, name, hp⟩ hlive
    · exact hroots.mpr h.top

end named

/-- The two-phase walk of a drive, or the extension table in its place, hands out the first of the
matching rows as they are sorted by directory, up to the order of rows in one directory, exactly if
the trees of directories are in order, or the table is exact. In a drive tree with well-formed names
the trees are in order, in both directions, exactly if at the top and in each directory the names of
the subdirectories are in the order of what counts for the matches below them. The drive is no deeper
than the cut, so that its rows do not show what the walk had in the cache of directories. -/
theorem path_only_walk_agrees_iff {env : Env} (categories : List (Str × List Str)) {fold : CaseFold} (hfold : fold.Upcase)
    (render : Render) (sort : UnstableSort) {drive : DriveCompactIndex} (hshown : Shown env drive)
    (sort_desc : Bool) (filter_mode : FilterMode) (filters : SearchFilters) :
    CacheUnseen drive render ∧
    (PathOnlySorted env categories fold render sort drive sort_desc filter_mode filters ↔
      if ext_fast_path filters filter_mode then TableExact env categories fold render drive filter_mode filters
      else DirTreesOrdered env categories fold render drive sort_desc filter_mode filters) ∧
    (NamedTree fold drive →
      (DirTreesOrdered env categories fold render drive sort_desc filter_mode filters ↔
        DirNamesOrdered fold drive (emit_if_passes env categories fold render drive filter_mode filters))) := by
  refine ⟨hshown.shallow.cacheUnseen render, ?_, ?_⟩
  · cases hfast : ext_fast_path filters filter_mode with
    | true =>
      rw [if_pos rfl]
      exact path_only_sorted_iff_table sort hshown.served hfast
    | false =>
      rw [if_neg Bool.false_ne_true]
      exact path_only_sorted_iff_trees sort hshown.served hfast
  · intro htree
    obtain ⟨base, base_names, hinv, hroomy⟩ := hshown.served.overlay
    exact dir_trees_ordered_iff htree hinv hroomy hfold

/-- Where one of the two directories at the top lists nothing, descending too. -/
theorem path_only_walk_agrees_iff_stem :
    PathOnlySorted sample_env [] sample_fold (fun _ => []) .stable stem_drive true .All {} := by
  obtain ⟨-, hwalk, hnames⟩ :=
    path_only_walk_agrees_iff [] sample_fold_whole.toUpcase (fun _ => []) .stable stem_drive_shown true .All {}
  have hslow : ext_fast_path {} .All = false := by decide
  rw [hwalk, if_neg (by rw [hslow]; exact Bool.false_ne_true), hnames stem_drive_tree]
  constructor
  · have hdirs : [0, 1, 3].filter (is_dir stem_drive) = [0, 1] := by decide
    rw [stem_drive_roots, hdirs]
    refine List.pairwise_cons.mpr ⟨fun v _ x y text other hcount => ?_, List.pairwise_singleton _ _⟩
    rw [DirCounts, if_pos stem_drive_names.1, stem_drive_children.1] at hcount
    simp at hcount
  · intro p rec hget _
    apply worklist.pairwise_of_short
    refine (List.length_filter_le _ _).trans ?_
    rw [sorted_children, (sorted_perm _ stem_drive false).length_eq]
    exact stem_drive_lists_one hget

/-- A second directory with a file in it, whose name goes on where that of the first one ends. -/
def branch_mft : MftIndex := tree_mft [
  { frs := 18, stdinfo := { flags := DIRECTORY_BIT }, first_name := { name := { offset := 3, bits := 2 }, parent_frs := 5 } },
  { frs := 19, first_name := { name := { offset := 2, bits := 1 }, parent_frs := 18 } }] [3, 4]

def branch_drive : DriveCompactIndex := build_compact_index sample_env 'C' sample_fold branch_mft

theorem branch_drive_served : Served sample_env branch_drive :=
  ⟨'C', sample_fold, branch_mft, ⟨mapped_of_zipIdx (by decide), by decide, by decide, by decide⟩,
    Reachable.start (roomy_build (by decide) _ _ _)⟩

/-- The rows of the drive, evaluated once. -/
theorem branch_drive_rows :
    named_tree_check sample_fold branch_drive = true ∧
      ((List.range branch_drive.records.length).filter fun idx =>
        branch_drive.records[idx]?.any fun rec => rec.parent_idx == NO_ENTRY && rec.name_len != 0).map len_to_u32 = [0, 1, 3] ∧
      (slot_name branch_drive 1 = ['a'] ∧ slot_name branch_drive 3 = ['a', 'b']) ∧
      branch_drive.children_of 1 = [2] ∧ branch_drive.children_of 3 = [4] := by
  decide

theorem branch_drive_tree : NamedTree sample_fold branch_drive := named_tree_of_check branch_drive_rows.1

theorem branch_drive_shown : Shown sample_env branch_drive :=
  ⟨branch_drive_served, branch_drive_tree.shallow branch_drive_served.lt_size⟩

theorem branch_drive_roots : root_slots branch_drive false = [0, 1, 3] := by
  rw [root_slots, branch_drive_rows.2.1]
  apply sort_indices_eq
  decide

theorem branch_drive_names : slot_name branch_drive 1 = ['a'] ∧ slot_name branch_drive 3 = ['a', 'b'] := branch_drive_rows.2.2.1

theorem branch_drive_children : branch_drive.children_of 1 = [2] ∧ branch_drive.children_of 3 = [4] := branch_drive_rows.2.2.2

/-- The file in the first directory is handed out before that in the second one, and sorted after it. -/
theorem path_only_walk_breaks_branch : Shown sample_env branch_drive ∧ NamedTree sample_fold branch_drive ∧
    ¬ PathOnlySorted sample_env [] sample_fold (fun _ => []) .stable branch_drive false .All {} := by
  refine ⟨branch_drive_shown, branch_drive_tree, fun hsorted => ?_⟩
  have htrees := (path_only_sorted_iff_trees .stable branch_drive_served (by decide)).mp hsorted
  have hordered : DirNamesOrdered sample_fold branch_drive
      (emit_if_passes sample_env [] sample_fold (fun _ => []) branch_drive .All {}) := by
    obtain ⟨base, base_names, hinv, hroomy⟩ := branch_drive_served.overlay
    exact (dir_trees_ordered_iff branch_drive_tree hinv hroomy sample_fold_whole.toUpcase).mp htrees
  have htop := hordered.top
  have hdirs : [0, 1, 3].filter (is_dir branch_drive) = [0, 1, 3] := by decide
  rw [branch_drive_roots, hdirs] at htop
  simp only [List.pairwise_cons] at htop
  have hbefore := htop.2.1 3 List.mem_cons_self
  obtain ⟨hname, hname'⟩ := branch_drive_names
  obtain ⟨hchild, hchild'⟩ := branch_drive_children
  have hfirst : DirCounts sample_fold branch_drive 1 2 (sibling_text sample_fold (slot_name branch_drive 1) true) := by
    rw [DirCounts, if_neg (by rw [hname]; decide)]
    exact ⟨Relation.TransGen.single (show (2 : UInt32) ∈ branch_drive.children_of 1 by rw [hchild]; exact List.mem_cons_self), rfl⟩
  have hsecond : DirCounts sample_fold branch_drive 3 4 (sibling_text sample_fold (slot_name branch_drive 3) true) := by
    rw [DirCounts, if_neg (by rw [hname']; decide)]
    exact ⟨Relation.TransGen.single (show (4 : UInt32) ∈ branch_drive.children_of 3 by rw [hchild']; exact List.mem_cons_self), rfl⟩
  have hlt := hbefore 2 4 _ _ hfirst hsecond (by decide) (by decide)
  rw [hname, hname'] at hlt
  exact absurd hlt (by decide)

end uffs.search
