import Uffs.Lib.Headed
import Uffs.Search.BoundedWalks

open uffs.lib uffs.mft uffs.text uffs.bloom uffs.compact uffs.usn

namespace uffs.search

/-! When the rows of a walk are the first of the sorted rows. -/

/-- Two texts by their folded forms, then as they are. -/
def text_order (fold : CaseFold) : Str → Str → Ordering := compareLex (compareOn fold.fold_into) compare

instance (fold : CaseFold) : Std.TransCmp (text_order fold) := by
  unfold text_order
  infer_instance

instance (fold : CaseFold) : Std.LawfulEqCmp (text_order fold) where
  compare_self := by
    intro text
    exact Std.ReflCmp.compare_self
  eq_of_compare := by
    intro text other h
    unfold text_order compareLex at h
    exact Std.LawfulEqOrd.eq_of_compare (Ordering.then_eq_eq.mp h).2

/-- A column that compares rows by one text. -/
structure TextColumn (categories : List (Str × List Str)) (fold : CaseFold) (column : FieldId) (key : DisplayRow → Str) : Prop where
  order : ∀ row_a row_b, row_order categories fold column row_a row_b = text_order fold (key row_a) (key row_b)
  plain : field_to_attr_bit column = 0

theorem path_column (categories : List (Str × List Str)) (fold : CaseFold) : TextColumn categories fold .Path (·.path) :=
  ⟨fun _ _ => rfl, rfl⟩

theorem path_only_column (categories : List (Str × List Str)) (fold : CaseFold) :
    TextColumn categories fold .PathOnly (·.path_dir) := ⟨fun _ _ => rfl, rfl⟩

section order

variable (env : Env) (categories : List (Str × List Str)) (fold : CaseFold) (render : Render) (sort : UnstableSort)
  {drive : DriveCompactIndex} (filter_mode : FilterMode) (filters : SearchFilters)

/-- Two slots, if the rows of both match, stand in the order of their rows. -/
def InOrder (drive : DriveCompactIndex) (key : DisplayRow → Str) (sort_desc : Bool) (idx_a idx_b : UInt32) : Prop :=
  emit_if_passes env categories fold render drive filter_mode filters idx_a = true →
    emit_if_passes env categories fold render drive filter_mode filters idx_b = true →
      ∀ row_a, slot_row drive render idx_a = some row_a → ∀ row_b, slot_row drive render idx_b = some row_b →
        (directed sort_desc (text_order fold) (key row_a) (key row_b)).isLE

/-- All matching rows, sorted. -/
def sorted_matches (drive : DriveCompactIndex) (column : FieldId) (sort_desc : Bool) : List DisplayRow :=
  sort_rows categories fold sort
    (rows_of drive render (matching_slots env categories fold render drive filter_mode filters)) column sort_desc []

variable {env categories fold render filter_mode filters}

/-- The order of two matching slots is that of their keys. -/
theorem in_order_iff {key : DisplayRow → Str} {slot_key : UInt32 → Str}
    (hkey : ∀ {idx row}, slot_row drive render idx = some row → key row = slot_key idx) {sort_desc : Bool} {a b : UInt32}
    (ha : emit_if_passes env categories fold render drive filter_mode filters a = true)
    (hb : emit_if_passes env categories fold render drive filter_mode filters b = true) :
    InOrder env categories fold render filter_mode filters drive key sort_desc a b ↔
      (directed sort_desc (text_order fold) (slot_key a) (slot_key b)).isLE := by
  constructor
  · intro h
    obtain ⟨row_a, hrow_a⟩ := slot_row_of_passes ha
    obtain ⟨row_b, hrow_b⟩ := slot_row_of_passes hb
    rw [← hkey hrow_a, ← hkey hrow_b]
    exact h ha hb row_a hrow_a row_b hrow_b
  · intro h _ _ row_a hrow_a row_b hrow_b
    rwa [hkey hrow_a, hkey hrow_b]

theorem mem_matching_slots {idx : UInt32} : idx ∈ matching_slots env categories fold render drive filter_mode filters ↔
    emit_if_passes env categories fold render drive filter_mode filters idx = true := by
  unfold matching_slots
  rw [List.mem_filter, and_iff_right_iff_imp]
  intro hpasses
  obtain ⟨rec, hget, -⟩ := (emit_if_passes_iff env categories fold render filter_mode filters).mp hpasses
  refine List.mem_map.mpr ⟨idx.toNat, ?_, len_to_u32_of_toNat idx⟩
  exact List.mem_range.mpr (List.getElem?_eq_some_iff.mp hget).1

theorem nodup_matching_slots (hrecords : drive.records.length < UInt32.size) :
    (matching_slots env categories fold render drive filter_mode filters).Nodup := by
  apply List.Nodup.filter
  refine List.Nodup.map_on (fun i hi j hj heq => ?_) List.nodup_range
  have hfits : ∀ k ∈ List.range drive.records.length, k < UInt32.size := fun k hk =>
    Nat.lt_trans (List.mem_range.mp hk) hrecords
  rw [← len_to_u32_toNat (hfits i hi), ← len_to_u32_toNat (hfits j hj), heq]

omit env categories fold filter_mode filters in
/-- Rows tell their slots apart. -/
theorem map_record_index {slots : List UInt32} (hrows : ∀ idx ∈ slots, ∃ row, slot_row drive render idx = some row) :
    (rows_of drive render slots).map DisplayRow.record_index = slots := by
  induction slots with
  | nil => rfl
  | cons idx slots ih =>
    obtain ⟨row, hrow⟩ := hrows idx List.mem_cons_self
    have hrest := ih fun i hi => hrows i (List.mem_cons_of_mem _ hi)
    unfold rows_of at hrest ⊢
    rw [List.filterMap_cons_some hrow, List.map_cons, hrest, slot_row_index hrow]

/-- Rows of slots, once each, are the matching rows exactly if the slots are those that match. -/
theorem rows_perm_matches_iff (hrecords : drive.records.length < UInt32.size) {slots : List UInt32} (hnodup : slots.Nodup)
    (hrows : ∀ idx ∈ slots, ∃ row, slot_row drive render idx = some row) :
    (rows_of drive render slots).Perm
        (rows_of drive render (matching_slots env categories fold render drive filter_mode filters)) ↔
      ∀ idx, idx ∈ slots ↔ emit_if_passes env categories fold render drive filter_mode filters idx = true := by
  have hmatches : ∀ idx ∈ matching_slots env categories fold render drive filter_mode filters,
      ∃ row, slot_row drive render idx = some row := fun _ hidx => slot_row_of_passes (mem_matching_slots.mp hidx)
  constructor
  · intro h idx
    have hslots := h.map DisplayRow.record_index
    rw [map_record_index hrows, map_record_index hmatches] at hslots
    exact hslots.mem_iff.trans mem_matching_slots
  · intro h
    apply List.Perm.filterMap
    rw [List.perm_ext_iff_of_nodup hnodup (nodup_matching_slots hrecords)]
    exact fun idx => (h idx).trans mem_matching_slots.symm

/-- Rows that are the matching rows stand as these are sorted exactly if they are in order. -/
theorem rows_sorted_iff {column : FieldId} {key : DisplayRow → Str} (hcolumn : TextColumn categories fold column key)
    {sort_desc : Bool} {rows : List DisplayRow}
    (hperm : rows.Perm (sorted_matches env categories fold render sort filter_mode filters drive column sort_desc)) :
    rows.map key = (sorted_matches env categories fold render sort filter_mode filters drive column sort_desc).map key ↔
      rows.Pairwise fun row_a row_b => (directed sort_desc (text_order fold) (key row_a) (key row_b)).isLE := by
  apply map_key_eq_iff hperm
  refine (sort_rows_sorted categories fold sort _ hcolumn.plain sort_desc).imp fun {row_a row_b} hle => ?_
  unfold directed at hle ⊢
  rwa [hcolumn.order] at hle

/-- Slots that a walk comes to, once each, give the first of the sorted rows for every limit exactly
if it comes to all that match, and to these in order. -/
theorem walked_first_iff {column : FieldId} {key : DisplayRow → Str} (hcolumn : TextColumn categories fold column key)
    (hrecords : drive.records.length < UInt32.size) {walked : List UInt32} (hnodup : walked.Nodup) (sort_desc : Bool) :
    (∀ limit, FirstOf key limit ((rows_of drive render
        (walked.filter (emit_if_passes env categories fold render drive filter_mode filters))).take limit)
      (sorted_matches env categories fold render sort filter_mode filters drive column sort_desc)) ↔
      (∀ idx, emit_if_passes env categories fold render drive filter_mode filters idx = true → idx ∈ walked) ∧
        walked.Pairwise (InOrder env categories fold render filter_mode filters drive key sort_desc) := by
  have hsorted := sort_rows_perm categories fold sort
    (rows_of drive render (matching_slots env categories fold render drive filter_mode filters)) column sort_desc []
  have hpairs : walked.Pairwise (InOrder env categories fold render filter_mode filters drive key sort_desc) ↔
      (rows_of drive render (walked.filter (emit_if_passes env categories fold render drive filter_mode filters))).Pairwise
        fun row_a row_b => (directed sort_desc (text_order fold) (key row_a) (key row_b)).isLE := by
    rw [rows_of, List.pairwise_filterMap, List.pairwise_filter]
    rfl
  have hperm : (rows_of drive render (walked.filter (emit_if_passes env categories fold render drive filter_mode filters))).Perm
      (sorted_matches env categories fold render sort filter_mode filters drive column sort_desc) ↔
      ∀ idx, emit_if_passes env categories fold render drive filter_mode filters idx = true → idx ∈ walked := by
    have hswap : ∀ rows : List DisplayRow, rows.Perm
        (sorted_matches env categories fold render sort filter_mode filters drive column sort_desc) ↔
          rows.Perm (rows_of drive render (matching_slots env categories fold render drive filter_mode filters)) :=
      fun rows => ⟨fun h => h.trans hsorted, fun h => h.trans hsorted.symm⟩
    rw [hswap, rows_perm_matches_iff hrecords (hnodup.filter _) fun _ hidx => slot_row_of_passes (List.mem_filter.mp hidx).2]
    simp only [List.mem_filter, and_iff_right_iff_imp]
  rw [firstOf_iff, hpairs, ← hperm]
  exact and_congr_right fun h => rows_sorted_iff sort hcolumn h

end order

section walked

variable {drive : DriveCompactIndex} {base : List CompactRecord} {base_names : List UInt8}
  (hinv : OverlayInv drive base base_names) (hroomy : Roomy drive)

theorem sorted_perm (indices : List UInt32) (drive : DriveCompactIndex) (desc : Bool) :
    (sort_indices_by_name indices drive desc).Perm indices := List.mergeSort_perm _ _

/-- Slots whose names are in order are left as they are. -/
theorem sort_indices_eq {indices : List UInt32} {drive : DriveCompactIndex} {desc : Bool}
    (h : indices.Pairwise fun idx_a idx_b =>
      let name_of (idx : UInt32) : Str := (drive.records[idx.toNat]?.map fun rec => rec.name drive.names).getD []
      let ord := drive.fold.cmp_str (name_of idx_a) (name_of idx_b)
      (if desc then ord.swap else ord).isLE) : sort_indices_by_name indices drive desc = indices :=
  List.mergeSort_of_pairwise h

include hroomy in
theorem nodup_root_slots (sort_desc : Bool) : (root_slots drive sort_desc).Nodup := by
  rw [root_slots, (sorted_perm _ _ _).nodup_iff]
  refine List.Nodup.map_on (fun i hi j hj heq => ?_) (List.nodup_range.filter _)
  have hfits : ∀ k ∈ List.range drive.records.length, k < UInt32.size := fun k hk =>
    Nat.lt_trans (List.mem_range.mp hk) hroomy.lt_size
  rw [← len_to_u32_toNat (hfits i (List.mem_of_mem_filter hi)), ← len_to_u32_toNat (hfits j (List.mem_of_mem_filter hj)), heq]

include hinv hroomy

theorem nodup_sorted_children (sort_desc : Bool) (p : UInt32) : (sorted_children drive sort_desc p).Nodup := by
  rw [sorted_children, (sorted_perm _ _ _).nodup_iff]
  exact (children_of_ascending hinv hroomy p).nodup

/-- A slot is listed below one other. -/
theorem unique_parent {p q c : UInt32} (hp : c ∈ drive.children_of p) (hq : c ∈ drive.children_of q) : p = q := by
  obtain ⟨rec, hget, hparent, -⟩ := children_of_sound hinv hroomy hp
  obtain ⟨rec', hget', hparent', -⟩ := children_of_sound hinv hroomy hq
  cases hget.symm.trans hget'
  exact hparent.symm.trans hparent'

theorem under_lt_length {next : UInt32 → List UInt32} (hnext : ∀ p, ∀ c ∈ next p, c ∈ drive.children_of p) {p r : UInt32}
    (hr : r.toNat < drive.records.length) (h : worklist.Under next p r) : p.toNat < drive.records.length := by
  induction h using Relation.ReflTransGen.head_induction_on with
  | refl => exact hr
  | head hstep _ ih => exact (slot_parent_of_child hinv hroomy ih (hnext _ _ hstep)).1

/-- No root is listed below a slot that hangs below a root. -/
theorem root_not_pushed {next : UInt32 → List UInt32} (hnext : ∀ p, ∀ c ∈ next p, c ∈ drive.children_of p) {sort_desc : Bool}
    {r q p : UInt32} (hr : r ∈ root_slots drive sort_desc) (hq : q ∈ root_slots drive sort_desc)
    (hp : worklist.Under next p q) : r ∉ next p := by
  intro hpushed
  obtain ⟨rec, hget, -, hroot⟩ := (mem_root_slots hroomy.lt_size).mp hr
  obtain ⟨rec', hget', -, -⟩ := (mem_root_slots hroomy.lt_size).mp hq
  have hlt := under_lt_length hinv hroomy hnext (List.getElem?_eq_some_iff.mp hget').1 hp
  obtain ⟨-, hparent⟩ := slot_parent_of_child hinv hroomy hlt (hnext p r hpushed)
  simp [slot_parent, hget, hroot] at hparent

/-- A walk down from roots, by the children of what it opens, comes to no slot twice. -/
theorem nodup_walked {next : UInt32 → List UInt32}
    (hsub : ∀ p, ∃ sort_desc, (next p).Sublist (sorted_children drive sort_desc p)) {sort_desc : Bool} {roots popped : List UInt32}
    (hroots : roots.Sublist (root_slots drive sort_desc)) (h : worklist.Listing next roots popped) : popped.Nodup := by
  have hnext : ∀ p, ∀ c ∈ next p, c ∈ drive.children_of p := by
    intro p c hc
    obtain ⟨desc, hlist⟩ := hsub p
    exact mem_sort_indices.mp (hlist.subset hc)
  refine h.nodup (fun c p q hp hq => ?_) (fun p => ?_) (fun r hr q hq p hp => ?_) ((nodup_root_slots hroomy sort_desc).sublist hroots)
  · exact unique_parent hinv hroomy (hnext p c hp) (hnext q c hq)
  · obtain ⟨desc, hlist⟩ := hsub p
    exact (nodup_sorted_children hinv hroomy desc p).sublist hlist
  · exact root_not_pushed hinv hroomy hnext (hroots.subset hr) (hroots.subset hq) hp

end walked

end uffs.search
