import Uffs.Mft.Entries
import Uffs.Mft.PathEnds

open uffs.lib.worklist uffs.bloom

namespace uffs.mft

/-! Termination of the metrics and of the paths of a parsed volume. -/

/-- Records of a directory's entries, as the pass finds them: with the flag set they are made anew
from the names first. -/
def MftIndex.entries_below (self : MftIndex) (rebuild_always : Bool) (idx : Nat) : List Nat :=
  match self.records[idx]? with
  | none => []
  | some rec =>
    if rec.stdinfo.is_directory then
      if rebuild_always then (entries_in rec.frs self.entries_of_names).filterMap fun entry => self.frs_to_idx_opt entry.1
      else (self.child_entries rec).filterMap fun ce => self.frs_to_idx_opt ce.child_frs
    else []

/-- No directory the pass gets to is below itself. -/
def MftIndex.Acyclic (self : MftIndex) (rebuild_always skip_orphans : Bool) : Prop :=
  ∀ start, self.starts skip_orphans start → ∀ idx, Relation.ReflTransGen (Pushes (self.entries_below rebuild_always)) idx start →
    ¬ Relation.TransGen (Pushes (self.entries_below rebuild_always)) idx idx

section passes

variable {index : MftIndex}

theorem sweep_shape {fuel : Nat} {ids : List Nat} {self left : TreeTraversal}
    (h : ids.foldlM (TreeTraversal.sweep_one fuel) self = some left) : left.index.shape = self.index.shape :=
  (@marks_sweep _ _ _ self.index _ h rfl).1

/-- A pass writes nothing but metrics. -/
theorem tree_pass_shape {fuel : Nat} {skip_orphans : Bool} {result : MftIndex}
    (h : tree_metrics.compute_tree_metrics fuel skip_orphans index = some result) : result.shape = index.shape := by
  obtain ⟨left, hrun, rfl⟩ := Option.map_eq_some_iff.mp h
  obtain ⟨top, htop, hrest⟩ := Option.bind_eq_some_iff.mp hrun
  have htop' : top.index.shape = index.shape := by
    rw [TreeTraversal.traverse_from_root] at htop
    split at htop
    · cases htop
      rfl
    · obtain ⟨agg, hvisit⟩ := map_snd_some htop
      exact preprocess_shape _ hvisit
  split at hrest
  · cases hrest
    exact htop'
  · exact (sweep_shape hrest).trans htop'

theorem drop_phantom_unified {rec : FileRecord} (h : rec.is_unified = true) : rec.drop_phantom_default = rec := by
  rw [FileRecord.drop_phantom_default, h]
  rfl

theorem drop_phantom_all (h : ∀ rec ∈ index.records, rec.is_unified = true) :
    { index with records := index.records.map FileRecord.drop_phantom_default } = index := by
  have hrecords : index.records.map FileRecord.drop_phantom_default = index.records :=
    (List.map_congr_left fun rec hrec => drop_phantom_unified (h rec hrec)).trans (List.map_id _)
  rw [hrecords]

/-- Where the first pass starts. -/
def MftIndex.pass_start (self : MftIndex) (rebuild_always : Bool) : MftIndex :=
  if rebuild_always then self.rebuild_children_from_names else self

theorem compute_passes {rebuild_always : Bool} (hunified : ∀ rec ∈ (index.pass_start rebuild_always).records, rec.is_unified = true)
    (fuel : Nat) (skip_orphans : Bool) :
    index.compute_tree_metrics fuel rebuild_always skip_orphans =
      (tree_metrics.compute_tree_metrics fuel skip_orphans (index.pass_start rebuild_always)).bind fun first =>
        if first.needs_heal then tree_metrics.compute_tree_metrics fuel skip_orphans first.rebuild_children_from_names
        else some first := by
  have hphantom := drop_phantom_all hunified
  rw [MftIndex.pass_start] at hphantom ⊢
  rw [MftIndex.compute_tree_metrics, hphantom]
  rfl

/-- Both passes, when the second one has no more to do than the first. -/
theorem two_passes_end_iff {rebuild_always skip_orphans : Bool} {start : MftIndex} (hstart : index.pass_start rebuild_always = start)
    (hunified : ∀ rec ∈ start.records, rec.is_unified = true) (hclosed : start.Closed)
    (hrebuilt : start.rebuild_children_from_names.Closed)
    (hless : ∀ idx, start.rebuild_children_from_names.starts skip_orphans idx → start.starts skip_orphans idx)
    (hbelow : ∀ c p, Pushes start.rebuild_children_from_names.next_level c p → Pushes start.next_level c p) :
    (∃ fuel result, index.compute_tree_metrics fuel rebuild_always skip_orphans = some result) ↔
      ∀ idx, start.starts skip_orphans idx → Acc (Pushes start.next_level) idx := by
  subst hstart
  constructor
  · rintro ⟨fuel, result, hrun⟩
    rw [compute_passes hunified] at hrun
    obtain ⟨first, hfirst, -⟩ := Option.bind_eq_some_iff.mp hrun
    exact (tree_pass_ends_iff hclosed skip_orphans).mp ⟨fuel, first, hfirst⟩
  · intro hacc
    obtain ⟨enough, hends⟩ := tree_pass_ends hclosed hacc
    obtain ⟨enough', hends'⟩ := tree_pass_ends hrebuilt fun idx hidx =>
      Subrelation.accessible (hbelow _ _) (hacc idx (hless idx hidx))
    obtain ⟨first, hfirst⟩ := hends (max enough enough') (Nat.le_max_left _ _) _ rfl
    have hsame : first.rebuild_children_from_names.shape =
        (index.pass_start rebuild_always).rebuild_children_from_names.shape := by
      rw [rebuild_shape, rebuild_shape, tree_pass_shape hfirst]
    obtain ⟨second, hsecond⟩ := hends' (max enough enough') (Nat.le_max_right _ _) _ hsame
    refine ⟨max enough enough', if first.needs_heal then second else first, ?_⟩
    rw [compute_passes hunified, hfirst, Option.bind_some]
    split
    · exact hsecond
    · rfl

end passes

section parsed

variable {index : MftIndex}

theorem entries_of_view (lookup : UInt64 → Option Nat) (rec : FileRecord) :
    (index.child_entries rec).filterMap (fun ce => lookup ce.child_frs) =
      (index.view_record rec).children.filterMap fun entry => lookup entry.1 := by
  have hview : (index.view_record rec).children = (index.child_entries rec).map child_cell.payload :=
    congrArg (List.map child_cell.payload) (walk_chain_eq child_cell index.children _ _).symm
  rw [hview, List.filterMap_map]
  rfl

theorem entries_below_false : index.entries_below false = index.next_level := by
  funext idx
  rw [MftIndex.entries_below, MftIndex.next_level]
  cases index.records[idx]? with
  | none => rfl
  | some rec => rfl

theorem Built.starts_rebuild (h : Built index) (skip_orphans : Bool) :
    index.rebuild_children_from_names.starts skip_orphans = index.starts skip_orphans := by
  obtain ⟨hwf, hopt, -⟩ := h.rebuild
  have hlt : ∀ idx, idx < index.rebuild_children_from_names.records.length ↔ idx < index.records.length := by
    intro idx
    constructor
    · intro hidx
      obtain ⟨old, hold, -⟩ := h.rebuild_record (List.getElem?_eq_getElem hidx)
      exact (List.getElem?_eq_some_iff.mp hold).1
    · intro hidx
      obtain ⟨rec, hrec, -⟩ := hwf.mapped ((hopt _).trans (h.wf.found (List.getElem?_eq_getElem hidx)))
      exact (List.getElem?_eq_some_iff.mp hrec).1
  funext idx
  rw [MftIndex.starts, MftIndex.starts, hlt, hopt]

/-- The rebuilt index has the entries of the names. -/
theorem Built.next_level_rebuild (h : Built index) (c p : Nat) :
    Pushes index.rebuild_children_from_names.next_level c p ↔ Pushes (index.entries_below true) c p := by
  obtain ⟨hwf, hopt, hview⟩ := h.rebuild
  rw [Pushes, Pushes, MftIndex.entries_below]
  cases hrec : index.records[p]? with
  | none =>
    have hnone : index.rebuild_children_from_names.records[p]? = none := by
      cases hrec' : index.rebuild_children_from_names.records[p]? with
      | none => rfl
      | some rec =>
        obtain ⟨old, hold, -⟩ := h.rebuild_record hrec'
        rw [hrec] at hold
        cases hold
    rw [MftIndex.next_level, hnone]
  | some old =>
    obtain ⟨rec, hrec', hfrs⟩ := hwf.mapped ((hopt _).trans (h.wf.found hrec))
    obtain ⟨old', hold', hblank, -⟩ := h.rebuild_record hrec'
    rw [hrec] at hold'
    obtain rfl := Option.some.inj hold'
    have hstdinfo : rec.stdinfo = old.stdinfo := by
      have hfield : rec.blank.stdinfo = old.blank.stdinfo := by rw [hblank]
      exact hfield
    have hchildren := congrArg FileView.children (hview old.frs)
    rw [← hfrs, view_of_mapped (hwf.found hrec') hrec'] at hchildren
    dsimp only
    by_cases hdir : old.stdinfo.is_directory = true
    · rw [next_level_directory hrec' (hstdinfo ▸ hdir), if_pos hdir, if_pos rfl, entries_of_view, hchildren,
        List.filterMap_reverse, List.mem_reverse, hfrs, funext hopt]
    · rw [next_level_file hrec' (hstdinfo ▸ hdir), if_neg hdir]

/-- A name of a file is an entry of its parent, so nothing is found that was not there. -/
theorem Built.below_names (h : Built index) {c p : Nat} (hc : Pushes (index.entries_below true) c p) :
    Pushes index.next_level c p := by
  rw [Pushes, MftIndex.entries_below] at hc
  cases hrec : index.records[p]? with
  | none =>
    rw [hrec] at hc
    cases hc
  | some rec =>
    rw [hrec] at hc
    dsimp only at hc
    split at hc
    next hdir =>
      rw [if_pos rfl] at hc
      obtain ⟨⟨child_frs, number⟩, hentry, hlookup⟩ := List.mem_filterMap.mp hc
      obtain ⟨⟨parent_frs, entry⟩, hlisted, heq⟩ := List.mem_map.mp hentry
      obtain ⟨hmem, hparent⟩ := List.mem_filter.mp hlisted
      obtain rfl := of_decide_eq_true hparent
      subst heq
      obtain ⟨hne, hno, hname⟩ := mem_entries_of_names h.wf hmem
      obtain ⟨number', hchild⟩ := h.entered.of_name hname hne hno
      rw [view_of_mapped (h.wf.found hrec) hrec] at hchild
      rw [Pushes, next_level_directory hrec hdir, entries_of_view]
      exact List.mem_filterMap.mpr ⟨_, hchild, hlookup⟩
    next => cases hc

/-- Records below a record are records. -/
theorem below_finite (hclosed : index.Closed) (start : Nat) :
    {idx | Relation.ReflTransGen (Pushes index.next_level) idx start}.Finite := by
  refine ((Finset.finite_toSet (Finset.range index.records.length)).insert start).subset fun idx hidx => ?_
  rcases Relation.ReflTransGen.cases_head hidx with heq | ⟨parent, hpush, -⟩
  · exact .inl heq
  · refine .inr (Finset.mem_coe.mpr (Finset.mem_range.mpr ?_))
    rw [Pushes, MftIndex.next_level] at hpush
    split at hpush
    · cases hpush
    · split at hpush
      · obtain ⟨ce, -, hlookup⟩ := List.mem_filterMap.mp hpush
        exact hclosed.mapped hlookup
      · cases hpush

theorem acc_iff_acyclic_of (hclosed : index.Closed) {start : Nat} :
    Acc (Pushes index.next_level) start ↔
      ∀ idx, Relation.ReflTransGen (Pushes index.next_level) idx start → ¬ Relation.TransGen (Pushes index.next_level) idx idx :=
  acc_iff_acyclic (below_finite hclosed start)

theorem Built.unified_start (h : Built index) (rebuild_always : Bool) :
    ∀ rec ∈ (index.pass_start rebuild_always).records, rec.is_unified = true := by
  cases rebuild_always with
  | false => exact h.unified
  | true =>
    intro rec hmem
    obtain ⟨i, hrec⟩ := List.mem_iff_getElem?.mp hmem
    obtain ⟨old, hold, hblank, -⟩ := h.rebuild_record hrec
    have hold' : old.blank.is_unified = true := h.unified old (List.mem_of_getElem? hold)
    rw [← hblank] at hold'
    exact hold'

/-- The metrics of a parsed volume end exactly if it is free of cycles. -/
theorem Built.compute_ends_iff (h : Built index) (rebuild_always skip_orphans : Bool) :
    (∃ fuel result, index.compute_tree_metrics fuel rebuild_always skip_orphans = some result) ↔
      index.Acyclic rebuild_always skip_orphans := by
  obtain ⟨hwf, -, -⟩ := h.rebuild
  have hunified := h.unified_start rebuild_always
  cases rebuild_always with
  | false =>
    rw [two_passes_end_iff rfl hunified h.wf.closed hwf.closed (fun idx hidx => h.starts_rebuild skip_orphans ▸ hidx)
      fun c p hc => h.below_names ((h.next_level_rebuild c p).mp hc)]
    rw [MftIndex.Acyclic, entries_below_false]
    exact forall₂_congr fun start _ => acc_iff_acyclic_of h.wf.closed
  | true =>
    have hstart : index.pass_start true = index.rebuild_children_from_names := rfl
    have hagain : index.rebuild_children_from_names.rebuild_children_from_names.Closed := by
      rw [h.rebuild_rebuild]
      exact hwf.closed
    rw [two_passes_end_iff rfl hunified hwf.closed hagain
      (fun idx hidx => by rwa [hstart, h.rebuild_rebuild] at hidx) fun c p hc => by rwa [hstart, h.rebuild_rebuild] at hc]
    have hpushes : Pushes index.rebuild_children_from_names.next_level = Pushes (index.entries_below true) :=
      funext₂ fun c p => propext (h.next_level_rebuild c p)
    rw [hstart, h.starts_rebuild, MftIndex.Acyclic, ← hpushes]
    exact forall₂_congr fun start _ => acc_iff_acyclic_of hwf.closed

theorem Built.closed_result (h : Built index) {rebuild_always skip_orphans : Bool} {fuel : Nat} {result : MftIndex}
    (hrun : index.compute_tree_metrics fuel rebuild_always skip_orphans = some result) : result.Closed := by
  obtain ⟨hwf, -, -⟩ := h.rebuild
  have hagain : index.rebuild_children_from_names.rebuild_children_from_names.Closed := by
    rw [h.rebuild_rebuild]
    exact hwf.closed
  have hstart : (index.pass_start rebuild_always).Closed ∧
      (index.pass_start rebuild_always).rebuild_children_from_names.Closed := by
    cases rebuild_always with
    | false => exact ⟨h.wf.closed, hwf.closed⟩
    | true =>
      exact ⟨hwf.closed, hagain⟩
  rw [compute_passes (h.unified_start rebuild_always)] at hrun
  obtain ⟨first, hfirst, hrest⟩ := Option.bind_eq_some_iff.mp hrun
  have hshape := tree_pass_shape hfirst
  split at hrest
  · refine hstart.2.of_shape ((tree_pass_shape hrest).trans ?_)
    rw [rebuild_shape, rebuild_shape, hshape]
  · cases hrest
    exact hstart.1.of_shape hshape

end parsed

/-- The resolver ends, and so does the path of every record it marks valid. -/
def MftIndex.PathsEnd (self : MftIndex) : Prop :=
  ∀ include_system_metafiles, ∃ fuel state, PathResolver.build_within self include_system_metafiles fuel = some state ∧
    ∀ idx, PathResolver.is_valid_idx state idx = true → ∀ volume, ∃ fuel path, materialize_path self volume fuel idx = some path

theorem MftIndex.Closed.paths_end {index : MftIndex} (hclosed : index.Closed) : index.PathsEnd := by
  intro include_system_metafiles
  obtain ⟨⟨fuel, hbuild⟩, hvalidated⟩ := build_ends hclosed include_system_metafiles
  refine ⟨fuel, _, hbuild, fun idx hvalid volume => ?_⟩
  exact (hvalidated.stops idx (beq_iff_eq.mp hvalid)).materialize_path volume

/-- Metrics and paths of a parsed volume end exactly if no directory the pass gets to is below
itself; the paths end in any case. -/
theorem metrics_end_iff (env : Env) (buffers : List Buffer) (hfits : ∀ arena, total_size buffers arena ≤ arena.limit)
    (rebuild_always skip_orphans : Bool) :
    ((∃ fuel result, (parse_all env buffers MftIndex.new).compute_tree_metrics fuel rebuild_always skip_orphans = some result) ∧
      ∀ index, (index = parse_all env buffers MftIndex.new ∨ ∃ fuel,
        (parse_all env buffers MftIndex.new).compute_tree_metrics fuel rebuild_always skip_orphans = some index) →
          index.PathsEnd) ↔
      (parse_all env buffers MftIndex.new).Acyclic rebuild_always skip_orphans := by
  have hbuilt := built_parsed env hfits
  rw [← hbuilt.compute_ends_iff rebuild_always skip_orphans, and_iff_left_iff_imp]
  rintro - index (heq | ⟨fuel, hrun⟩)
  · rw [heq]
    exact hbuilt.wf.closed.paths_end
  · exact (hbuilt.closed_result hrun).paths_end

section sample

/-- The root directory, which is its own parent. -/
def root_5 : Buffer := ⟨5, record_bytes true 0 [file_name_attribute ROOT_FRS [46]]⟩

/-- Directory 30 of the root. -/
def dir_30 : Buffer := ⟨30, record_bytes true 0 [file_name_attribute ROOT_FRS [97]]⟩

/-- Directories 31 and 32, each the parent of the other. -/
def dir_31 : Buffer := ⟨31, record_bytes true 0 [file_name_attribute 32 [97]]⟩

def dir_32 : Buffer := ⟨32, record_bytes true 0 [file_name_attribute 31 [98]]⟩

end sample

theorem metrics_end_iff_tree :
    (∃ fuel result, (parse_all compact.sample_env [root_5, dir_30] MftIndex.new).compute_tree_metrics fuel false false =
      some result) ∧
      ∀ index, (index = parse_all compact.sample_env [root_5, dir_30] MftIndex.new ∨ ∃ fuel,
        (parse_all compact.sample_env [root_5, dir_30] MftIndex.new).compute_tree_metrics fuel false false = some index) →
          index.PathsEnd := by
  obtain ⟨hfits, hlen, hroot, hdir⟩ : (∀ arena, total_size [root_5, dir_30] arena ≤ arena.limit) ∧
      (parse_all compact.sample_env [root_5, dir_30] MftIndex.new).records.length = 2 ∧
      (parse_all compact.sample_env [root_5, dir_30] MftIndex.new).entries_below false 0 = [1] ∧
      (parse_all compact.sample_env [root_5, dir_30] MftIndex.new).entries_below false 1 = [] := by decide +kernel
  refine (metrics_end_iff compact.sample_env [root_5, dir_30] hfits false false).mpr ?_
  generalize parse_all compact.sample_env [root_5, dir_30] MftIndex.new = index at hlen hroot hdir
  have hup : ∀ c p, Pushes (index.entries_below false) c p → p < c := by
    intro c p hc
    rw [Pushes] at hc
    obtain rfl | rfl | hlarge : p = 0 ∨ p = 1 ∨ 2 ≤ p := by omega
    · rw [hroot] at hc
      exact (List.mem_singleton.mp hc) ▸ Nat.one_pos
    · rw [hdir] at hc
      cases hc
    · rw [MftIndex.entries_below, List.getElem?_eq_none (by omega)] at hc
      cases hc
  intro start _ idx _ hcycle
  have hgt : ∀ c, Relation.TransGen (Pushes (index.entries_below false)) c idx → idx < c := by
    intro c hpath
    induction hpath using Relation.TransGen.head_induction_on with
    | single hc => exact hup _ _ hc
    | head hc _ ih => exact ih.trans (hup _ _ hc)
  exact absurd (hgt idx hcycle) (Nat.lt_irrefl _)

/-- Two directories that name each other as parent: the sweep descends for ever. -/
theorem parent_cycle_never_ends :
    (∀ buffer ∈ [root_5, dir_31, dir_32], ∀ index, (process_record compact.sample_env buffer.data buffer.frs index).1 = true) ∧
    ¬ ∃ fuel result, (parse_all compact.sample_env [root_5, dir_31, dir_32] MftIndex.new).compute_tree_metrics fuel false false =
      some result := by
  obtain ⟨hfits, hread, hlen, hdown, hback⟩ : (∀ arena, total_size [root_5, dir_31, dir_32] arena ≤ arena.limit) ∧
      (∀ buffer ∈ [root_5, dir_31, dir_32], (read_segment buffer.data buffer.frs).isSome = true) ∧
      (parse_all compact.sample_env [root_5, dir_31, dir_32] MftIndex.new).records.length = 3 ∧
      2 ∈ (parse_all compact.sample_env [root_5, dir_31, dir_32] MftIndex.new).entries_below false 1 ∧
      1 ∈ (parse_all compact.sample_env [root_5, dir_31, dir_32] MftIndex.new).entries_below false 2 := by decide +kernel
  have hbuilt := built_parsed compact.sample_env hfits
  refine ⟨fun buffer hmem index => ?_, fun hends => ?_⟩
  · obtain ⟨segment, hsegment⟩ := Option.isSome_iff_exists.mp (hread buffer hmem)
    rw [process_record, hsegment]
  have hacyclic := (hbuilt.compute_ends_iff false false).mp hends
  exact hacyclic 1 ⟨by omega, .inl rfl⟩ 1 .refl (.tail (.single hback) hdown)

end uffs.mft
