import Uffs.Aggregate.Contents

open uffs.lib uffs.compact
open uffs.daemon (FieldId)

namespace uffs.aggregate

/-! What the result of an aggregation is when it does not depend on how the records were split and merged. -/

section groups

variable {κ : Type} [DecidableEq κ] (key : Fed → Option κ)

/-- The groups of some records with their statistics. -/
def groups_of (fed : List Fed) : Groups κ := (fed.filterMap key).dedup.map fun k => (k, size_stats (with_key key fed k))

variable {key} {fed : List Fed}

theorem groups_of_keys : (groups_of key fed).map Prod.fst = (fed.filterMap key).dedup := by
  rw [groups_of, List.map_map]
  exact List.map_id _

theorem mem_groups_of {group : κ × StatsAccumulator} (h : group ∈ groups_of key fed) :
    with_key key fed group.1 ≠ [] ∧ group.2 = size_stats (with_key key fed group.1) := by
  obtain ⟨k, hk, rfl⟩ := List.mem_map.mp h
  obtain ⟨e, he, hkey⟩ := List.mem_filterMap.mp (List.mem_dedup.mp hk)
  exact ⟨List.ne_nil_of_mem (mem_with_key.mpr ⟨he, hkey⟩), rfl⟩

theorem groups_of_describe (key : Fed → Option κ) (fed : List Fed) : GroupsDescribe key fed (groups_of key fed) := by
  have hnodup : NodupKeys (groups_of key fed) := by
    rw [NodupKeys, groups_of_keys]
    exact List.nodup_dedup _
  refine ⟨hnodup, fun k hnone => ?_, fun k v hsome => mem_groups_of (hnodup.lookup_eq_some_iff.mp hsome)⟩
  refine List.eq_nil_iff_forall_not_mem.mpr fun e he => ?_
  obtain ⟨hmem, hkey⟩ := mem_with_key.mp he
  have hentry : (k, size_stats (with_key key fed k)) ∈ groups_of key fed :=
    List.mem_map.mpr ⟨k, List.mem_dedup.mpr (List.mem_filterMap.mpr ⟨e, hmem, hkey⟩), rfl⟩
  rw [hnodup.lookup_eq_some_iff.mpr hentry] at hnone
  cases hnone

/-- Groups with the right statistics are these groups. -/
theorem GroupsDescribe.perm_groups_of {xs : List Fed} {groups : Groups κ} (h : GroupsDescribe key xs groups)
    (hperm : xs.Perm fed) : groups.Perm (groups_of key fed) := by
  refine Grouped.perm_of_unique h (groups_of_describe key fed) hperm fun hitems hv hw => ?_
  rw [hv, hw]
  exact stats_of_perm _ hitems

/-- Most records first, and most bytes first. -/
def count_key (group : κ × StatsAccumulator) : ℤ := -(group.2.count.toNat : ℤ)
def sum_key (group : κ × StatsAccumulator) : ℤ := -(group.2.sum.toNat : ℤ)

theorem desc_goes_by {α : Type} (value : α → UInt64) :
    GoesBy (fun a b => value b ≤ value a) fun a => -((value a).toNat : ℤ) := by
  intro a b
  dsimp only
  rw [UInt64.le_iff_toNat_le]
  omega

/-- Sorted values are the same in every order of the entries. -/
theorem sorted_values_eq {α : Type} {value : α → UInt64} {a b : List α} (hperm : a.Perm b) :
    (sort_by_desc value a).map value = (sort_by_desc value b).map value := by
  have hkeys := ((desc_goes_by value).ranked a).map_key_eq ((desc_goes_by value).ranked b)
    (((List.perm_insertionSort _ a).trans hperm).trans (List.perm_insertionSort _ b).symm)
  have hback := congrArg (List.map fun k : ℤ => (-k).toNat.toUInt64) hkeys
  simpa [sort_by_desc, List.map_map, Function.comp_def] using hback

end groups

section canonical

variable (calls : Calls) (drives : List DriveCompactIndex) (ext_map : ExtensionMap) (total_matched total_bytes : UInt64)

/-- An accumulator fed all records one after the other. -/
def sequential (kind : AggregateKind) (fed : List Fed) : kind.Accumulator :=
  fed.foldl (GroupAccumulator.feed .forward calls ext_map kind) (GroupAccumulator.from_kind kind)

/-- The result of feeding all records to one accumulator. -/
def sequential_data (options : FinalizeOptions) (kind : AggregateKind) (fed : List Fed) : AggregateResultData :=
  finalize_one .forward calls drives ext_map options total_matched total_bytes kind (sequential calls ext_map kind fed)

/-- The best of some records, as rows. -/
def best_samples (spec : TopHitsSpec) (items : List Fed) : List SampleRow :=
  (((items.map (SampleHeap.entry_of spec)).insertionSort fun a b => ¬b.better spec.sort_desc a).take spec.count.toNat).map
    (materialize_sample_entry drives spec.effective_projection)

/-- The sample rows of a group. -/
def group_samples (sample : Option TopHitsSpec) (items : List Fed) : List SampleRow :=
  match sample with
  | none => []
  | some spec => best_samples drives spec items

/-- The row of a group of terms. -/
def shown_terms_row (options : FinalizeOptions) (field : FieldId) (sample : Option TopHitsSpec) (fed : List Fed)
    (group : UInt64 × StatsAccumulator) : BucketRow :=
  terms_row calls ext_map field options total_matched total_bytes
    (fun key => group_samples drives sample (with_key (group_key calls ext_map field) fed key)) group

/-- The row of a group of a rollup, with the buckets of its nested aggregation. -/
def rollup_row (mode : RollupMode) (sub_buckets : UInt64 → List BucketRow) (group : UInt64 × StatsAccumulator) : BucketRow :=
  { BucketRow.from_stats (resolve_rollup_key mode drives group.1) group.2 total_matched total_bytes with
    sub_buckets := sub_buckets group.1 }

/-- The buckets of the nested aggregation of a group. -/
def nested_rows (sub : Option AggregateKind) (items : List Fed) : List BucketRow :=
  match sub with
  | none => []
  | some kind =>
    sub_result_to_bucket_rows (sequential_data calls drives ext_map total_matched total_bytes {} kind items)

def shown_rollup_row (mode : RollupMode) (sub : Option AggregateKind) (fed : List Fed) (group : UInt64 × StatsAccumulator) :
    BucketRow :=
  rollup_row drives total_matched total_bytes mode
    (fun key => nested_rows calls drives ext_map total_matched total_bytes sub (with_key (rollup_key mode) fed key)) group

/-- A group that is among the first `top`, however ties are broken. -/
def Shown {κ : Type} (order : κ × StatsAccumulator → ℤ) (groups : Groups κ) (top : UInt16) (group : κ × StatsAccumulator) : Prop :=
  group ∈ groups ∧ rank order groups group < top.toNat

/-- The rows are determined: groups that tie for a row, and records that tie for a sample of a row, look alike. -/
def RowsDetermined : FinalizeOptions → AggregateKind → List Fed → Prop
  | options, .Terms field top sample, fed =>
    TiesAlike count_key (shown_terms_row calls drives ext_map total_matched total_bytes options field sample fed) top.toNat
      (groups_of (group_key calls ext_map field) fed) ∧
    ∀ group, Shown count_key (groups_of (group_key calls ext_map field) fed) top group → ∀ spec, sample = some spec →
      TiesAlike (sample_key spec.sort_desc) (materialize_sample_entry drives spec.effective_projection) spec.count.toNat
        ((with_key (group_key calls ext_map field) fed group.1).map (SampleHeap.entry_of spec))
  | _, .Rollup mode top none, fed =>
    TiesAlike sum_key (shown_rollup_row calls drives ext_map total_matched total_bytes mode none fed) top.toNat
      (groups_of (rollup_key mode) fed)
  | _, .Rollup mode top (some sub), fed =>
    TiesAlike sum_key (shown_rollup_row calls drives ext_map total_matched total_bytes mode (some sub) fed) top.toNat
      (groups_of (rollup_key mode) fed) ∧
    ∀ group, Shown sum_key (groups_of (rollup_key mode) fed) top group →
      RowsDetermined {} sub (with_key (rollup_key mode) fed group.1)
  | _, _, _ => True

/-- The result is determined: its rows are, and no two candidates are duplicates of each other unless no group is kept. -/
def Determined (options : FinalizeOptions) : AggregateKind → List Fed → Prop
  | .Duplicates keys _ _ max_groups, fed => max_groups = 0 ∨ fed.Pairwise fun a b =>
    DuplicateAccumulator.candidate a → DuplicateAccumulator.candidate b →
      CompositeKey.from_record calls keys a ≠ CompositeKey.from_record calls keys b
  | kind, fed => RowsDetermined calls drives ext_map total_matched total_bytes options kind fed

end canonical

section sufficient

variable {calls : Calls} {drives : List DriveCompactIndex} {ext_map : ExtensionMap} {total_matched total_bytes : UInt64}
  {options : FinalizeOptions} {walk : WalkOrder} {xs fed : List Fed}

theorem describes_sequential (kind : AggregateKind) (fed : List Fed) :
    Describes calls ext_map kind fed (sequential calls ext_map kind fed) := by
  induction fed using List.reverseRecOn with
  | nil => exact describes_fresh kind
  | append_singleton fed e ih =>
    rw [sequential, List.foldl_append]
    exact describes_feed ih e

/-- Groups walked in any order and sorted are ranked, as are the groups of the records. -/
theorem keyed_ranked {κ : Type} [DecidableEq κ] {key : Fed → Option κ} {groups : Groups κ} (h : GroupsDescribe key xs groups)
    (hperm : xs.Perm fed) (walk : WalkOrder) (value : StatsAccumulator → UInt64) :
    Ranked (fun group : κ × StatsAccumulator => -((value group.2).toNat : ℤ))
        (sort_by_desc (fun group => value group.2) (walk.visit groups)) ∧
      (sort_by_desc (fun group => value group.2) (walk.visit groups)).Perm (groups_of key fed) := by
  refine ⟨(desc_goes_by _).ranked _, ?_⟩
  exact ((List.perm_insertionSort _ _).trans (walk.perm groups)).trans (h.perm_groups_of hperm)

/-- The first rows of groups, where the row of each is the one the records determine. -/
theorem top_rows_eq {κ : Type} [DecidableEq κ] {key : Fed → Option κ} {groups : Groups κ} (h : GroupsDescribe key xs groups)
    (hperm : xs.Perm fed) {value : StatsAccumulator → UInt64} {top : UInt16} {row : κ × StatsAccumulator → BucketRow}
    {row' : κ × StatsAccumulator → BucketRow}
    (halike : TiesAlike (fun group => -((value group.2).toNat : ℤ)) row top.toNat (groups_of key fed))
    (hrow : ∀ group, Shown (fun group => -((value group.2).toNat : ℤ)) (groups_of key fed) top group → row' group = row group) :
    ((sort_by_desc (fun group => value group.2) (walk.visit groups)).take top.toNat).map row' =
      ((sort_by_desc (fun group => value group.2) (groups_of key fed)).take top.toNat).map row := by
  obtain ⟨hranked, hall⟩ := keyed_ranked h hperm walk value
  have hsame : ((sort_by_desc (fun group => value group.2) (walk.visit groups)).take top.toNat).map row' =
      ((sort_by_desc (fun group => value group.2) (walk.visit groups)).take top.toNat).map row := by
    refine List.map_congr_left fun group hgroup => hrow group ⟨?_, ?_⟩
    · exact hall.mem_iff.mp (List.mem_of_mem_take hgroup)
    · rw [← rank_perm hall]
      exact hranked.rank_lt_of_mem_take hgroup
  rw [hsame]
  exact hranked.take_map_eq ((desc_goes_by _).ranked _) (hall.trans (List.perm_insertionSort _ _).symm) (halike.perm hall.symm)

theorem sample_rows_eq {spec : TopHitsSpec} {key : Fed → Option UInt64} {heaps : List (UInt64 × SampleHeap)}
    (h : Grouped key (fun items heap => SampleHeap.KeepsBest spec (items.map (SampleHeap.entry_of spec)) heap) xs heaps)
    (hperm : xs.Perm fed) {k : UInt64} (hne : with_key key fed k ≠ [])
    (halike : TiesAlike (sample_key spec.sort_desc) (materialize_sample_entry drives spec.effective_projection) spec.count.toNat
      ((with_key key fed k).map (SampleHeap.entry_of spec))) :
    sample_rows walk drives spec heaps k = best_samples drives spec (with_key key fed k) := by
  have hitems : (with_key key xs k).Perm (with_key key fed k) := hperm.filter _
  obtain ⟨heap, hheap⟩ := h.lookup_isSome fun hempty => hne (hempty ▸ hitems).nil_eq.symm
  have hkeeps := (h.present k heap hheap).2.perm (hitems.map (SampleHeap.entry_of spec))
  have hgoes := drain_goes_by spec.sort_desc
  rw [sample_rows, hheap]
  exact hkeeps.map_eq (hgoes.ranked _) ((List.perm_insertionSort _ _).trans (walk.perm heap)) (hgoes.ranked _)
    (List.perm_insertionSort _ _) halike

/-- The result of terms that the records determine. -/
def terms_data (calls : Calls) (drives : List DriveCompactIndex) (ext_map : ExtensionMap) (total_matched total_bytes : UInt64)
    (options : FinalizeOptions) (field : FieldId) (top : UInt16) (sample : Option TopHitsSpec) (fed : List Fed) :
    AggregateResultData :=
  let sorted := sort_by_desc (·.2.count) (groups_of (group_key calls ext_map field) fed)
  .Buckets field.canonical_name
    ((sorted.take top.toNat).map (shown_terms_row calls drives ext_map total_matched total_bytes options field sample fed))
    (sum_u64 ((sorted.drop top.toNat).map (·.2.count))) (groups_of (group_key calls ext_map field) fed).length

variable {field : FieldId} {sample : Option TopHitsSpec}

theorem finalize_terms_eq {top : UInt16} {groups : Groups UInt64}
    (h : GroupsDescribe (group_key calls ext_map field) xs groups) (hperm : xs.Perm fed) {samples : UInt64 → List SampleRow}
    (hrows : RowsDetermined calls drives ext_map total_matched total_bytes options (.Terms field top sample) fed)
    (hsamples : ∀ group, Shown count_key (groups_of (group_key calls ext_map field) fed) top group →
      samples group.1 = group_samples drives sample (with_key (group_key calls ext_map field) fed group.1)) :
    finalize_terms walk calls ext_map field top groups samples options total_matched total_bytes =
      terms_data calls drives ext_map total_matched total_bytes options field top sample fed := by
  have hall := h.perm_groups_of hperm
  have hcounts : (keyed_rows walk groups).map (·.2.count) =
      (sort_by_desc (·.2.count) (groups_of (group_key calls ext_map field) fed)).map (·.2.count) :=
    sorted_values_eq ((walk.perm groups).trans hall)
  have hrow : ∀ group, Shown count_key (groups_of (group_key calls ext_map field) fed) top group →
      terms_row calls ext_map field options total_matched total_bytes samples group =
        shown_terms_row calls drives ext_map total_matched total_bytes options field sample fed group := by
    intro group hgroup
    rw [shown_terms_row, terms_row, terms_row, hsamples group hgroup]
  simp only [finalize_terms, terms_data, List.map_drop, hcounts, hall.length_eq]
  rw [keyed_rows, top_rows_eq h hperm hrows.1 hrow]

theorem terms_eq {top : UInt16} {acc : (AggregateKind.Terms field top sample).Accumulator}
    (h : Describes calls ext_map (.Terms field top sample) xs acc) (hperm : xs.Perm fed)
    (hrows : RowsDetermined calls drives ext_map total_matched total_bytes options (.Terms field top sample) fed) :
    finalize_one walk calls drives ext_map options total_matched total_bytes (.Terms field top sample) acc =
      terms_data calls drives ext_map total_matched total_bytes options field top sample fed := by
  cases sample with
  | none => exact finalize_terms_eq h hperm hrows fun _ _ => rfl
  | some spec =>
    refine finalize_terms_eq h.1 hperm hrows fun group hgroup => ?_
    exact sample_rows_eq h.2 hperm (mem_groups_of hgroup.1).1 (hrows.2 group hgroup spec rfl)

/-- The result of a rollup that the records determine. -/
def rollup_data (calls : Calls) (drives : List DriveCompactIndex) (ext_map : ExtensionMap) (total_matched total_bytes : UInt64)
    (mode : RollupMode) (top : UInt16) (sub : Option AggregateKind) (fed : List Fed) : AggregateResultData :=
  .Rollup (rollup_mode_text mode)
    (((sort_by_desc (·.2.sum) (groups_of (rollup_key mode) fed)).take top.toNat).map
      (shown_rollup_row calls drives ext_map total_matched total_bytes mode sub fed))

theorem finalize_rollup_eq {mode : RollupMode} {top : UInt16} {sub : Option AggregateKind} {groups : Groups UInt64}
    (h : GroupsDescribe (rollup_key mode) xs groups) (hperm : xs.Perm fed) {sub_buckets : UInt64 → List BucketRow}
    (halike : TiesAlike sum_key (shown_rollup_row calls drives ext_map total_matched total_bytes mode sub fed) top.toNat
      (groups_of (rollup_key mode) fed))
    (hsub : ∀ group, Shown sum_key (groups_of (rollup_key mode) fed) top group → sub_buckets group.1 =
      nested_rows calls drives ext_map total_matched total_bytes sub (with_key (rollup_key mode) fed group.1)) :
    finalize_rollup walk drives mode top groups sub_buckets total_matched total_bytes =
      rollup_data calls drives ext_map total_matched total_bytes mode top sub fed := by
  have hrow : ∀ group, Shown sum_key (groups_of (rollup_key mode) fed) top group →
      rollup_row drives total_matched total_bytes mode sub_buckets group =
        shown_rollup_row calls drives ext_map total_matched total_bytes mode sub fed group := by
    intro group hgroup
    rw [shown_rollup_row, rollup_row, rollup_row, hsub group hgroup]
  exact congrArg _ (top_rows_eq h hperm halike hrow)

theorem buckets_eq {boundaries : List UInt64} {fresh : Nat} {ys : List Fed} {a b : List StatsAccumulator}
    (ha : BucketsDescribe field boundaries fresh xs a) (hb : BucketsDescribe field boundaries fresh ys b)
    (hperm : xs.Perm ys) : a = b := by
  have hempty : xs = [] ↔ ys = [] := by rw [← List.length_eq_zero_iff, ← List.length_eq_zero_iff, hperm.length_eq]
  have hlen : a.length = b.length := by
    rw [ha.1, hb.1]
    simp only [hempty]
  refine List.ext_getElem hlen fun i hi hi' => ?_
  have hvalue : a[i]?.getD StatsAccumulator.new = b[i]?.getD StatsAccumulator.new := by
    rw [ha.2, hb.2]
    exact stats_of_perm _ (hperm.filter _)
  rwa [List.getElem?_eq_getElem hi, List.getElem?_eq_getElem hi'] at hvalue

theorem sorted_entries_eq {σ : Type} {a b : List (Int64 × σ)} (ha : NodupKeys a) (hperm : a.Perm b) :
    (a.insertionSort fun x y => x.1 ≤ y.1) = b.insertionSort fun x y => x.1 ≤ y.1 := by
  have hgoes : GoesBy (fun x y : Int64 × σ => x.1 ≤ y.1) fun entry => entry.1.toInt := fun x y => Int64.le_iff_toInt_le
  have hsorted : (a.insertionSort fun x y => x.1 ≤ y.1).Perm (b.insertionSort fun x y => x.1 ≤ y.1) :=
    ((List.perm_insertionSort _ a).trans hperm).trans (List.perm_insertionSort _ b).symm
  refine hsorted.eq_of_pairwise (fun x y hx hy hxy hyx => ?_) (hgoes.ranked a) (hgoes.ranked b)
  have hxa := (List.mem_insertionSort _).mp hx
  have hya := hperm.mem_iff.mpr ((List.mem_insertionSort _).mp hy)
  exact List.inj_on_of_nodup_map ha hxa hya (Int64.toInt_inj.mp (le_antisymm hxy hyx))

theorem date_histogram_eq {calendar : CalendarInterval} {ys : List Fed} {a b : Groups Int64}
    (ha : GroupsDescribe (period_key field calendar) xs a) (hb : GroupsDescribe (period_key field calendar) ys b)
    (hperm : xs.Perm ys) :
    finalize_date_histogram field a options total_matched total_bytes =
      finalize_date_histogram field b options total_matched total_bytes := by
  have hall := (ha.perm_groups_of hperm).trans (hb.perm_groups_of (List.Perm.refl ys)).symm
  have hsorted : (a.insertionSort fun x y => x.1 ≤ y.1) = b.insertionSort fun x y => x.1 ≤ y.1 :=
    sorted_entries_eq ha.nodup hall
  rw [finalize_date_histogram, finalize_date_histogram, hsorted, hall.length_eq]

theorem distinct_length_eq {ys : List Fed} {a b : List UInt64} (ha : DistinctDescribes calls ext_map field xs a)
    (hb : DistinctDescribes calls ext_map field ys b) (hperm : xs.Perm ys) : a.length = b.length := by
  refine ((List.perm_ext_iff_of_nodup ha.1 hb.1).mpr fun key => ?_).length_eq
  rw [ha.2, hb.2]
  simp only [hperm.mem_iff]

/-- Where the rows are determined, so is the whole result of any accumulator that was fed the records. -/
theorem data_eq_of_rows {kind : AggregateKind} {acc : kind.Accumulator} (h : Describes calls ext_map kind xs acc) (hperm : xs.Perm fed)
    (hrows : RowsDetermined calls drives ext_map total_matched total_bytes options kind fed) (hkind : ∀ keys verify sample max_groups,
      kind ≠ .Duplicates keys verify sample max_groups) :
    finalize_one walk calls drives ext_map options total_matched total_bytes kind acc =
      sequential_data calls drives ext_map total_matched total_bytes options kind fed := by
  have hseq : Describes calls ext_map kind fed (sequential calls ext_map kind fed) := describes_sequential kind fed
  induction kind using AggregateKind.Accumulator.induct generalizing walk xs fed options with
  | case1 =>
    obtain rfl : acc = xs.length.toUInt64 := h
    have hcount : sequential calls ext_map .Count fed = fed.length.toUInt64 := hseq
    rw [sequential_data, hcount, hperm.length_eq]
    rfl
  | case2 field =>
    obtain rfl : acc = stats_of (extract_value field ·.record) xs := h
    have hstats : sequential calls ext_map (.Stats field) fed = stats_of (extract_value field ·.record) fed := hseq
    rw [sequential_data, hstats, stats_of_perm _ hperm]
    rfl
  | case3 field top =>
    exact (terms_eq h hperm hrows).trans (terms_eq hseq (List.Perm.refl fed) hrows).symm
  | case4 field top spec =>
    exact (terms_eq h hperm hrows).trans (terms_eq hseq (List.Perm.refl fed) hrows).symm
  | case5 field =>
    obtain rfl : acc = sequential calls ext_map (.Histogram field) fed := buckets_eq h hseq hperm
    rfl
  | case6 field boundaries =>
    obtain rfl : acc = sequential calls ext_map (.Range field boundaries) fed := buckets_eq h hseq hperm
    rfl
  | case7 field calendar => exact date_histogram_eq h hseq hperm
  | case8 field =>
    obtain rfl : acc = (xs.countP (is_missing field ·.record)).toUInt64 := h
    have hcount : sequential calls ext_map (.Missing field) fed = (fed.countP (is_missing field ·.record)).toUInt64 := hseq
    rw [sequential_data, hcount, hperm.countP_eq]
    rfl
  | case9 field =>
    have hlen := distinct_length_eq h hseq hperm
    exact congrArg (fun n : Nat => AggregateResultData.Distinct field.canonical_name n.toUInt64) hlen
  | case10 mode top =>
    have hresult : ∀ {walk : WalkOrder} {xs : List Fed} {groups : Groups UInt64}, GroupsDescribe (rollup_key mode) xs groups →
        xs.Perm fed → finalize_rollup walk drives mode top groups (fun _ => []) total_matched total_bytes =
          rollup_data calls drives ext_map total_matched total_bytes mode top none fed :=
      fun hgroups hxs => finalize_rollup_eq hgroups hxs hrows fun _ _ => rfl
    exact (hresult h hperm).trans (hresult hseq (List.Perm.refl fed)).symm
  | case11 mode top sub ih =>
    obtain ⟨halike, hsubs⟩ := hrows
    have hresult : ∀ {walk : WalkOrder} {xs : List Fed} {groups : Groups UInt64} {subs : List (UInt64 × sub.Accumulator)},
        GroupsDescribe (rollup_key mode) xs groups → Grouped (rollup_key mode) (Describes calls ext_map sub) xs subs →
        xs.Perm fed → finalize_one walk calls drives ext_map options total_matched total_bytes (.Rollup mode top (some sub))
          (groups, subs) = rollup_data calls drives ext_map total_matched total_bytes mode top (some sub) fed := by
      intro walk xs groups subs hgroups hnested hxs
      refine finalize_rollup_eq hgroups hxs halike fun group hgroup => ?_
      have hitems : (with_key (rollup_key mode) xs group.1).Perm (with_key (rollup_key mode) fed group.1) := hxs.filter _
      obtain ⟨acc, hacc⟩ := hnested.lookup_isSome fun hempty =>
        (mem_groups_of hgroup.1).1 (hempty ▸ hitems).nil_eq.symm
      have hdescribes := (hnested.present group.1 acc hacc).2
      have hstable := hsubs group hgroup
      rw [hacc, nested_rows]
      by_cases hdup : ∃ keys verify sample max_groups, sub = .Duplicates keys verify sample max_groups
      · obtain ⟨keys, verify, sample, max_groups, rfl⟩ := hdup
        rfl
      · have hkind : ∀ keys verify sample max_groups, sub ≠ .Duplicates keys verify sample max_groups :=
          fun keys verify sample max_groups heq => hdup ⟨keys, verify, sample, max_groups, heq⟩
        exact congrArg sub_result_to_bucket_rows
          (ih hdescribes hitems hstable hkind (describes_sequential sub _))
    exact (hresult h.1 h.2 hperm).trans (hresult hseq.1 hseq.2 (List.Perm.refl fed)).symm
  | case12 keys verify sample max_groups => exact absurd rfl (hkind keys verify sample max_groups)

theorem candidates_le_one {keys : List FieldId} (h : fed.Pairwise fun a b =>
      DuplicateAccumulator.candidate a → DuplicateAccumulator.candidate b →
        CompositeKey.from_record calls keys a ≠ CompositeKey.from_record calls keys b) (key : CompositeKey) :
    candidates calls keys fed key ≤ 1 := by
  induction fed with
  | nil => exact Nat.zero_le 1
  | cons e rest ih =>
    obtain ⟨hhead, hrest⟩ := List.pairwise_cons.mp h
    rw [candidates, List.countP_cons]
    by_cases he : (DuplicateAccumulator.candidate e && CompositeKey.from_record calls keys e == key) = true
    · obtain ⟨hcandidate, hkey⟩ := (Bool.and_eq_true _ _).mp he
      have hnone : rest.countP (fun e => DuplicateAccumulator.candidate e && CompositeKey.from_record calls keys e == key) = 0 := by
        refine List.countP_eq_zero.mpr fun other hother hboth => ?_
        obtain ⟨hcandidate', hkey'⟩ := (Bool.and_eq_true _ _).mp hboth
        exact hhead other hother hcandidate hcandidate' ((eq_of_beq hkey).trans (eq_of_beq hkey').symm)
      rw [hnone, if_pos he]
    · rw [if_neg he]
      exact ih hrest

theorem duplicate_groups_eq_nil {verify : DuplicateVerify} {groups : DuplicateAccumulator}
    (h : ∀ group ∈ groups, group.2.stats.count.toNat ≤ 1) : duplicate_groups walk verify groups = [] := by
  have hnone : (walk.visit groups).filter (fun group => decide (1 < group.2.stats.count)) = [] := by
    refine List.filter_eq_nil_iff.mpr fun group hgroup => ?_
    have hle := h group (walk.mem_visit.mp hgroup)
    simp only [decide_eq_true_eq, UInt64.lt_iff_toNat_lt, UInt64.reduceToNat]
    omega
  rw [duplicate_groups, hnone]
  rfl

theorem duplicates_data_eq {keys : List FieldId} {verify : DuplicateVerify} {max_groups : UInt32}
    {groups : DuplicateAccumulator} (h : DuplicatesDescribe calls keys max_groups xs groups) (hperm : xs.Perm fed)
    (hdetermined : Determined calls drives ext_map total_matched total_bytes options (.Duplicates keys verify sample max_groups) fed) :
    finalize_duplicates walk drives verify sample groups = finalize_duplicates walk drives verify sample [] := by
  have hsmall : ∀ group ∈ groups, group.2.stats.count.toNat ≤ 1 := by
    intro group hgroup
    rcases hdetermined with hzero | hdistinct
    · rw [h.2.1 hzero] at hgroup
      cases hgroup
    · have hle := h.2.2 group hgroup
      rw [candidates, hperm.countP_eq] at hle
      exact hle.trans (candidates_le_one hdistinct group.1)
  have hempty : duplicate_groups walk verify [] = [] := duplicate_groups_eq_nil fun _ h => absurd h List.not_mem_nil
  simp only [finalize_duplicates, DuplicateAccumulator.finalize, duplicate_groups_eq_nil hsmall, hempty]

/-- A determined result is that of any accumulator that was fed the records. -/
theorem data_eq {kind : AggregateKind} {acc : kind.Accumulator} (h : Describes calls ext_map kind xs acc) (hperm : xs.Perm fed)
    (hdetermined : Determined calls drives ext_map total_matched total_bytes options kind fed) :
    finalize_one walk calls drives ext_map options total_matched total_bytes kind acc =
      sequential_data calls drives ext_map total_matched total_bytes options kind fed := by
  by_cases hdup : ∃ keys verify sample max_groups, kind = .Duplicates keys verify sample max_groups
  · obtain ⟨keys, verify, sample, max_groups, rfl⟩ := hdup
    have hseq : DuplicatesDescribe calls keys max_groups fed (sequential calls ext_map (.Duplicates keys verify sample max_groups) fed) :=
      describes_sequential (.Duplicates keys verify sample max_groups) fed
    have hforward : finalize_duplicates walk drives verify sample [] = finalize_duplicates .forward drives verify sample [] := by
      have hempty : ∀ walk : WalkOrder, duplicate_groups walk verify [] = [] :=
        fun walk => duplicate_groups_eq_nil fun _ h => absurd h List.not_mem_nil
      simp only [finalize_duplicates, DuplicateAccumulator.finalize, hempty]
    exact ((duplicates_data_eq h hperm hdetermined).trans hforward).trans
      (duplicates_data_eq hseq (List.Perm.refl fed) hdetermined).symm
  · have hkind : ∀ keys verify sample max_groups, kind ≠ .Duplicates keys verify sample max_groups :=
      fun keys verify sample max_groups heq => hdup ⟨keys, verify, sample, max_groups, heq⟩
    have hrows : RowsDetermined calls drives ext_map total_matched total_bytes options kind fed := by
      cases kind with
      | Duplicates keys verify sample max_groups => exact absurd rfl (hkind keys verify sample max_groups)
      | _ => exact hdetermined
    exact data_eq_of_rows h hperm hrows hkind

end sufficient

section plans

variable {calls : Calls} {drives : List DriveCompactIndex} {ext_map : ExtensionMap} {total_matched total_bytes : UInt64}
  {options : FinalizeOptions} {walk : WalkOrder} {xs fed : List Fed}

/-- The bytes that shares are taken of. -/
def global_bytes (specs : List AggregateSpec) (fed : List Fed) : UInt64 :=
  if specs.any fun spec => spec.kind matches .Stats .Size then (stats_of (extract_value .Size ·.record) fed).sum else 0

theorem compute_global_bytes_eq {specs : List AggregateSpec} {accs : Accumulators specs}
    (h : AllHold (Describes calls ext_map) xs specs accs) (hperm : xs.Perm fed) :
    compute_global_bytes specs accs = global_bytes specs fed := by
  induction specs with
  | nil => rfl
  | cons spec rest ih =>
    obtain ⟨acc, accs⟩ := accs
    obtain ⟨kind, label⟩ := spec
    cases kind with
    | Stats field =>
      cases field with
      | Size =>
        obtain rfl : acc = stats_of (extract_value .Size ·.record) xs := h.1
        exact congrArg StatsAccumulator.sum (stats_of_perm _ hperm)
      | _ => exact ih h.2
    | _ => exact ih h.2

/-- The results that the records determine, specification by specification. -/
def sequential_results (calls : Calls) (drives : List DriveCompactIndex) (ext_map : ExtensionMap)
    (total_matched total_bytes : UInt64) (options : FinalizeOptions) (specs : List AggregateSpec) (fed : List Fed) :
    List AggregateResult :=
  specs.map fun spec =>
    ⟨spec.label, sequential_data calls drives ext_map total_matched total_bytes options spec.kind fed⟩

theorem finalize_all_eq {specs : List AggregateSpec} {accs : Accumulators specs}
    (h : AllHold (Describes calls ext_map) xs specs accs) (hperm : xs.Perm fed)
    (hdetermined : ∀ spec ∈ specs, Determined calls drives ext_map total_matched total_bytes options spec.kind fed) :
    finalize_all walk calls drives ext_map options total_matched total_bytes specs accs =
      sequential_results calls drives ext_map total_matched total_bytes options specs fed := by
  induction specs with
  | nil => rfl
  | cons spec rest ih =>
    obtain ⟨acc, accs⟩ := accs
    rw [finalize_all, sequential_results, List.map_cons, data_eq h.1 hperm (hdetermined spec List.mem_cons_self)]
    exact congrArg _ (ih h.2 fun other hother => hdetermined other (List.mem_cons_of_mem _ hother))

end plans

end uffs.aggregate
