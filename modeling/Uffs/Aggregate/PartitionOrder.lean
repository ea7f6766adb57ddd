import Uffs.Aggregate.Partition
import Mathlib.Data.Finset.Max

open uffs.lib uffs.mft uffs.compact
open uffs.daemon (FieldId)

namespace uffs.aggregate

/-! Where a result is not determined, two orders of the same records show different results. -/

section arrangement

variable {κ : Type} [DecidableEq κ]

/-- The records of a key first, in some order, and then the others. -/
def in_front (key : Fed → Option κ) (k : κ) (front fed : List Fed) : List Fed := front ++ fed.filter fun e => key e ≠ some k

variable {key : Fed → Option κ} {k : κ} {front fed : List Fed}

theorem in_front_perm (h : front.Perm (with_key key fed k)) : (in_front key k front fed).Perm fed := by
  have hsplit : (with_key key fed k ++ fed.filter fun e => key e ≠ some k).Perm fed := by
    simpa only [with_key, ne_eq, decide_not] using List.filter_append_perm (fun e => decide (key e = some k)) fed
  exact (h.append_right _).trans hsplit

/-- The entries of the others do not change what a key has folded. -/
theorem foldl_in_front {σ : Type} (f : σ → Fed → σ) (init : σ) (h : front.Perm (with_key key fed k))
    (hne : with_key key fed k ≠ []) :
    ∃ others, (in_front key k front fed).foldl (feed_entries key f init) [] = (k, front.foldl f init) :: others := by
  refine foldl_front (fun hempty => hne (hempty ▸ h).nil_eq.symm) (fun e he => ?_) fun e he => ?_
  · exact (mem_with_key.mp (h.mem_iff.mp he)).2
  · simpa using (List.mem_filter.mp he).2

omit [DecidableEq κ] in
/-- The group in front is shown at its rank. -/
theorem shown_at_rank {groups : Groups κ} {all : Groups κ} {group : κ × StatsAccumulator} {others : Groups κ}
    (hfront : groups = group :: others) (hall : groups.Perm all) (value : StatsAccumulator → UInt64) {top : UInt16}
    (hrank : rank (fun g : κ × StatsAccumulator => -((value g.2).toNat : ℤ)) all group < top.toNat)
    (row : κ × StatsAccumulator → BucketRow) :
    (((sort_by_desc (fun g => value g.2) groups).take top.toNat).map row)[
        rank (fun g : κ × StatsAccumulator => -((value g.2).toNat : ℤ)) all group]? = some (row group) := by
  have hget := (desc_goes_by fun g : κ × StatsAccumulator => value g.2).getElem?_insertionSort_cons group others
  rw [← hfront, rank_perm hall] at hget
  rw [List.getElem?_map, List.getElem?_take_of_lt hrank, sort_by_desc, hget]
  rfl

end arrangement

section parts

variable (calls : Calls) (ext_map : ExtensionMap)

/-- A record put to the statistics of its group. -/
def add_size (stats : StatsAccumulator) (fed : Fed) : StatsAccumulator := stats.feed_value fed.record.size fed.record.allocated

theorem sequential_terms (field : FieldId) (top : UInt16) (fed : List Fed) :
    sequential calls ext_map (.Terms field top none) fed =
      fed.foldl (feed_entries (group_key calls ext_map field) add_size .new) [] := rfl

theorem sequential_terms_sampled (field : FieldId) (top : UInt16) (spec : TopHitsSpec) (fed : List Fed) :
    sequential calls ext_map (.Terms field top (some spec)) fed =
      (fed.foldl (feed_entries (group_key calls ext_map field) add_size .new) [],
        fed.foldl (feed_entries (group_key calls ext_map field) (SampleHeap.push .forward spec) []) []) := by
  induction fed using List.reverseRecOn with
  | nil => rfl
  | append_singleton fed e ih =>
    simp only [sequential, List.foldl_append, List.foldl_cons, List.foldl_nil] at ih ⊢
    rw [ih]
    rfl

theorem sequential_rollup (mode : RollupMode) (top : UInt16) (fed : List Fed) :
    sequential calls ext_map (.Rollup mode top none) fed = fed.foldl (feed_entries (rollup_key mode) add_size .new) [] := by
  induction fed using List.reverseRecOn with
  | nil => rfl
  | append_singleton fed e ih =>
    simp only [sequential, List.foldl_append, List.foldl_cons, List.foldl_nil] at ih ⊢
    rw [ih]
    simp only [GroupAccumulator.feed, feed_entries]
    cases rollup_key mode e <;> rfl

theorem sequential_rollup_nested (mode : RollupMode) (top : UInt16) (sub : AggregateKind) (fed : List Fed) :
    sequential calls ext_map (.Rollup mode top (some sub)) fed =
      (fed.foldl (feed_entries (rollup_key mode) add_size .new) [],
        fed.foldl (feed_entries (rollup_key mode) (GroupAccumulator.feed .forward calls ext_map sub)
          (GroupAccumulator.from_kind sub)) []) := by
  induction fed using List.reverseRecOn with
  | nil => rfl
  | append_singleton fed e ih =>
    simp only [sequential, List.foldl_append, List.foldl_cons, List.foldl_nil] at ih ⊢
    rw [ih]
    simp only [GroupAccumulator.feed, feed_entries]
    cases rollup_key mode e <;> rfl

end parts

section samples

variable {spec : TopHitsSpec}

/-- Entries pushed best first: the first ones stay. -/
theorem foldl_push_ranked {entries : List SampleEntry} (h : Ranked (sample_key spec.sort_desc) entries) :
    entries.foldl (SampleHeap.push_entry .forward spec) [] = entries.take spec.count.toNat := by
  induction entries using List.reverseRecOn with
  | nil => exact List.take_nil.symm
  | append_singleton entries entry ih =>
    obtain ⟨hbefore, -, hlast⟩ := List.pairwise_append.mp h
    rw [List.foldl_append, List.foldl_cons, List.foldl_nil, ih hbefore, SampleHeap.push_entry]
    split
    · next hroom =>
      rw [List.length_take] at hroom
      rw [List.take_of_length_le (by omega), List.take_of_length_le (by rw [List.length_append, List.length_singleton]; omega)]
    · next hnone =>
      rw [List.length_take] at hnone
      rw [List.take_append_of_le_length (by omega)]
      split
      · next worst hpeek =>
        have hworst := hlast worst (List.mem_of_mem_take (SampleHeap.peek_spec hpeek).1) entry (List.mem_singleton_self entry)
        rw [if_neg fun hbetter => not_lt.mpr hworst ((better_iff spec.sort_desc _ _).mp hbetter)]
      · rfl

/-- The sample rows of records pushed in this order. -/
def pushed_samples (drives : List DriveCompactIndex) (spec : TopHitsSpec) (items : List Fed) : List SampleRow :=
  (SampleHeap.drain_sorted .forward spec (items.foldl (SampleHeap.push .forward spec) [])).map
    (materialize_sample_entry drives spec.effective_projection)

theorem pushed_samples_ranked (drives : List DriveCompactIndex) {items : List Fed}
    (h : Ranked (sample_key spec.sort_desc) (items.map (SampleHeap.entry_of spec))) :
    pushed_samples drives spec items =
      ((items.map (SampleHeap.entry_of spec)).take spec.count.toNat).map
        (materialize_sample_entry drives spec.effective_projection) := by
  have hpush : items.foldl (SampleHeap.push .forward spec) [] =
      (items.map (SampleHeap.entry_of spec)).foldl (SampleHeap.push_entry .forward spec) [] := by
    rw [List.foldl_map]
    rfl
  have hkept : Ranked (sample_key spec.sort_desc) ((items.map (SampleHeap.entry_of spec)).take spec.count.toNat) :=
    h.sublist (List.take_sublist _ _)
  rw [pushed_samples, hpush, foldl_push_ranked h, SampleHeap.drain_sorted]
  exact congrArg (List.map _) ((drain_goes_by spec.sort_desc).insertionSort_eq hkept)

/-- Records put best first, where this one comes before all that tie with it. -/
def ranked_items (spec : TopHitsSpec) (items : List Fed) : List Fed :=
  items.insertionSort fun a b => ¬(SampleHeap.entry_of spec b).better spec.sort_desc (SampleHeap.entry_of spec a)

theorem map_ranked_items (items : List Fed) :
    (ranked_items spec items).map (SampleHeap.entry_of spec) =
      (items.map (SampleHeap.entry_of spec)).insertionSort fun a b => ¬b.better spec.sort_desc a :=
  List.map_insertionSort _ _ _ _ fun _ _ _ _ => Iff.rfl

theorem pushed_samples_ranked_items (drives : List DriveCompactIndex) (items : List Fed) :
    pushed_samples drives spec (ranked_items spec items) = best_samples drives spec items := by
  rw [pushed_samples_ranked, map_ranked_items, best_samples]
  rw [map_ranked_items]
  exact (drain_goes_by spec.sort_desc).ranked _

end samples

section necessary

variable {calls : Calls} {drives : List DriveCompactIndex} {ext_map : ExtensionMap} {total_matched total_bytes : UInt64}
  {options : FinalizeOptions} {fed front : List Fed}

/-- The rows of the records in their order. -/
abbrev rows_in_order (calls : Calls) (drives : List DriveCompactIndex) (ext_map : ExtensionMap)
    (total_matched total_bytes : UInt64) (options : FinalizeOptions) (kind : AggregateKind) (fed : List Fed) : List BucketRow :=
  sub_result_to_bucket_rows (sequential_data calls drives ext_map total_matched total_bytes options kind fed)

/-- The sample rows of a group whose records come in this order. -/
def order_samples (drives : List DriveCompactIndex) (sample : Option TopHitsSpec) (items : List Fed) : List SampleRow :=
  match sample with
  | none => []
  | some spec => pushed_samples drives spec items

theorem front_group {κ : Type} [DecidableEq κ] {key : Fed → Option κ} {group : κ × StatsAccumulator}
    (hgroup : group ∈ groups_of key fed) (hfront : front.Perm (with_key key fed group.1)) :
    ∃ others, (in_front key group.1 front fed).foldl (feed_entries key add_size .new) [] = group :: others := by
  obtain ⟨hne, hstats⟩ := mem_groups_of hgroup
  obtain ⟨others, hfold⟩ := foldl_in_front add_size .new hfront hne
  have hvalue : front.foldl add_size .new = group.2 := by
    rw [hstats]
    exact stats_of_perm _ hfront
  exact ⟨others, by rw [hfold, hvalue]⟩

variable {top : UInt16} {sample : Option TopHitsSpec} {group : UInt64 × StatsAccumulator}

/-- A group whose records are put in front is shown at its rank, with the samples of their order. -/
theorem terms_in_front {field : FieldId} (hshown : Shown count_key (groups_of (group_key calls ext_map field) fed) top group)
    (hfront : front.Perm (with_key (group_key calls ext_map field) fed group.1)) :
    (rows_in_order calls drives ext_map total_matched total_bytes options (.Terms field top sample)
        (in_front (group_key calls ext_map field) group.1 front fed))[
          rank count_key (groups_of (group_key calls ext_map field) fed) group]? =
      some (terms_row calls ext_map field options total_matched total_bytes (fun _ => order_samples drives sample front) group) := by
  obtain ⟨hmem, hrank⟩ := hshown
  obtain ⟨others, hgroups⟩ := front_group hmem hfront
  have hperm := in_front_perm hfront
  have hall : (group :: others).Perm (groups_of (group_key calls ext_map field) fed) := by
    rw [← hgroups]
    exact GroupsDescribe.perm_groups_of (describes_sequential (.Terms field top none) _) hperm
  cases sample with
  | none =>
    rw [rows_in_order, sequential_data, sequential_terms, hgroups]
    exact shown_at_rank rfl hall (·.count) hrank _
  | some spec =>
    obtain ⟨heaps, hheaps⟩ := foldl_in_front (SampleHeap.push .forward spec) [] hfront (mem_groups_of hmem).1
    rw [rows_in_order, sequential_data, sequential_terms_sampled, hgroups, hheaps]
    refine (shown_at_rank rfl hall (·.count) hrank _).trans ?_
    rw [terms_row, terms_row, sample_rows, List.lookup_cons_self]
    rfl

/-- The order in which the samples of a group come out best first. -/
def best_first (sample : Option TopHitsSpec) (items : List Fed) : List Fed :=
  match sample with
  | none => items
  | some spec => ranked_items spec items

theorem best_first_perm (sample : Option TopHitsSpec) (items : List Fed) : (best_first sample items).Perm items := by
  cases sample with
  | none => exact List.Perm.refl items
  | some spec => exact List.perm_insertionSort _ items

theorem order_samples_best_first (sample : Option TopHitsSpec) (items : List Fed) :
    order_samples drives sample (best_first sample items) = group_samples drives sample items := by
  cases sample with
  | none => rfl
  | some spec => exact pushed_samples_ranked_items drives items

/-- A record that comes before all that tie with it is the sample at its rank. -/
theorem sample_at_rank {spec : TopHitsSpec} {items rest : List Fed} {e : Fed} (hitems : items.Perm (e :: rest))
    (hrank : rank (sample_key spec.sort_desc) (items.map (SampleHeap.entry_of spec)) (SampleHeap.entry_of spec e) <
      spec.count.toNat) :
    (pushed_samples drives spec (ranked_items spec (e :: rest)))[
        rank (sample_key spec.sort_desc) (items.map (SampleHeap.entry_of spec)) (SampleHeap.entry_of spec e)]? =
      some (materialize_sample_entry drives spec.effective_projection (SampleHeap.entry_of spec e)) := by
  have hget := (drain_goes_by spec.sort_desc).getElem?_insertionSort_cons (SampleHeap.entry_of spec e)
    (rest.map (SampleHeap.entry_of spec))
  rw [← List.map_cons, ← rank_perm (hitems.map (SampleHeap.entry_of spec))] at hget
  rw [pushed_samples_ranked_items, best_samples, List.getElem?_map, List.getElem?_take_of_lt hrank, hget]
  rfl

/-- Where the samples do not depend on the order, those that tie look alike: each of them comes first in some order. -/
theorem samples_alike {spec : TopHitsSpec} {items : List Fed}
    (h : ∀ xs ys : List Fed, xs.Perm items → ys.Perm items → pushed_samples drives spec xs = pushed_samples drives spec ys) :
    TiesAlike (sample_key spec.sort_desc) (materialize_sample_entry drives spec.effective_projection) spec.count.toNat
      (items.map (SampleHeap.entry_of spec)) := by
  have hfirst : ∀ {e : Fed}, e ∈ items → ∃ rest, items.Perm (e :: rest) := by
    intro e he
    obtain ⟨before, after, hsplit⟩ := List.mem_iff_append.mp he
    exact ⟨before ++ after, hsplit ▸ List.perm_middle⟩
  have hranked : ∀ {e : Fed} {rest : List Fed}, items.Perm (e :: rest) → (ranked_items spec (e :: rest)).Perm items :=
    fun hitems => (List.perm_insertionSort _ _).trans hitems.symm
  intro entry hentry entry' hentry' htie hrank
  obtain ⟨e, he, rfl⟩ := List.mem_map.mp hentry
  obtain ⟨e', he', rfl⟩ := List.mem_map.mp hentry'
  obtain ⟨rest, hrest⟩ := hfirst he
  obtain ⟨rest', hrest'⟩ := hfirst he'
  have hranks : rank (sample_key spec.sort_desc) (items.map (SampleHeap.entry_of spec)) (SampleHeap.entry_of spec e) =
      rank (sample_key spec.sort_desc) (items.map (SampleHeap.entry_of spec)) (SampleHeap.entry_of spec e') :=
    rank_eq_of_key_eq htie
  have hsame := congrArg (·[rank (sample_key spec.sort_desc) (items.map (SampleHeap.entry_of spec)) (SampleHeap.entry_of spec e)]?)
    (h _ _ (hranked hrest) (hranked hrest'))
  rw [sample_at_rank hrest hrank, hranks, sample_at_rank hrest' (hranks ▸ hrank)] at hsame
  exact Option.some.inj hsame

/-- With its samples best first, a group in front shows the row that the records determine. -/
theorem terms_best_first {field : FieldId}
    (hshown : Shown count_key (groups_of (group_key calls ext_map field) fed) top group) :
    (rows_in_order calls drives ext_map total_matched total_bytes options (.Terms field top sample)
        (in_front (group_key calls ext_map field) group.1
          (best_first sample (with_key (group_key calls ext_map field) fed group.1)) fed))[
          rank count_key (groups_of (group_key calls ext_map field) fed) group]? =
      some (shown_terms_row calls drives ext_map total_matched total_bytes options field sample fed group) := by
  rw [terms_in_front hshown (best_first_perm sample _), order_samples_best_first]
  rfl

/-- The rows do not depend on the order of the records. -/
def OrderFree (calls : Calls) (drives : List DriveCompactIndex) (ext_map : ExtensionMap)
    (total_matched total_bytes : UInt64) (options : FinalizeOptions) (kind : AggregateKind) (fed : List Fed) : Prop :=
  ∀ xs ys : List Fed, xs.Perm fed → ys.Perm fed →
    rows_in_order calls drives ext_map total_matched total_bytes options kind xs =
      rows_in_order calls drives ext_map total_matched total_bytes options kind ys

theorem terms_determined {field : FieldId}
    (h : OrderFree calls drives ext_map total_matched total_bytes options (.Terms field top sample) fed) :
    RowsDetermined calls drives ext_map total_matched total_bytes options (.Terms field top sample) fed := by
  refine ⟨fun a ha b hb htie hrank => ?_, fun group hgroup spec hspec => ?_⟩
  · have hranks : rank count_key (groups_of (group_key calls ext_map field) fed) a =
        rank count_key (groups_of (group_key calls ext_map field) fed) b := rank_eq_of_key_eq htie
    have hperm : ∀ g : UInt64 × StatsAccumulator, (in_front (group_key calls ext_map field) g.1
        (best_first sample (with_key (group_key calls ext_map field) fed g.1)) fed).Perm fed :=
      fun g => in_front_perm (best_first_perm sample _)
    have hsame := congrArg (·[rank count_key (groups_of (group_key calls ext_map field) fed) a]?) (h _ _ (hperm a) (hperm b))
    rw [terms_best_first ⟨ha, hrank⟩, hranks, terms_best_first ⟨hb, hranks ▸ hrank⟩] at hsame
    exact Option.some.inj hsame
  · subst hspec
    refine samples_alike fun xs ys hxs hys => ?_
    have hsame := congrArg (·[rank count_key (groups_of (group_key calls ext_map field) fed) group]?)
      (h _ _ (in_front_perm hxs) (in_front_perm hys))
    rw [terms_in_front hgroup hxs, terms_in_front hgroup hys] at hsame
    exact congrArg BucketRow.sample_rows (Option.some.inj hsame)

/-- A group of a rollup put in front, with the nested rows of the order of its records. -/
theorem rollup_in_front {mode : RollupMode} {sub : Option AggregateKind}
    (hshown : Shown sum_key (groups_of (rollup_key mode) fed) top group)
    (hfront : front.Perm (with_key (rollup_key mode) fed group.1)) :
    (rows_in_order calls drives ext_map total_matched total_bytes options (.Rollup mode top sub)
        (in_front (rollup_key mode) group.1 front fed))[rank sum_key (groups_of (rollup_key mode) fed) group]? =
      some (rollup_row drives total_matched total_bytes mode
        (fun _ => nested_rows calls drives ext_map total_matched total_bytes sub front) group) := by
  obtain ⟨hmem, hrank⟩ := hshown
  obtain ⟨others, hgroups⟩ := front_group hmem hfront
  have hperm := in_front_perm hfront
  have hall : (group :: others).Perm (groups_of (rollup_key mode) fed) := by
    rw [← hgroups, ← sequential_rollup calls ext_map mode top]
    exact GroupsDescribe.perm_groups_of (describes_sequential (.Rollup mode top none) _) hperm
  cases sub with
  | none =>
    rw [rows_in_order, sequential_data, sequential_rollup, hgroups]
    exact shown_at_rank rfl hall (·.sum) hrank _
  | some sub =>
    obtain ⟨subs, hsubs⟩ := foldl_in_front (GroupAccumulator.feed .forward calls ext_map sub) (GroupAccumulator.from_kind sub)
      hfront (mem_groups_of hmem).1
    rw [rows_in_order, sequential_data, sequential_rollup_nested, hgroups, hsubs]
    refine (shown_at_rank rfl hall (·.sum) hrank _).trans ?_
    simp only [List.lookup_cons_self]
    rfl

theorem rollup_ties_alike {mode : RollupMode} {sub : Option AggregateKind}
    (h : OrderFree calls drives ext_map total_matched total_bytes options (.Rollup mode top sub) fed) :
    TiesAlike sum_key (shown_rollup_row calls drives ext_map total_matched total_bytes mode sub fed) top.toNat
      (groups_of (rollup_key mode) fed) := by
  intro a ha b hb htie hrank
  have hranks : rank sum_key (groups_of (rollup_key mode) fed) a = rank sum_key (groups_of (rollup_key mode) fed) b :=
    rank_eq_of_key_eq htie
  have hperm : ∀ g : UInt64 × StatsAccumulator,
      (in_front (rollup_key mode) g.1 (with_key (rollup_key mode) fed g.1) fed).Perm fed :=
    fun g => in_front_perm (List.Perm.refl _)
  have hsame := congrArg (·[rank sum_key (groups_of (rollup_key mode) fed) a]?) (h _ _ (hperm a) (hperm b))
  rw [rollup_in_front ⟨ha, hrank⟩ (List.Perm.refl _), hranks, rollup_in_front ⟨hb, hranks ▸ hrank⟩ (List.Perm.refl _)] at hsame
  exact Option.some.inj hsame

/-- Rows that do not depend on the order of the records are determined by them. -/
theorem rows_determined {kind : AggregateKind}
    (h : OrderFree calls drives ext_map total_matched total_bytes options kind fed) :
    RowsDetermined calls drives ext_map total_matched total_bytes options kind fed := by
  induction kind using AggregateKind.Accumulator.induct generalizing options fed with
  | case3 field top => exact terms_determined h
  | case4 field top spec => exact terms_determined h
  | case10 mode top => exact rollup_ties_alike h
  | case11 mode top sub ih =>
    refine ⟨rollup_ties_alike h, fun group hgroup => ih fun xs ys hxs hys => ?_⟩
    have hsame := congrArg (·[rank sum_key (groups_of (rollup_key mode) fed) group]?)
      (h _ _ (in_front_perm hxs) (in_front_perm hys))
    rw [rollup_in_front hgroup hxs, rollup_in_front hgroup hys] at hsame
    exact congrArg BucketRow.sub_buckets (Option.some.inj hsame)
  | _ => trivial

end necessary

section duplicates

variable {calls : Calls} {keys : List FieldId} {max_groups : UInt32} {sample : UInt8} {xs fed : List Fed}
  {groups : DuplicateAccumulator}

/-- The candidates with a key. -/
def with_duplicate_key (calls : Calls) (keys : List FieldId) (fed : List Fed) (key : CompositeKey) : List Fed :=
  fed.filter fun e => DuplicateAccumulator.candidate e && CompositeKey.from_record calls keys e == key

/-- Fed one after the other, each group counts all candidates with its key; none is left out while there is room. -/
structure CompleteGroups (calls : Calls) (keys : List FieldId) (max_groups : UInt32) (fed : List Fed)
    (groups : DuplicateAccumulator) : Prop where
  nodup : NodupKeys groups
  stats : ∀ group ∈ groups, group.2.stats = size_stats (with_duplicate_key calls keys fed group.1)
  room : len_to_u32 groups.length < max_groups → ∀ e ∈ fed, DuplicateAccumulator.candidate e = true →
    CompositeKey.from_record calls keys e ∈ groups.map Prod.fst

theorem with_duplicate_key_append_self {e : Fed} (h : DuplicateAccumulator.candidate e = true) :
    with_duplicate_key calls keys (xs ++ [e]) (CompositeKey.from_record calls keys e) =
      with_duplicate_key calls keys xs (CompositeKey.from_record calls keys e) ++ [e] := by
  rw [with_duplicate_key, List.filter_append, List.filter_cons_of_pos (by simp [h])]
  rfl

variable {key : CompositeKey}

theorem with_duplicate_key_append_other {e : Fed}
    (h : DuplicateAccumulator.candidate e = true → CompositeKey.from_record calls keys e ≠ key) :
    with_duplicate_key calls keys (xs ++ [e]) key = with_duplicate_key calls keys xs key := by
  have hnot : ¬(DuplicateAccumulator.candidate e && CompositeKey.from_record calls keys e == key) = true := by
    simpa using h
  simp only [with_duplicate_key, List.filter_append, List.filter_cons, hnot, List.filter_nil]
  exact List.append_nil _

theorem CompleteGroups.feed (h : CompleteGroups calls keys max_groups xs groups) (e : Fed) :
    CompleteGroups calls keys max_groups (xs ++ [e]) (groups.feed calls keys max_groups sample e) := by
  unfold DuplicateAccumulator.feed
  split
  · next hnot =>
    have hcandidate : DuplicateAccumulator.candidate e = false := by simpa using hnot
    refine ⟨h.nodup, fun group hgroup => ?_, fun hroom x hx hx' => ?_⟩
    · rw [with_duplicate_key_append_other (by simp [hcandidate])]
      exact h.stats group hgroup
    · rcases List.mem_append.mp hx with hold | hnew
      · exact h.room hroom x hold hx'
      · rw [List.mem_singleton.mp hnew, hcandidate] at hx'
        cases hx'
  · next hnot =>
    have hcandidate : DuplicateAccumulator.candidate e = true := by simpa using hnot
    have hadded : ∀ old : DuplicateGroupBuilder,
        old.stats = size_stats (with_duplicate_key calls keys xs (CompositeKey.from_record calls keys e)) →
        (old.add sample e).stats =
          size_stats (with_duplicate_key calls keys (xs ++ [e]) (CompositeKey.from_record calls keys e)) := by
      intro old hold
      rw [with_duplicate_key_append_self hcandidate, DuplicateGroupBuilder.add, hold]
      exact (stats_of_append_singleton _ _ e).symm
    have hkept : ∀ group ∈ groups, group.1 ≠ CompositeKey.from_record calls keys e →
        group.2.stats = size_stats (with_duplicate_key calls keys (xs ++ [e]) group.1) := by
      intro group hgroup hne
      rw [with_duplicate_key_append_other fun _ => hne.symm]
      exact h.stats group hgroup
    split
    · next hfull =>
      refine ⟨update_nodup h.nodup _ _, fun group hgroup => ?_, fun hroom => absurd hroom ?_⟩
      · obtain ⟨old, hold, rfl⟩ := List.mem_map.mp hgroup
        split
        · next heq => exact heq ▸ hadded old.2 (heq ▸ h.stats old hold)
        · next hne => exact hkept old hold hne
      · rw [DuplicateAccumulator.update, List.length_map]
        exact UInt32.not_lt.mpr hfull
    · next hroom =>
      have hroom' := h.room (UInt32.not_le.mp hroom)
      have hnodup := h.nodup.upsert (CompositeKey.from_record calls keys e) (DuplicateGroupBuilder.add sample e {}) (·.add sample e)
      refine ⟨hnodup, fun group hgroup => ?_, fun _ x hx hx' => mem_keys_upsert.mpr ?_⟩
      · obtain ⟨key, builder⟩ := group
        have hlook := hnodup.lookup_eq_some_iff.mpr hgroup
        by_cases hkey : key = CompositeKey.from_record calls keys e
        · subst hkey
          rw [lookup_upsert_self, Option.some.injEq] at hlook
          cases hold : groups.lookup (CompositeKey.from_record calls keys e) with
          | none =>
            rw [hold] at hlook
            refine hlook ▸ hadded {} ?_
            have hnone : with_duplicate_key calls keys xs (CompositeKey.from_record calls keys e) = [] := by
              refine List.filter_eq_nil_iff.mpr fun x hx hboth => ?_
              obtain ⟨hx', hsame⟩ := (Bool.and_eq_true _ _).mp hboth
              obtain ⟨⟨k, old⟩, hmem, hk⟩ := List.mem_map.mp (hroom' x hx hx')
              have hpresent := h.nodup.lookup_eq_some_iff.mpr hmem
              simp only at hk
              rw [hk, eq_of_beq hsame, hold] at hpresent
              cases hpresent
            rw [hnone]
            rfl
          | some old =>
            rw [hold] at hlook
            exact hlook ▸ hadded old (h.stats _ (mem_of_lookup hold))
        · rw [lookup_upsert_of_ne hkey] at hlook
          exact hkept _ (mem_of_lookup hlook) hkey
      · rcases List.mem_append.mp hx with hold | hnew
        · exact Or.inr (hroom' x hold hx')
        · exact Or.inl (congrArg _ (List.mem_singleton.mp hnew))

section

variable (calls) (keys) (max_groups) (sample)

/-- The group in front stays there, with its first member. -/
theorem head_feed {builder : DuplicateGroupBuilder} {first : Nat × UInt8} {members : List (Nat × UInt8)}
    {others : DuplicateAccumulator} (hmembers : builder.members = first :: members) (e : Fed) :
    ∃ builder' members' others', DuplicateAccumulator.feed calls keys max_groups sample ((key, builder) :: others) e =
      (key, builder') :: others' ∧ builder'.members = first :: members' := by
  have hadd : ∃ members', (builder.add sample e).members = first :: members' := by
    simp only [DuplicateGroupBuilder.add, hmembers]
    split
    · exact ⟨members ++ [(e.idx, e.drive_ordinal)], rfl⟩
    · exact ⟨members, rfl⟩
  obtain ⟨added, hadded⟩ := hadd
  unfold DuplicateAccumulator.feed
  split
  · exact ⟨builder, members, others, rfl, hmembers⟩
  · dsimp only
    split
    · rw [DuplicateAccumulator.update, List.map_cons]
      split
      · exact ⟨builder.add sample e, added, _, rfl, hadded⟩
      · exact ⟨builder, members, _, rfl, hmembers⟩
    · simp only [upsert]
      split
      · exact ⟨builder.add sample e, added, _, rfl, hadded⟩
      · exact ⟨builder, members, _, rfl, hmembers⟩

theorem head_foldl_feed {builder : DuplicateGroupBuilder} {first : Nat × UInt8} {members : List (Nat × UInt8)}
    {others : DuplicateAccumulator} (hmembers : builder.members = first :: members) (rest : List Fed) :
    ∃ builder' members' others', rest.foldl (DuplicateAccumulator.feed calls keys max_groups sample) ((key, builder) :: others) =
      (key, builder') :: others' ∧ builder'.members = first :: members' := by
  induction rest generalizing builder members others with
  | nil => exact ⟨builder, members, others, rfl, hmembers⟩
  | cons e rest ih =>
    obtain ⟨builder', members', others', hstep, hmembers'⟩ := head_feed calls keys max_groups sample hmembers e
    rw [List.foldl_cons, hstep]
    exact ih hmembers'

end

theorem completeGroups_foldl (fed : List Fed) :
    CompleteGroups calls keys max_groups fed (fed.foldl (DuplicateAccumulator.feed calls keys max_groups sample) []) := by
  induction fed using List.reverseRecOn with
  | nil =>
    refine ⟨NodupKeys.nil, fun group hgroup => absurd hgroup List.not_mem_nil, fun _ e he => absurd he List.not_mem_nil⟩
  | append_singleton fed e ih =>
    rw [List.foldl_append]
    exact ih.feed e

theorem size_stats_count (fed : List Fed) : (size_stats fed).count = fed.length.toUInt64 := by
  induction fed using List.reverseRecOn with
  | nil => rfl
  | append_singleton fed e ih =>
    rw [size_stats, stats_of_append_singleton, List.length_append, count_append, ← ih]
    rfl

/-- What can be reclaimed of the records of a group. -/
def group_reclaimable (stats : StatsAccumulator) : UInt64 := reclaimable stats.sum stats.count

/-- The first member of the first group shown. -/
def first_member : AggregateResultData → Option (Nat × UInt8)
  | .Duplicates result => result.groups.head?.bind fun group => group.member_indices.head?
  | _ => none

/-- The group with the most bytes to reclaim comes first if it was met first, and its first record is its first member. -/
theorem first_member_sequential {drives : List DriveCompactIndex} {ext_map : ExtensionMap} {total_matched total_bytes : UInt64}
    {options : FinalizeOptions} {verify : DuplicateVerify} {top_hits : Option TopHitsSpec} {e : Fed} {rest : List Fed}
    (hcandidate : DuplicateAccumulator.candidate e = true) (hmax : max_groups ≠ 0) (hlen : (e :: rest).length < UInt64.size)
    (hmany : 2 ≤ (with_duplicate_key calls keys (e :: rest) (CompositeKey.from_record calls keys e)).length)
    (hbest : ∀ key, 2 ≤ (with_duplicate_key calls keys (e :: rest) key).length →
      group_reclaimable (size_stats (with_duplicate_key calls keys (e :: rest) key)) ≤
        group_reclaimable (size_stats (with_duplicate_key calls keys (e :: rest) (CompositeKey.from_record calls keys e)))) :
    first_member (sequential_data calls drives ext_map total_matched total_bytes options
      (.Duplicates keys verify top_hits max_groups) (e :: rest)) = some (e.idx, e.drive_ordinal) := by
  let sample := sample_count top_hits
  let groups := (e :: rest).foldl (DuplicateAccumulator.feed calls keys max_groups sample) []
  have hcomplete : CompleteGroups calls keys max_groups (e :: rest) groups := completeGroups_foldl (e :: rest)
  have hsample : 0 < sample.toNat := by
    cases top_hits with
    | none => decide
    | some spec =>
      have := UInt8.le_iff_toNat_le.mp spec.count_range.1
      exact this
  have hstart : DuplicateAccumulator.feed calls keys max_groups sample [] e =
      [(CompositeKey.from_record calls keys e, DuplicateGroupBuilder.add sample e {})] := by
    have hroom : ¬max_groups ≤ len_to_u32 0 := by
      intro hle
      have hzero : max_groups.toNat ≤ 0 := UInt32.le_iff_toNat_le.mp hle
      exact hmax (UInt32.toNat_inj.mp (Nat.le_zero.mp hzero))
    simp [DuplicateAccumulator.feed, hcandidate, hroom, upsert]
  have hmembers : (DuplicateGroupBuilder.add sample e {}).members = [(e.idx, e.drive_ordinal)] := by
    simp [DuplicateGroupBuilder.add, hsample]
  obtain ⟨builder, members, others, hgroups, hfirst⟩ : ∃ builder members others,
      groups = (CompositeKey.from_record calls keys e, builder) :: others ∧
        builder.members = (e.idx, e.drive_ordinal) :: members := by
    simp only [groups, List.foldl_cons, hstart]
    exact head_foldl_feed calls keys max_groups sample hmembers rest
  rw [hgroups] at hcomplete
  have hcount : ∀ key, (size_stats (with_duplicate_key calls keys (e :: rest) key)).count.toNat =
      (with_duplicate_key calls keys (e :: rest) key).length := by
    intro key
    have hle : (with_duplicate_key calls keys (e :: rest) key).length ≤ (e :: rest).length := List.length_filter_le _ _
    rw [size_stats_count]
    exact UInt64.toNat_ofNat_of_lt' (lt_of_le_of_lt hle hlen)
  have hstats := hcomplete.stats _ List.mem_cons_self
  have hshown : decide (1 < builder.stats.count) = true := by
    rw [decide_eq_true_eq, UInt64.lt_iff_toNat_lt, hstats, hcount]
    exact hmany
  have hlargest : ∀ group ∈ (others.filter fun group => 1 < group.2.stats.count).map fun group =>
      DuplicateGroup.of_builder verify group.2,
      group.reclaimable_bytes ≤ (DuplicateGroup.of_builder verify builder).reclaimable_bytes := by
    intro group hgroup
    obtain ⟨⟨key, other⟩, hother, rfl⟩ := List.mem_map.mp hgroup
    obtain ⟨hmem, hmore⟩ := List.mem_filter.mp hother
    have hother_stats := hcomplete.stats _ (List.mem_cons_of_mem _ hmem)
    have hle := hbest key (by
      rw [decide_eq_true_eq, UInt64.lt_iff_toNat_lt, hother_stats, hcount] at hmore
      exact hmore)
    change group_reclaimable other.stats ≤ group_reclaimable builder.stats
    rw [hstats, hother_stats]
    exact hle
  have hsorted : duplicate_groups .forward verify groups = DuplicateGroup.of_builder verify builder ::
      sort_by_desc DuplicateGroup.reclaimable_bytes
        ((others.filter fun group => 1 < group.2.stats.count).map fun group => .of_builder verify group.2) := by
    have hfilter : ((WalkOrder.forward.visit groups).filter fun group => 1 < group.2.stats.count) =
        (CompositeKey.from_record calls keys e, builder) :: others.filter fun group => 1 < group.2.stats.count := by
      rw [hgroups]
      exact List.filter_cons_of_pos hshown
    rw [duplicate_groups, hfilter]
    exact List.insertionSort_cons_of_forall_rel _ hlargest
  have hdata : sequential_data calls drives ext_map total_matched total_bytes options
      (.Duplicates keys verify top_hits max_groups) (e :: rest) = finalize_duplicates .forward drives verify top_hits groups := rfl
  rw [hdata, finalize_duplicates, first_member]
  simp only [DuplicateAccumulator.finalize, hsorted, List.take_succ_cons, List.map_cons, List.head?_cons, Option.bind_some,
    DuplicateGroup.of_builder, hfirst]

theorem pairwise_of_length_le_one (h : ∀ key, (with_duplicate_key calls keys fed key).length ≤ 1) :
    fed.Pairwise fun a b => DuplicateAccumulator.candidate a → DuplicateAccumulator.candidate b →
      CompositeKey.from_record calls keys a ≠ CompositeKey.from_record calls keys b := by
  induction fed with
  | nil => exact List.Pairwise.nil
  | cons e rest ih =>
    have hle : ∀ key, (with_duplicate_key calls keys rest key).length ≤ (with_duplicate_key calls keys (e :: rest) key).length :=
      fun key => ((List.sublist_cons_self e rest).filter _).length_le
    refine List.Pairwise.cons (fun other hother hcandidate hcandidate' hsame => ?_) (ih fun key => (hle key).trans (h key))
    have hpair : e :: (with_duplicate_key calls keys rest (CompositeKey.from_record calls keys e)) =
        with_duplicate_key calls keys (e :: rest) (CompositeKey.from_record calls keys e) := by
      rw [with_duplicate_key, with_duplicate_key, List.filter_cons_of_pos (by simp [hcandidate])]
    have hmem : other ∈ with_duplicate_key calls keys rest (CompositeKey.from_record calls keys e) :=
      List.mem_filter.mpr ⟨hother, by simp [hcandidate', hsame]⟩
    have hlength := h (CompositeKey.from_record calls keys e)
    rw [← hpair, List.length_cons] at hlength
    have := List.length_pos_of_mem hmem
    omega

/-- Some key with two candidates has the most bytes to reclaim. -/
theorem exists_best_key (h : 2 ≤ (with_duplicate_key calls keys fed key).length) :
    ∃ best, 2 ≤ (with_duplicate_key calls keys fed best).length ∧
      ∀ key, 2 ≤ (with_duplicate_key calls keys fed key).length →
        group_reclaimable (size_stats (with_duplicate_key calls keys fed key)) ≤
          group_reclaimable (size_stats (with_duplicate_key calls keys fed best)) := by
  let several := (fed.map (CompositeKey.from_record calls keys)).toFinset.filter fun key =>
    2 ≤ (with_duplicate_key calls keys fed key).length
  have hmem : ∀ key, 2 ≤ (with_duplicate_key calls keys fed key).length → key ∈ several := by
    intro key hkey
    obtain ⟨e, he⟩ := List.exists_mem_of_length_pos (lt_of_lt_of_le (by decide) hkey)
    obtain ⟨hfed, hboth⟩ := List.mem_filter.mp he
    have hsame := ((Bool.and_eq_true _ _).mp hboth).2
    exact Finset.mem_filter.mpr ⟨List.mem_toFinset.mpr (List.mem_map.mpr ⟨e, hfed, eq_of_beq hsame⟩), hkey⟩
  obtain ⟨best, hbest, hmax⟩ := several.exists_max_image
    (fun key => (group_reclaimable (size_stats (with_duplicate_key calls keys fed key))).toNat) ⟨key, hmem key h⟩
  exact ⟨best, (Finset.mem_filter.mp hbest).2, fun key hkey => UInt64.le_iff_toNat_le.mpr (hmax key (hmem key hkey))⟩

/-- A record is known by its slot and its drive. -/
def slot (e : Fed) : Nat × UInt8 := (e.idx, e.drive_ordinal)

/-- Duplicates whose result does not depend on the order of the records: there are none. -/
theorem duplicates_determined {drives : List DriveCompactIndex} {ext_map : ExtensionMap} {total_matched total_bytes : UInt64}
    {options : FinalizeOptions} {verify : DuplicateVerify} {top_hits : Option TopHitsSpec}
    (hslots : (fed.map slot).Nodup) (hlen : fed.length < UInt64.size)
    (h : ∀ xs ys : List Fed, xs.Perm fed → ys.Perm fed →
      sequential_data calls drives ext_map total_matched total_bytes options (.Duplicates keys verify top_hits max_groups) xs =
        sequential_data calls drives ext_map total_matched total_bytes options (.Duplicates keys verify top_hits max_groups) ys) :
    Determined calls drives ext_map total_matched total_bytes options (.Duplicates keys verify top_hits max_groups) fed := by
  by_contra hnot
  obtain ⟨hmax, hpair⟩ := not_or.mp hnot
  have hseveral : ∃ key, 2 ≤ (with_duplicate_key calls keys fed key).length := by
    by_contra hnone
    refine hpair (pairwise_of_length_le_one fun key => ?_)
    by_contra hlarge
    exact hnone ⟨key, by omega⟩
  obtain ⟨key, hkey⟩ := hseveral
  obtain ⟨best, htwo, hbest⟩ := exists_best_key hkey
  obtain ⟨e, e', tail, hgroup⟩ : ∃ e e' tail, with_duplicate_key calls keys fed best = e :: e' :: tail := by
    match hlist : with_duplicate_key calls keys fed best with
    | [] | [_] => simp [hlist] at htwo
    | e :: e' :: tail => exact ⟨e, e', tail, rfl⟩
  let rest := fed.filter fun x => !(DuplicateAccumulator.candidate x && CompositeKey.from_record calls keys x == best)
  have hsplit : (with_duplicate_key calls keys fed best ++ rest).Perm fed := List.filter_append_perm _ fed
  have hfirst : ∀ x others, (x :: others).Perm (with_duplicate_key calls keys fed best) →
      (x :: (others ++ rest)).Perm fed ∧ first_member (sequential_data calls drives ext_map total_matched total_bytes options
        (.Duplicates keys verify top_hits max_groups) (x :: (others ++ rest))) = some (slot x) := by
    intro x others hothers
    have hperm : (x :: (others ++ rest)).Perm fed := (hothers.append_right rest).trans hsplit
    have hgroups : ∀ key, (with_duplicate_key calls keys (x :: (others ++ rest)) key).Perm (with_duplicate_key calls keys fed key) :=
      fun key => hperm.filter _
    obtain ⟨-, hboth⟩ := List.mem_filter.mp (hothers.mem_iff.mp List.mem_cons_self)
    obtain ⟨hcandidate, hsame⟩ := (Bool.and_eq_true _ _).mp hboth
    obtain rfl := eq_of_beq hsame
    refine ⟨hperm, first_member_sequential hcandidate hmax (hperm.length_eq ▸ hlen) ?_ fun key hkey => ?_⟩
    · rw [(hgroups _).length_eq]
      exact htwo
    · rw [(hgroups _).length_eq] at hkey
      rw [size_stats, size_stats, stats_of_perm _ (hgroups key), stats_of_perm _ (hgroups _)]
      exact hbest key hkey
  obtain ⟨hperm, hshown⟩ := hfirst e (e' :: tail) (hgroup ▸ List.Perm.refl _)
  obtain ⟨hperm', hshown'⟩ := hfirst e' (e :: tail) (hgroup ▸ List.Perm.swap e e' tail)
  have hsame : slot e = slot e' := by
    rw [h _ _ hperm hperm', hshown'] at hshown
    exact (Option.some.inj hshown).symm
  have hnodup := (hperm.map slot).nodup_iff.mpr hslots
  exact (List.nodup_cons.mp hnodup).1 (hsame ▸ List.mem_cons_self)

end duplicates

end uffs.aggregate
