import Uffs.Aggregate.Invariants
import Uffs.Lib.Grouping
import Uffs.Lib.Ranking
import Mathlib.Algebra.Order.Ring.Int

open uffs.lib
open uffs.daemon (FieldId)

namespace uffs.aggregate

/-! What each accumulator says of the records fed to it, in whatever order and through whatever merges. -/

variable {xs ys : List Fed}

section stats

namespace StatsAccumulator

theorem feed_value_right_comm (stats : StatsAccumulator) (v a w b : UInt64) :
    (stats.feed_value v a).feed_value w b = (stats.feed_value w b).feed_value v a := by
  simp only [feed_value, mk.injEq, true_and]
  refine ⟨?_, ?_, ?_, ?_⟩ <;> grind

@[simp] theorem merge_new (stats : StatsAccumulator) : stats.merge .new = stats := by
  have hmin : ¬(0xFFFFFFFFFFFFFFFF : UInt64) < stats.min := by
    rw [UInt64.lt_iff_toNat_lt]
    have := stats.min.toNat_lt
    simp only [UInt64.reduceToNat]
    omega
  simp [merge, new, hmin]

theorem merge_feed_value (stats other : StatsAccumulator) (v a : UInt64) :
    stats.merge (other.feed_value v a) = (stats.merge other).feed_value v a := by
  simp only [feed_value, merge, mk.injEq]
  refine ⟨?_, ?_, ?_, ?_, ?_⟩ <;> grind

end StatsAccumulator

/-- The statistics of some records, of one of their values. -/
def stats_of (value : Fed → UInt64) (fed : List Fed) : StatsAccumulator :=
  fed.foldl (fun stats e => stats.feed_value (value e) e.record.allocated) .new

variable (value : Fed → UInt64)

@[simp] theorem stats_of_nil : stats_of value [] = .new := rfl

@[simp] theorem stats_of_append_singleton (fed : List Fed) (e : Fed) :
    stats_of value (fed ++ [e]) = (stats_of value fed).feed_value (value e) e.record.allocated := by
  simp [stats_of, List.foldl_append]

theorem stats_of_append (xs ys : List Fed) : stats_of value (xs ++ ys) = (stats_of value xs).merge (stats_of value ys) := by
  induction ys using List.reverseRecOn with
  | nil => simp
  | append_singleton ys e ih =>
    rw [← List.append_assoc, stats_of_append_singleton, ih, stats_of_append_singleton, StatsAccumulator.merge_feed_value]

theorem stats_of_perm (h : xs.Perm ys) : stats_of value xs = stats_of value ys := by
  have : RightCommutative fun (stats : StatsAccumulator) (e : Fed) => stats.feed_value (value e) e.record.allocated :=
    ⟨fun stats e e' => stats.feed_value_right_comm _ _ _ _⟩
  exact h.foldl_eq StatsAccumulator.new

/-- The statistics of the sizes. -/
def size_stats (fed : List Fed) : StatsAccumulator := stats_of (·.record.size) fed

end stats

section samples

variable {spec : TopHitsSpec}

/-- Best entry first: by the sort key, on a tie by the slot. -/
def sample_key (sort_desc : Bool) (entry : SampleEntry) : ℤ ×ₗ ℕ :=
  toLex (if sort_desc then -entry.sort_key.toInt else entry.sort_key.toInt, entry.rec_idx.toNat)

theorem better_iff (sort_desc : Bool) (a b : SampleEntry) :
    a.better sort_desc b = true ↔ sample_key sort_desc a < sample_key sort_desc b := by
  rw [sample_key, sample_key, Prod.Lex.toLex_lt_toLex]
  cases sort_desc <;>
    simp [SampleEntry.better, Int64.lt_iff_toInt_lt, ← Int64.toInt_inj, UInt32.lt_iff_toNat_lt]

theorem drain_goes_by (sort_desc : Bool) :
    GoesBy (fun a b : SampleEntry => ¬b.better sort_desc a = true) (sample_key sort_desc) := by
  intro a b
  dsimp only
  rw [better_iff, not_lt]

namespace SampleHeap

theorem foldl_worst (sort_desc : Bool) (first : SampleEntry) (rest : List SampleEntry) :
    let worst := rest.foldl (fun worst entry => if worst.better sort_desc entry then entry else worst) first
    worst ∈ first :: rest ∧ ∀ e ∈ first :: rest, sample_key sort_desc e ≤ sample_key sort_desc worst := by
  induction rest generalizing first with
  | nil => simp
  | cons entry rest ih =>
    obtain ⟨hmem, hworst⟩ := ih (if first.better sort_desc entry then entry else first)
    have hnext := hworst _ List.mem_cons_self
    refine ⟨?_, fun e he => ?_⟩
    · rcases List.mem_cons.mp hmem with heq | hlater
      · rw [List.foldl_cons, heq]
        split <;> simp
      · exact List.mem_cons_of_mem _ (List.mem_cons_of_mem _ hlater)
    · rw [List.foldl_cons]
      rcases List.mem_cons.mp he with rfl | hlater
      · refine le_trans ?_ hnext
        split
        · next hbetter => exact ((better_iff sort_desc _ _).mp hbetter).le
        · exact le_refl _
      · rcases List.mem_cons.mp hlater with rfl | hrest
        · refine le_trans ?_ hnext
          split
          · exact le_refl _
          · next hnot => exact not_lt.mp fun hlt => hnot ((better_iff sort_desc _ _).mpr hlt)
        · exact hworst e (List.mem_cons_of_mem _ hrest)

variable {walk : WalkOrder} {heap other : SampleHeap}

/-- The entry evicted first is in the heap, and none there is worse. -/
theorem peek_spec {worst : SampleEntry} (h : peek walk spec heap = some worst) :
    worst ∈ heap ∧ ∀ e ∈ heap, sample_key spec.sort_desc e ≤ sample_key spec.sort_desc worst := by
  unfold peek at h
  split at h
  · cases h
  · next first rest hvisit =>
    obtain ⟨hmem, hworst⟩ := foldl_worst spec.sort_desc first rest
    rw [Option.some.injEq] at h
    subst h
    rw [← hvisit] at hmem hworst
    exact ⟨walk.mem_visit.mp hmem, fun e he => hworst e (walk.mem_visit.mpr he)⟩

theorem peek_eq_none (h : peek walk spec heap = none) : heap = [] := by
  unfold peek at h
  split at h
  · next hvisit => exact (hvisit ▸ walk.perm heap).nil_eq.symm
  · cases h

/-- The heap keeps the best of the entries pushed. -/
abbrev KeepsBest (spec : TopHitsSpec) (pushed : List SampleEntry) (heap : SampleHeap) : Prop :=
  Keeps (sample_key spec.sort_desc) spec.count.toNat pushed heap

theorem KeepsBest.push_entry {pushed : List SampleEntry} (h : KeepsBest spec pushed heap) (entry : SampleEntry) :
    KeepsBest spec (pushed ++ [entry]) (SampleHeap.push_entry walk spec heap entry) := by
  unfold SampleHeap.push_entry
  split
  · next hroom => exact h.grow hroom entry
  · next hnone =>
    have hfull : heap.length = spec.count.toNat := by
      have := h.1
      omega
    split
    · next worst hpeek =>
      obtain ⟨hmem, hworst⟩ := peek_spec hpeek
      split
      · next hbetter => exact h.replace hfull hmem hworst ((better_iff spec.sort_desc _ _).mp hbetter)
      · next hnot =>
        have hle := not_lt.mp fun hlt => hnot ((better_iff spec.sort_desc _ _).mpr hlt)
        exact h.pass hfull fun e he => (hworst e he).trans hle
    · next hpeek =>
      have hcount := UInt8.le_iff_toNat_le.mp spec.count_range.1
      rw [peek_eq_none hpeek] at hfull
      simp only [List.length_nil, UInt8.reduceToNat] at hfull hcount
      omega

theorem KeepsBest.foldl_push_entry {pushed : List SampleEntry} (h : KeepsBest spec pushed heap) (entries : List SampleEntry) :
    KeepsBest spec (pushed ++ entries) (entries.foldl (SampleHeap.push_entry walk spec) heap) := by
  induction entries generalizing pushed heap with
  | nil => rwa [List.append_nil]
  | cons entry rest ih =>
    have hpushed : KeepsBest spec (pushed ++ [entry]) (SampleHeap.push_entry walk spec heap entry) := h.push_entry entry
    have hnext := ih hpushed
    rwa [List.append_assoc, List.singleton_append] at hnext

theorem KeepsBest.merge {xs ys : List SampleEntry} (h : KeepsBest spec xs heap) (hother : KeepsBest spec ys other) :
    KeepsBest spec (xs ++ ys) (SampleHeap.merge walk spec heap other) := by
  have hpushed : KeepsBest spec (xs ++ walk.visit other) (SampleHeap.merge walk spec heap other) :=
    h.foldl_push_entry (walk.visit other)
  exact (hpushed.perm ((walk.perm other).append_left xs)).widen hother

end SampleHeap

end samples

section contents

variable (calls : Calls) (ext_map : ExtensionMap)

/-- The key a record is grouped by. -/
def group_key (field : FieldId) (fed : Fed) : Option UInt64 := some (extract_group_key calls ext_map field fed)

/-- The period a record falls into. -/
def period_key (field : FieldId) (calendar : CalendarInterval) (fed : Fed) : Option Int64 :=
  some (truncate_timestamp (extract_timestamp field fed.record) calendar)

/-- The bucket a record falls into. -/
def bucket_of (field : FieldId) (boundaries : List UInt64) (fed : Fed) : Nat :=
  (boundaries.takeWhile (· ≤ extract_value field fed.record)).length

/-- Each group has the statistics of its records. -/
abbrev GroupsDescribe {κ : Type} [DecidableEq κ] (key : Fed → Option κ) (fed : List Fed) (groups : Groups κ) : Prop :=
  Grouped key (fun items stats => stats = size_stats items) fed groups

/-- Each bucket has the statistics of its records; before the first record there are `fresh` buckets. -/
def BucketsDescribe (field : FieldId) (boundaries : List UInt64) (fresh : Nat) (fed : List Fed)
    (buckets : List StatsAccumulator) : Prop :=
  buckets.length = (if fed = [] then fresh else boundaries.length + 1) ∧
    ∀ i, buckets[i]?.getD StatsAccumulator.new = size_stats (fed.filter (bucket_of field boundaries · = i))

/-- The candidates among some records that have a key. -/
def candidates (keys : List FieldId) (fed : List Fed) (key : CompositeKey) : Nat :=
  fed.countP fun e => DuplicateAccumulator.candidate e && CompositeKey.from_record calls keys e == key

/-- A group of duplicates counts no more than the candidates with its key. -/
def DuplicatesDescribe (keys : List FieldId) (max_groups : UInt32) (fed : List Fed) (groups : DuplicateAccumulator) : Prop :=
  NodupKeys groups ∧ (max_groups = 0 → groups = []) ∧
    ∀ group ∈ groups, group.2.stats.count.toNat ≤ candidates calls keys fed group.1

/-- The keys that occur, each once. -/
def DistinctDescribes (field : FieldId) (fed : List Fed) (seen : List UInt64) : Prop :=
  seen.Nodup ∧ ∀ key, key ∈ seen ↔ ∃ e ∈ fed, extract_group_key calls ext_map field e = key

/-- What an accumulator of a kind says of the records fed to it. -/
def Describes : (kind : AggregateKind) → List Fed → kind.Accumulator → Prop
  | .Count, fed, (count : UInt64) => count = fed.length.toUInt64
  | .Stats field, fed, (stats : StatsAccumulator) => stats = stats_of (extract_value field ·.record) fed
  | .Terms field _ none, fed, (groups : Groups UInt64) => GroupsDescribe (group_key calls ext_map field) fed groups
  | .Terms field _ (some spec), fed, (groups, heaps) =>
    GroupsDescribe (group_key calls ext_map field) fed groups ∧
      Grouped (group_key calls ext_map field)
        (fun items heap => SampleHeap.KeepsBest spec (items.map (SampleHeap.entry_of spec)) heap) fed heaps
  | .Histogram field, fed, (buckets : List StatsAccumulator) => BucketsDescribe field [] 0 fed buckets
  | .Range field boundaries, fed, (buckets : List StatsAccumulator) =>
    BucketsDescribe field boundaries (boundaries.length + 1) fed buckets
  | .DateHistogram field calendar, fed, (buckets : Groups Int64) => GroupsDescribe (period_key field calendar) fed buckets
  | .Missing field, fed, (count : UInt64) => count = (fed.countP (is_missing field ·.record)).toUInt64
  | .Distinct field, fed, (seen : List UInt64) => DistinctDescribes calls ext_map field fed seen
  | .Rollup mode _ none, fed, (groups : Groups UInt64) => GroupsDescribe (rollup_key mode) fed groups
  | .Rollup mode _ (some sub), fed, (groups, subs) =>
    GroupsDescribe (rollup_key mode) fed groups ∧ Grouped (rollup_key mode) (Describes sub) fed subs
  | .Duplicates keys _ _ max_groups, fed, (groups : DuplicateAccumulator) =>
    DuplicatesDescribe calls keys max_groups fed groups

end contents

section keeping

variable {calls : Calls} {ext_map : ExtensionMap} {walk : WalkOrder} {fed : List Fed}

theorem GroupsDescribe.feed {κ : Type} [DecidableEq κ] {key : Fed → Option κ} {groups : Groups κ}
    (h : GroupsDescribe key fed groups) {e : Fed} {k : κ} (hkey : key e = some k) :
    GroupsDescribe key (fed ++ [e]) (groups.feed k e.record) := by
  refine Grouped.feed h hkey rfl fun items stats hstats => ?_
  rw [hstats]
  exact (stats_of_append_singleton _ items e).symm

theorem GroupsDescribe.merge {κ : Type} [DecidableEq κ] {key : Fed → Option κ} {a b : Groups κ}
    (ha : GroupsDescribe key xs a) (hb : GroupsDescribe key ys b) : GroupsDescribe key (xs ++ ys) (Groups.merge walk a b) := by
  refine Grouped.merge ha hb (walk.perm b) fun xs ys v w hv hw => ?_
  rw [hv, hw]
  exact (stats_of_append _ xs ys).symm

section buckets

variable {field : FieldId} {boundaries : List UInt64} {fresh : Nat}

theorem bucket_of_le (field : FieldId) (boundaries : List UInt64) (e : Fed) : bucket_of field boundaries e ≤ boundaries.length :=
  (List.takeWhile_sublist _).length_le

theorem getD_grown (buckets : List StatsAccumulator) (n i : Nat) :
    (buckets ++ List.replicate n StatsAccumulator.new)[i]?.getD StatsAccumulator.new = buckets[i]?.getD StatsAccumulator.new := by
  by_cases hi : i < buckets.length
  · rw [List.getElem?_append_left hi]
  · rw [List.getElem?_append_right (by omega), List.getElem?_eq_none (l := buckets) (by omega), List.getElem?_replicate]
    split <;> rfl

theorem getD_modify {σ : Type} (l : List σ) (k : Nat) (f : σ → σ) (d : σ) (i : Nat) :
    (l.modify k f)[i]?.getD d = if k = i ∧ i < l.length then f (l[i]?.getD d) else l[i]?.getD d := by
  rw [List.getElem?_modify]
  by_cases hi : i < l.length
  · rw [List.getElem?_eq_getElem hi]
    by_cases hk : k = i <;> simp [hk, hi]
  · rw [List.getElem?_eq_none (by omega), if_neg fun h => hi h.2]
    rfl

theorem BucketsDescribe.feed {fed : List Fed} {buckets : List StatsAccumulator}
    (h : BucketsDescribe field boundaries fresh fed buckets) (hfresh : fresh = boundaries.length + 1 ∨ boundaries = [] ∧ fresh = 0)
    (e : Fed) : BucketsDescribe field boundaries fresh (fed ++ [e])
      (GroupAccumulator.feed_bucket boundaries (extract_value field e.record) e.record buckets) := by
  obtain ⟨hlen, hall⟩ := h
  have hle := bucket_of_le field boundaries e
  have hgrown : buckets.length + (bucket_of field boundaries e + 1 - buckets.length) = boundaries.length + 1 := by
    rw [hlen]
    rcases hfresh with rfl | ⟨rfl, rfl⟩
    · split <;> omega
    · rw [List.length_nil] at hle ⊢
      split <;> omega
  refine ⟨?_, fun i => ?_⟩
  · simp only [GroupAccumulator.feed_bucket, List.length_modify, List.length_append, List.length_replicate]
    rw [if_neg (by simp)]
    exact hgrown
  · simp only [GroupAccumulator.feed_bucket, List.filter_append]
    rw [← bucket_of, getD_modify, getD_grown, hall i, List.length_append, List.length_replicate, hgrown]
    by_cases hi : bucket_of field boundaries e = i
    · rw [if_pos ⟨hi, by omega⟩, List.filter_cons_of_pos (by simpa using hi), List.filter_nil]
      exact (stats_of_append_singleton _ _ e).symm
    · rw [if_neg fun h => hi h.1, List.filter_cons_of_neg (by simpa using hi), List.filter_nil, List.append_nil]

theorem getElem?_merge_buckets (a b : List StatsAccumulator) (i : Nat) :
    (GroupAccumulator.merge_buckets a b)[i]?.getD StatsAccumulator.new =
      (a[i]?.getD StatsAccumulator.new).merge (b[i]?.getD StatsAccumulator.new) := by
  simp only [GroupAccumulator.merge_buckets, List.getElem?_zipWith, List.length_append, List.length_replicate]
  rw [← getD_grown a (b.length - a.length) i, ← getD_grown b (a.length + (b.length - a.length) - b.length) i]
  by_cases hi : i < max a.length b.length
  · rw [List.getElem?_eq_getElem (by rw [List.length_append, List.length_replicate]; omega),
      List.getElem?_eq_getElem (by rw [List.length_append, List.length_replicate]; omega)]
    rfl
  · rw [List.getElem?_eq_none (by rw [List.length_append, List.length_replicate]; omega),
      List.getElem?_eq_none (by rw [List.length_append, List.length_replicate]; omega)]
    exact (StatsAccumulator.merge_new _).symm

theorem BucketsDescribe.merge {a b : List StatsAccumulator}
    (ha : BucketsDescribe field boundaries fresh xs a) (hb : BucketsDescribe field boundaries fresh ys b)
    (hfresh : fresh ≤ boundaries.length + 1) :
    BucketsDescribe field boundaries fresh (xs ++ ys) (GroupAccumulator.merge_buckets a b) := by
  refine ⟨?_, fun i => ?_⟩
  · simp only [GroupAccumulator.merge_buckets, List.length_zipWith, List.length_append, List.length_replicate, ha.1, hb.1,
      List.append_eq_nil_iff]
    by_cases hx : xs = [] <;> by_cases hy : ys = [] <;> simp only [hx, hy, if_true, if_false, and_self, true_and, and_true] <;>
      omega
  · rw [getElem?_merge_buckets, ha.2 i, hb.2 i, List.filter_append]
    exact (stats_of_append _ _ _).symm

end buckets

section duplicates

variable {keys : List FieldId} {max_groups : UInt32} {sample : UInt8}

theorem candidates_append (xs ys : List Fed) (key : CompositeKey) :
    candidates calls keys (xs ++ ys) key = candidates calls keys xs key + candidates calls keys ys key :=
  List.countP_append

theorem candidates_self {e : Fed} (h : DuplicateAccumulator.candidate e = true) :
    candidates calls keys [e] (CompositeKey.from_record calls keys e) = 1 := by simp [candidates, h]

theorem count_feed_value_le (stats : StatsAccumulator) (v a : UInt64) : (stats.feed_value v a).count.toNat ≤ stats.count.toNat + 1 := by
  simp only [StatsAccumulator.feed_value, UInt64.toNat_add, UInt64.reduceToNat]
  omega

theorem count_merge_le (a b : StatsAccumulator) : (a.merge b).count.toNat ≤ a.count.toNat + b.count.toNat := by
  simp only [StatsAccumulator.merge, UInt64.toNat_add]
  omega

theorem update_keys (groups : DuplicateAccumulator) (key : CompositeKey) (f : DuplicateGroupBuilder → DuplicateGroupBuilder) :
    (groups.update key f).map Prod.fst = groups.map Prod.fst := by
  rw [DuplicateAccumulator.update, List.map_map]
  refine List.map_congr_left fun group _ => ?_
  simp only [Function.comp_apply]
  split <;> rfl

variable {groups : DuplicateAccumulator}

theorem update_nodup (h : NodupKeys groups) (key : CompositeKey) (f : DuplicateGroupBuilder → DuplicateGroupBuilder) :
    NodupKeys (groups.update key f) := by
  rw [NodupKeys, update_keys]
  exact h

theorem DuplicatesDescribe.feed {fed : List Fed} (h : DuplicatesDescribe calls keys max_groups fed groups) (e : Fed) :
    DuplicatesDescribe calls keys max_groups (fed ++ [e]) (groups.feed calls keys max_groups sample e) := by
  obtain ⟨hnodup, hnone, hall⟩ := h
  have hgrow : ∀ key, candidates calls keys fed key ≤ candidates calls keys (fed ++ [e]) key := by
    intro key
    rw [candidates_append]
    omega
  unfold DuplicateAccumulator.feed
  split
  · exact ⟨hnodup, hnone, fun group hgroup => (hall group hgroup).trans (hgrow group.1)⟩
  · next hcandidate =>
    have hadded : ∀ {old : DuplicateGroupBuilder},
        old.stats.count.toNat ≤ candidates calls keys fed (CompositeKey.from_record calls keys e) →
        (old.add sample e).stats.count.toNat ≤ candidates calls keys (fed ++ [e]) (CompositeKey.from_record calls keys e) := by
      intro old hold
      rw [candidates_append, candidates_self (by simpa using hcandidate)]
      exact (count_feed_value_le _ _ _).trans (by omega)
    split
    · refine ⟨update_nodup hnodup _ _, fun hzero => ?_, fun group hgroup => ?_⟩
      · rw [hnone hzero]
        rfl
      · obtain ⟨old, hold, rfl⟩ := List.mem_map.mp hgroup
        split
        · next heq => exact heq ▸ hadded (heq ▸ hall old hold)
        · exact (hall old hold).trans (hgrow old.1)
    · next hroom =>
      refine ⟨hnodup.upsert _ _ _, fun hzero => absurd (hzero ▸ UInt32.zero_le) hroom, fun group hgroup => ?_⟩
      rcases mem_upsert hgroup with rfl | ⟨old, hold, hkey, heq | ⟨hsame, heq⟩⟩
      · exact hadded (Nat.zero_le (candidates calls keys fed _))
      · rw [heq, hkey]
        exact (hall old hold).trans (hgrow old.1)
      · rw [heq, hkey, hsame]
        exact hadded (hsame ▸ hall old hold)

theorem merge_group_nodup (h : NodupKeys groups) (other : CompositeKey × DuplicateGroupBuilder) :
    NodupKeys (groups.merge_group max_groups sample other) := by
  unfold DuplicateAccumulator.merge_group
  split
  · exact update_nodup h _ _
  · next hnew =>
    split
    · rw [NodupKeys, List.map_append]
      refine List.nodup_append.mpr ⟨h, List.nodup_singleton _, fun k hk l hl => ?_⟩
      rintro rfl
      exact hnew (List.mem_singleton.mp hl ▸ hk)
    · exact h

theorem merge_group_count_le {other : CompositeKey × DuplicateGroupBuilder} {bound more : CompositeKey → Nat}
    (hbound : ∀ group ∈ groups, group.2.stats.count.toNat ≤ bound group.1)
    (hother : other.2.stats.count.toNat ≤ more other.1) {group : CompositeKey × DuplicateGroupBuilder}
    (hgroup : group ∈ groups.merge_group max_groups sample other) :
    group.2.stats.count.toNat ≤ bound group.1 + if group.1 = other.1 then more group.1 else 0 := by
  unfold DuplicateAccumulator.merge_group at hgroup
  split at hgroup
  · obtain ⟨old, hold, rfl⟩ := List.mem_map.mp hgroup
    have hle := hbound old hold
    split
    · next heq =>
      have hsum := count_merge_le old.2.stats other.2.stats
      dsimp only
      rw [heq] at hle ⊢
      omega
    · exact hle
  · split at hgroup
    · rcases List.mem_append.mp hgroup with hold | hnew
      · exact (hbound group hold).trans (Nat.le_add_right _ _)
      · rw [List.mem_singleton.mp hnew, if_pos rfl]
        omega
    · exact (hbound group hgroup).trans (Nat.le_add_right _ _)

theorem foldl_merge_group_count_le {others groups : DuplicateAccumulator} (hnodup : NodupKeys others)
    {bound more : CompositeKey → Nat} (hbound : ∀ group ∈ groups, group.2.stats.count.toNat ≤ bound group.1)
    (hmore : ∀ other ∈ others, other.2.stats.count.toNat ≤ more other.1) {group : CompositeKey × DuplicateGroupBuilder}
    (hgroup : group ∈ others.foldl (DuplicateAccumulator.merge_group max_groups sample) groups) :
    group.2.stats.count.toNat ≤ bound group.1 + if group.1 ∈ others.map Prod.fst then more group.1 else 0 := by
  induction others generalizing groups bound with
  | nil => exact (hbound group hgroup).trans (Nat.le_add_right _ _)
  | cons other rest ih =>
    obtain ⟨hfresh, hrest⟩ := List.nodup_cons.mp hnodup
    let raised : CompositeKey → Nat := fun key => bound key + if key = other.1 then more key else 0
    have hraised : ∀ g ∈ groups.merge_group max_groups sample other, g.2.stats.count.toNat ≤ raised g.1 :=
      fun g hg => merge_group_count_le hbound (hmore other List.mem_cons_self) hg
    have hle := ih hrest hraised (fun o ho => hmore o (List.mem_cons_of_mem _ ho)) hgroup
    simp only [raised] at hle
    simp only [List.map_cons, List.mem_cons]
    by_cases heq : group.1 = other.1
    · rw [if_pos heq, if_neg fun hmem => hfresh (heq ▸ hmem)] at hle
      rw [if_pos (Or.inl heq)]
      omega
    · rw [if_neg heq] at hle
      simpa only [heq, false_or, Nat.add_zero] using hle

theorem foldl_merge_group_nodup (h : NodupKeys groups) (others : DuplicateAccumulator) :
    NodupKeys (others.foldl (DuplicateAccumulator.merge_group max_groups sample) groups) := by
  induction others generalizing groups with
  | nil => exact h
  | cons other rest ih => exact ih (merge_group_nodup h other)

theorem DuplicatesDescribe.merge {a b : DuplicateAccumulator} (ha : DuplicatesDescribe calls keys max_groups xs a)
    (hb : DuplicatesDescribe calls keys max_groups ys b) :
    DuplicatesDescribe calls keys max_groups (xs ++ ys) (DuplicateAccumulator.merge max_groups sample walk a b) := by
  obtain ⟨hnodup, hnone, hall⟩ := ha
  refine ⟨foldl_merge_group_nodup hnodup _, fun hzero => ?_, fun group hgroup => ?_⟩
  · have hempty : (walk.visit b).Perm [] := (walk.perm b).trans (hb.2.1 hzero ▸ List.Perm.refl b)
    rw [DuplicateAccumulator.merge, hempty.eq_nil]
    exact hnone hzero
  · have hle := foldl_merge_group_count_le (hb.1.perm (walk.perm b)) hall
      (fun other hother => hb.2.2 other (walk.mem_visit.mp hother)) hgroup
    rw [candidates_append]
    refine hle.trans (Nat.add_le_add_left ?_ _)
    split
    · exact Nat.le_refl _
    · exact Nat.zero_le _

end duplicates

theorem fresh_buckets (n : Nat) (i : Nat) : (List.replicate n StatsAccumulator.new)[i]?.getD StatsAccumulator.new = StatsAccumulator.new := by
  rw [List.getElem?_replicate]
  split <;> rfl

theorem describes_fresh (kind : AggregateKind) : Describes calls ext_map kind [] (GroupAccumulator.from_kind kind) := by
  match kind with
  | .Count | .Stats _ | .Missing _ => rfl
  | .Terms _ _ none | .DateHistogram _ _ | .Rollup _ _ none => exact Grouped.nil
  | .Terms _ _ (some _) | .Rollup _ _ (some _) => exact ⟨Grouped.nil, Grouped.nil⟩
  | .Histogram _ => exact ⟨rfl, fun i => rfl⟩
  | .Range _ boundaries => exact ⟨List.length_replicate, fresh_buckets _⟩
  | .Distinct _ => exact ⟨List.nodup_nil, fun key => by simp [GroupAccumulator.from_kind]⟩
  | .Duplicates _ _ _ _ => exact ⟨NodupKeys.nil, fun _ => rfl, fun group hgroup => absurd hgroup List.not_mem_nil⟩

theorem heaps_feed {spec : TopHitsSpec} {key : Fed → Option UInt64} {heaps : List (UInt64 × SampleHeap)}
    (h : Grouped key (fun items heap => SampleHeap.KeepsBest spec (items.map (SampleHeap.entry_of spec)) heap) fed heaps)
    {e : Fed} {k : UInt64} (hkey : key e = some k) :
    Grouped key (fun items heap => SampleHeap.KeepsBest spec (items.map (SampleHeap.entry_of spec)) heap) (fed ++ [e])
      (upsert k (SampleHeap.push walk spec [] e) (SampleHeap.push walk spec · e) heaps) := by
  refine h.feed hkey (SampleHeap.KeepsBest.push_entry (Keeps.nil _) _) fun items heap hheap => ?_
  rw [List.map_append]
  exact SampleHeap.KeepsBest.push_entry hheap _

theorem count_append (m n : Nat) : (m + n).toUInt64 = m.toUInt64 + n.toUInt64 := UInt64.ofNat_add m n

theorem missing_feed (field : FieldId) (fed : List Fed) (e : Fed) :
    (if is_missing field e.record then (fed.countP (is_missing field ·.record)).toUInt64 + 1
      else (fed.countP (is_missing field ·.record)).toUInt64) =
      ((fed ++ [e]).countP (is_missing field ·.record)).toUInt64 := by
  rw [List.countP_append, count_append]
  by_cases hmiss : is_missing field e.record = true
  · rw [if_pos hmiss, List.countP_singleton, if_pos hmiss]
    rfl
  · rw [if_neg hmiss, List.countP_singleton, if_neg hmiss]
    exact (UInt64.add_zero _).symm

theorem DistinctDescribes.feed {field : FieldId} {seen : List UInt64} (h : DistinctDescribes calls ext_map field fed seen)
    (e : Fed) :
    DistinctDescribes calls ext_map field (fed ++ [e]) (seen.insert (extract_group_key calls ext_map field e)) := by
  refine ⟨h.1.insert, fun key => ?_⟩
  rw [List.mem_insert_iff, h.2 key]
  constructor
  · rintro (rfl | ⟨old, hold, hkey⟩)
    · exact ⟨e, by simp, rfl⟩
    · exact ⟨old, List.mem_append_left _ hold, hkey⟩
  · rintro ⟨old, hold, hkey⟩
    rcases List.mem_append.mp hold with hbefore | hnew
    · exact Or.inr ⟨old, hbefore, hkey⟩
    · exact Or.inl (List.mem_singleton.mp hnew ▸ hkey.symm)

theorem mem_foldl_insert {seen keys : List UInt64} {key : UInt64} :
    key ∈ keys.foldl (fun seen key => seen.insert key) seen ↔ key ∈ seen ∨ key ∈ keys := by
  induction keys generalizing seen with
  | nil => simp
  | cons head rest ih => simp only [List.foldl_cons, ih, List.mem_insert_iff, List.mem_cons]; tauto

theorem nodup_foldl_insert {seen : List UInt64} (h : seen.Nodup) (keys : List UInt64) :
    (keys.foldl (fun seen key => seen.insert key) seen).Nodup := by
  induction keys generalizing seen with
  | nil => exact h
  | cons head rest ih => exact ih h.insert

theorem DistinctDescribes.merge {field : FieldId} {a b : List UInt64}
    (ha : DistinctDescribes calls ext_map field xs a) (hb : DistinctDescribes calls ext_map field ys b) :
    DistinctDescribes calls ext_map field (xs ++ ys) ((walk.visit b).foldl (fun seen key => seen.insert key) a) := by
  refine ⟨nodup_foldl_insert ha.1 _, fun key => ?_⟩
  rw [mem_foldl_insert, WalkOrder.mem_visit, ha.2, hb.2]
  simp only [List.mem_append, or_and_right, exists_or]

theorem describes_feed {kind : AggregateKind} {acc : kind.Accumulator} (h : Describes calls ext_map kind fed acc) (e : Fed) :
    Describes calls ext_map kind (fed ++ [e]) (GroupAccumulator.feed walk calls ext_map kind acc e) := by
  induction kind using AggregateKind.Accumulator.induct generalizing fed e with
  | case1 =>
    obtain rfl : acc = fed.length.toUInt64 := h
    change fed.length.toUInt64 + 1 = (fed ++ [e]).length.toUInt64
    rw [List.length_append, count_append]
    rfl
  | case2 field =>
    obtain rfl : acc = stats_of (extract_value field ·.record) fed := h
    exact (stats_of_append_singleton _ fed e).symm
  | case3 field top => exact GroupsDescribe.feed h rfl
  | case4 field top spec => exact ⟨GroupsDescribe.feed h.1 rfl, heaps_feed h.2 rfl⟩
  | case5 field => exact BucketsDescribe.feed h (Or.inr ⟨rfl, rfl⟩) e
  | case6 field boundaries => exact BucketsDescribe.feed h (Or.inl rfl) e
  | case7 field calendar => exact GroupsDescribe.feed h rfl
  | case8 field =>
    obtain rfl : acc = (fed.countP (is_missing field ·.record)).toUInt64 := h
    exact missing_feed field fed e
  | case9 field => exact DistinctDescribes.feed h e
  | case10 mode top =>
    change GroupsDescribe (rollup_key mode) _ _ at h ⊢
    unfold GroupAccumulator.feed
    split
    · next hkey => exact Grouped.skip h hkey
    · next key hkey => exact GroupsDescribe.feed h hkey
  | case11 mode top sub ih =>
    obtain ⟨groups, subs⟩ := acc
    obtain ⟨hgroups, hsubs⟩ : GroupsDescribe (rollup_key mode) fed groups ∧ Grouped (rollup_key mode) (Describes calls ext_map sub) fed subs := h
    simp only [GroupAccumulator.feed]
    split
    · next hkey => exact ⟨Grouped.skip hgroups hkey, Grouped.skip hsubs hkey⟩
    · next key hkey =>
      exact ⟨GroupsDescribe.feed hgroups hkey, hsubs.feed hkey (ih (describes_fresh sub) e) fun items v hv => ih hv e⟩
  | case12 keys verify sample max_groups => exact DuplicatesDescribe.feed h e

theorem heaps_merge {spec : TopHitsSpec} {key : Fed → Option UInt64} {a b : List (UInt64 × SampleHeap)}
    (ha : Grouped key (fun items heap => SampleHeap.KeepsBest spec (items.map (SampleHeap.entry_of spec)) heap) xs a)
    (hb : Grouped key (fun items heap => SampleHeap.KeepsBest spec (items.map (SampleHeap.entry_of spec)) heap) ys b) :
    Grouped key (fun items heap => SampleHeap.KeepsBest spec (items.map (SampleHeap.entry_of spec)) heap) (xs ++ ys)
      (merge_entries (SampleHeap.merge walk spec) a (walk.visit b)) := by
  refine ha.merge hb (walk.perm b) fun xs ys v w hv hw => ?_
  rw [List.map_append]
  exact SampleHeap.KeepsBest.merge hv hw

theorem describes_merge {kind : AggregateKind} {a b : kind.Accumulator}
    (ha : Describes calls ext_map kind xs a) (hb : Describes calls ext_map kind ys b) :
    Describes calls ext_map kind (xs ++ ys) (GroupAccumulator.merge walk kind a b) := by
  induction kind using AggregateKind.Accumulator.induct generalizing xs ys with
  | case1 =>
    obtain rfl : a = xs.length.toUInt64 := ha
    obtain rfl : b = ys.length.toUInt64 := hb
    change xs.length.toUInt64 + ys.length.toUInt64 = (xs ++ ys).length.toUInt64
    rw [List.length_append, count_append]
  | case2 field =>
    obtain rfl : a = stats_of (extract_value field ·.record) xs := ha
    obtain rfl : b = stats_of (extract_value field ·.record) ys := hb
    exact (stats_of_append _ xs ys).symm
  | case3 field top => exact GroupsDescribe.merge ha hb
  | case4 field top spec => exact ⟨GroupsDescribe.merge ha.1 hb.1, heaps_merge ha.2 hb.2⟩
  | case5 field => exact BucketsDescribe.merge ha hb (Nat.zero_le _)
  | case6 field boundaries => exact BucketsDescribe.merge ha hb (Nat.le_refl _)
  | case7 field calendar => exact GroupsDescribe.merge ha hb
  | case8 field =>
    obtain rfl : a = (xs.countP (is_missing field ·.record)).toUInt64 := ha
    obtain rfl : b = (ys.countP (is_missing field ·.record)).toUInt64 := hb
    change (xs.countP _).toUInt64 + (ys.countP _).toUInt64 = ((xs ++ ys).countP _).toUInt64
    rw [List.countP_append, count_append]
  | case9 field => exact DistinctDescribes.merge ha hb
  | case10 mode top => exact GroupsDescribe.merge ha hb
  | case11 mode top sub ih =>
    refine ⟨GroupsDescribe.merge ha.1 hb.1, ?_⟩
    exact Grouped.merge ha.2 hb.2 (walk.perm b.2) fun xs ys v w hv hw => ih hv hw
  | case12 keys verify sample max_groups => exact DuplicatesDescribe.merge ha hb

/-- Whatever is fed and merged, each accumulator describes what was fed. -/
theorem describes_kept (walk : WalkOrder) (calls : Calls) (ext_map : ExtensionMap) :
    Kept walk calls ext_map (Describes calls ext_map) where
  fresh := describes_fresh
  feed _ _ _ e h := describes_feed h e
  merge _ _ _ _ _ := describes_merge

end keeping

end uffs.aggregate
