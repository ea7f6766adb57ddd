import Uffs.Aggregate.PartitionFree
import Mathlib.Algebra.Order.BigOperators.Group.List

open uffs.lib uffs.mft uffs.text uffs.compact
open uffs.daemon (FieldId)
open uffs.search (DisplayRow Render build_row bulkiness_for_row tree_allocated_for_row)

namespace uffs.aggregate

/-! The statistics of a field beside what the rows show for it. -/

/-- A number that a row shows. -/
def projected_value (row : DisplayRow) (field : FieldId) : Int :=
  match field with
  | .Size => row.size.toNat
  | .SizeOnDisk => row.allocated.toNat
  | .Created => row.created.toInt
  | .Modified => row.modified.toInt
  | .Accessed => row.accessed.toInt
  | .Descendants => row.descendants.toNat
  | .TreeSize => row.treesize.toNat
  | .TreeAllocated => (tree_allocated_for_row row).toNat
  | .Bulkiness => (bulkiness_for_row row).toNat
  | .NameLength => row.name.length
  | .PathLength => row.path.length
  | _ => 0

def Fed.row (render : Render) (fed : Fed) : DisplayRow := build_row fed.drive fed.idx.toUInt32 fed.record render

section totals

variable (value : Fed → UInt64)

theorem stats_of_count (fed : List Fed) : (stats_of value fed).count.toNat = fed.length % 2 ^ 64 := by
  induction fed using List.reverseRecOn with
  | nil => rfl
  | append_singleton fed e ih =>
    rw [stats_of_append_singleton, StatsAccumulator.feed_value, UInt64.toNat_add, ih, List.length_append, List.length_singleton]
    exact Nat.mod_add_mod _ _ _

theorem stats_of_sum (fed : List Fed) :
    (stats_of value fed).sum.toNat = (fed.map fun e => (value e).toNat).sum % 2 ^ 64 := by
  induction fed using List.reverseRecOn with
  | nil => rfl
  | append_singleton fed e ih =>
    rw [stats_of_append_singleton, StatsAccumulator.feed_value, UInt64.toNat_add, ih, List.map_append, List.sum_append,
      List.map_singleton, List.sum_singleton]
    exact Nat.mod_add_mod _ _ _

theorem values_append (first : UInt64) (fed : List Fed) (e : Fed) :
    {v | v ∈ first :: (fed ++ [e]).map value} = insert (value e) {v | v ∈ first :: fed.map value} := by
  ext v
  simp only [List.map_append, List.map_singleton, List.mem_cons, List.mem_append, List.not_mem_nil, or_false, Set.mem_ofPred_eq,
    Set.mem_insert_iff]
  tauto

/-- Over the values fed and the one that a fresh accumulator starts from. -/
theorem stats_of_min (fed : List Fed) : IsLeast {v | v ∈ 0xFFFFFFFFFFFFFFFF :: fed.map value} (stats_of value fed).min := by
  induction fed using List.reverseRecOn with
  | nil => exact ⟨List.mem_singleton.mpr rfl, fun v hv => (List.mem_singleton.mp hv).ge⟩
  | append_singleton fed e ih =>
    have hmin : (stats_of value (fed ++ [e])).min = min (value e) (stats_of value fed).min := by
      rw [stats_of_append_singleton, StatsAccumulator.feed_value]
      by_cases hlt : value e < (stats_of value fed).min
      · rw [min_eq_left hlt.le]
        exact if_pos hlt
      · rw [min_eq_right (not_lt.mp hlt)]
        exact if_neg hlt
    rw [hmin, values_append]
    exact ih.insert (value e)

theorem stats_of_max (fed : List Fed) : IsGreatest {v | v ∈ 0 :: fed.map value} (stats_of value fed).max := by
  induction fed using List.reverseRecOn with
  | nil => exact ⟨List.mem_singleton.mpr rfl, fun v hv => (List.mem_singleton.mp hv).le⟩
  | append_singleton fed e ih =>
    have hmax : (stats_of value (fed ++ [e])).max = max (value e) (stats_of value fed).max := by
      rw [stats_of_append_singleton, StatsAccumulator.feed_value]
      by_cases hlt : (stats_of value fed).max < value e
      · rw [max_eq_left hlt.le]
        exact if_pos hlt
      · rw [max_eq_right (not_lt.mp hlt)]
        exact if_neg hlt
    rw [hmax, values_append]
    exact ih.insert (value e)

end totals

/-- How an accumulator comes about: records fed one after the other, and accumulators put together. -/
inductive Scan where
  | new
  | feed (scan : Scan) (fed : Fed)
  | merge (left right : Scan)

namespace Scan

def records : Scan → List Fed
  | new => []
  | feed scan fed => scan.records ++ [fed]
  | merge left right => left.records ++ right.records

/-- Every accumulator on the way, the last one included. -/
def parts : Scan → List Scan
  | new => [new]
  | feed scan fed => feed scan fed :: scan.parts
  | merge left right => merge left right :: (left.parts ++ right.parts)

variable (walk : WalkOrder) (calls : Calls) (ext_map : ExtensionMap) (field : FieldId)

def accumulator : Scan → (AggregateKind.Stats field).Accumulator
  | new => GroupAccumulator.from_kind (.Stats field)
  | feed scan fed => GroupAccumulator.feed walk calls ext_map (.Stats field) (accumulator scan) fed
  | merge left right => GroupAccumulator.merge walk (.Stats field) (accumulator left) (accumulator right)

/-- What is reported of an accumulator. -/
def result (scan : Scan) : StatsResult := .of_stats (scan.accumulator walk calls ext_map field)

theorem accumulator_eq (scan : Scan) :
    scan.accumulator walk calls ext_map field = stats_of (extract_value field ·.record) scan.records := by
  induction scan with
  | new => rfl
  | feed scan fed ih =>
    rw [accumulator, ih, records, stats_of_append_singleton]
    rfl
  | merge left right ihl ihr =>
    rw [accumulator, ihl, ihr, records, stats_of_append]
    rfl

theorem self_mem_parts (scan : Scan) : scan ∈ scan.parts := by
  cases scan <;> exact List.mem_cons_self

theorem parts_sublist {scan part : Scan} (h : part ∈ scan.parts) : part.records.Sublist scan.records := by
  induction scan with
  | new => rw [List.mem_singleton.mp h]
  | feed scan fed ih =>
    rcases List.mem_cons.mp h with rfl | h
    · exact List.Sublist.refl _
    · exact (ih h).trans (List.sublist_append_left _ _)
  | merge left right ihl ihr =>
    rcases List.mem_cons.mp h with rfl | h
    · exact List.Sublist.refl _
    rcases List.mem_append.mp h with h | h
    · exact (ihl h).trans (List.sublist_append_left _ _)
    · exact (ihr h).trans (List.sublist_append_right _ _)

end Scan

/-- The statistics of some numbers. -/
structure StatsResult.Describes (result : StatsResult) (values : List Int) : Prop where
  count : (result.count.toNat : Int) = values.length
  sum : (result.sum.toNat : Int) = values.sum
  min : values ≠ [] → IsLeast {v | v ∈ values} (result.min.toNat : Int)
  max : values ≠ [] → IsGreatest {v | v ∈ values} (result.max.toNat : Int)

section agreement

variable (render : Render)

/-- The number fed of a record is the one its row shows, its path resolved for the record alone. -/
def Agrees (field : FieldId) (fed : Fed) : Prop :=
  let row := fed.row render
  match field with
  | .Created => 0 ≤ fed.record.created
  | .Modified => 0 ≤ fed.record.modified
  | .Accessed => 0 ≤ fed.record.accessed
  | .TreeAllocated => row.is_directory = true ∨ fed.record.allocated = fed.record.tree_allocated
  | .Bulkiness => bulkiness_for_row row = 0
  | .NameLength => row.name.length = fed.record.name_len.toNat
  | .PathLength => row.path.length = fed.record.path_len.toNat
  | _ => True

theorem toNat_nonneg_to_u64 (value : Int64) : value.toInt = (nonneg_to_u64 value).toNat ↔ 0 ≤ value := by
  rw [nonneg_to_u64]
  by_cases hneg : value < 0
  · have hint := Int64.lt_iff_toInt_lt.mp hneg
    rw [if_pos hneg]
    refine iff_of_false (fun h => ?_) (Int64.not_le.mpr hneg)
    rw [h] at hint
    exact absurd hint (by decide)
  · have hle := Int64.not_lt.mp hneg
    have hint := Int64.le_iff_toInt_le.mp hle
    rw [if_neg hneg, Int64.toNat_toUInt64_of_le hle]
    exact iff_of_true (Int.toNat_of_nonneg hint).symm hle

theorem projected_eq_iff (field : FieldId) (fed : Fed) :
    projected_value (fed.row render) field = ((extract_value field fed.record).toNat : Int) ↔ Agrees render field fed := by
  cases field
  case Created => exact toNat_nonneg_to_u64 fed.record.created
  case Modified => exact toNat_nonneg_to_u64 fed.record.modified
  case Accessed => exact toNat_nonneg_to_u64 fed.record.accessed
  case TreeAllocated =>
    show ((tree_allocated_for_row (fed.row render)).toNat : Int) = fed.record.tree_allocated.toNat ↔ _
    rw [Int.natCast_inj, UInt64.toNat_inj, tree_allocated_for_row, Agrees]
    by_cases hdir : (fed.row render).is_directory = true
    · exact iff_of_true (if_pos hdir) (.inl hdir)
    · rw [if_neg hdir]
      exact (or_iff_right hdir).symm
  case Bulkiness =>
    show ((bulkiness_for_row (fed.row render)).toNat : Int) = (0 : UInt64).toNat ↔ _
    rw [Int.natCast_inj, UInt64.toNat_inj]
    exact Iff.rfl
  case NameLength => exact Int.natCast_inj
  case PathLength => exact Int.natCast_inj
  all_goals exact iff_of_true rfl trivial

end agreement

/-- What keeps every accumulator of a scan exact. -/
structure Scan.Fits (render : Render) (field : FieldId) (scan : Scan) : Prop where
  agrees : ∀ fed ∈ scan.records, Agrees render field fed
  count : scan.records.length < 2 ^ 64
  sum : (scan.records.map fun fed => (extract_value field fed.record).toNat).sum < 2 ^ 64
  /-- The largest number, where it is the only one so far, is taken for no number at all. -/
  least : ∀ part ∈ scan.parts, part.records.map (extract_value field ·.record) ≠ [0xFFFFFFFFFFFFFFFF]

section exactness

variable {render : Render} {field : FieldId}

theorem cast_values (value : Fed → UInt64) (fed : List Fed) :
    (fed.map fun e => ((value e).toNat : Int)).sum = ((fed.map fun e => (value e).toNat).sum : Nat) := by
  induction fed with
  | nil => rfl
  | cons e fed ih => rw [List.map_cons, List.sum_cons, ih, List.map_cons, List.sum_cons, Nat.cast_add]

theorem cast_map (value : Fed → UInt64) (fed : List Fed) :
    (fed.map fun e => ((value e).toNat : Int)) = (fed.map value).map fun v => (v.toNat : Int) := by
  rw [List.map_map]
  rfl

/-- Only one record of the largest number keeps the sum in 64 bits. -/
theorem min_lt_top {fed : List Fed} {value : Fed → UInt64} (hsome : fed ≠ [])
    (hsum : (fed.map fun e => (value e).toNat).sum < 2 ^ 64) (hleast : fed.map value ≠ [0xFFFFFFFFFFFFFFFF]) :
    (stats_of value fed).min ≠ 0xFFFFFFFFFFFFFFFF := by
  intro htop
  have hall : ∀ e ∈ fed, value e = 0xFFFFFFFFFFFFFFFF := by
    intro e he
    have hle := (stats_of_min value fed).2 (List.mem_cons_of_mem _ (List.mem_map_of_mem he))
    rw [htop, UInt64.le_iff_toNat_le] at hle
    have hlt := (value e).toNat_lt
    apply UInt64.toNat_inj.mp
    exact le_antisymm (Nat.le_of_lt_succ hlt) hle
  cases fed with
  | nil => exact hsome rfl
  | cons e fed =>
    cases fed with
    | nil =>
      apply hleast
      rw [List.map_singleton, hall e List.mem_cons_self]
    | cons e' fed =>
      rw [List.map_cons, List.map_cons, List.sum_cons, List.sum_cons, hall e List.mem_cons_self,
        hall e' (List.mem_cons_of_mem _ List.mem_cons_self)] at hsum
      simp only [UInt64.reduceToNat] at hsum
      omega

theorem result_of_fits {fed : List Fed} {value : Fed → UInt64} (hcount : fed.length < 2 ^ 64)
    (hsum : (fed.map fun e => (value e).toNat).sum < 2 ^ 64) (hleast : fed.map value ≠ [0xFFFFFFFFFFFFFFFF]) :
    (StatsResult.of_stats (stats_of value fed)).Describes (fed.map fun e => ((value e).toNat : Int)) := by
  constructor
  · rw [List.length_map]
    exact congrArg Int.ofNat ((stats_of_count value fed).trans (Nat.mod_eq_of_lt hcount))
  · rw [cast_values]
    exact congrArg Int.ofNat ((stats_of_sum value fed).trans (Nat.mod_eq_of_lt hsum))
  · intro hsome
    have hne : fed ≠ [] := fun h => hsome (congrArg _ h)
    have htop := min_lt_top hne hsum hleast
    have hmin : (StatsResult.of_stats (stats_of value fed)).min = (stats_of value fed).min := if_neg htop
    obtain ⟨hmem, hle⟩ := stats_of_min value fed
    rw [hmin, cast_map]
    constructor
    · exact List.mem_map.mpr ⟨_, (List.mem_cons.mp hmem).resolve_left htop, rfl⟩
    · intro v hv
      obtain ⟨w, hw, rfl⟩ := List.mem_map.mp hv
      exact Int.ofNat_le.mpr (UInt64.le_iff_toNat_le.mp (hle (List.mem_cons_of_mem _ hw)))
  · intro hsome
    obtain ⟨hmem, hge⟩ := stats_of_max value fed
    have hin : (stats_of value fed).max ∈ fed.map value := by
      rcases List.mem_cons.mp hmem with hzero | hmem
      · obtain ⟨e, he⟩ := List.exists_mem_of_ne_nil fed fun h => hsome (congrArg _ h)
        have hv : value e ∈ fed.map value := List.mem_map_of_mem he
        have hle : value e ≤ 0 := hzero ▸ hge (List.mem_cons_of_mem _ hv)
        rwa [hzero, ← UInt64.le_antisymm hle UInt64.zero_le]
      · exact hmem
    rw [cast_map]
    constructor
    · exact List.mem_map.mpr ⟨_, hin, rfl⟩
    · intro v hv
      obtain ⟨w, hw, rfl⟩ := List.mem_map.mp hv
      exact Int.ofNat_le.mpr (UInt64.le_iff_toNat_le.mp (hge (List.mem_cons_of_mem _ hw)))

variable {walk : WalkOrder} {calls : Calls} {ext_map : ExtensionMap}

/-- What the rows show for the records of a scan. -/
def Scan.shown (render : Render) (field : FieldId) (scan : Scan) : List Int :=
  scan.records.map fun fed => projected_value (fed.row render) field

theorem Scan.shown_eq {scan : Scan} (h : ∀ fed ∈ scan.records, Agrees render field fed) :
    scan.shown render field = scan.records.map fun fed => ((extract_value field fed.record).toNat : Int) :=
  List.map_congr_left fun fed hfed => (projected_eq_iff render field fed).mpr (h fed hfed)

theorem Scan.Fits.part {scan part : Scan} (h : scan.Fits render field) (hpart : part ∈ scan.parts) :
    (part.result walk calls ext_map field).Describes (part.shown render field) := by
  have hsub := Scan.parts_sublist hpart
  rw [Scan.shown_eq fun fed hfed => h.agrees fed (hsub.subset hfed), Scan.result, Scan.accumulator_eq]
  exact result_of_fits (hsub.length_le.trans_lt h.count)
    (((hsub.map _).sum_le_sum fun _ _ => Nat.zero_le _).trans_lt h.sum) (h.least part hpart)

/-- One more record: what the sums say of it is the number it shows. -/
theorem agrees_of_feed {scan : Scan} {fed : Fed} (hseen : ∀ e ∈ scan.records, Agrees render field e)
    (hbefore : (scan.result walk calls ext_map field).Describes (scan.shown render field))
    (hafter : ((scan.feed fed).result walk calls ext_map field).Describes ((scan.feed fed).shown render field)) :
    Agrees render field fed := by
  have hshown : (scan.feed fed).shown render field = scan.shown render field ++ [projected_value (fed.row render) field] :=
    List.map_append
  have hnonneg : 0 ≤ projected_value (fed.row render) field := by
    have hin : projected_value (fed.row render) field ∈ (scan.feed fed).shown render field := by
      rw [hshown]
      exact List.mem_append_right _ List.mem_cons_self
    exact (Int.natCast_nonneg _).trans ((hafter.min (List.ne_nil_of_mem hin)).2 hin)
  have hbefore := hbefore.sum
  have hafter := hafter.sum
  rw [hshown, List.sum_append, List.sum_singleton, Scan.shown_eq hseen, cast_values] at hafter
  rw [Scan.result, Scan.accumulator_eq, StatsResult.of_stats, stats_of_sum] at hbefore hafter
  rw [Scan.records, List.map_append, List.sum_append, List.map_singleton, List.sum_singleton] at hafter
  have hlt := (extract_value field fed.record).toNat_lt
  apply (projected_eq_iff render field fed).mp
  omega

theorem agrees_of_parts {scan : Scan}
    (h : ∀ part ∈ scan.parts, (part.result walk calls ext_map field).Describes (part.shown render field)) :
    ∀ fed ∈ scan.records, Agrees render field fed := by
  induction scan with
  | new => exact fun fed hfed => absurd hfed List.not_mem_nil
  | feed scan fed ih =>
    have hscan := ih fun part hpart => h part (List.mem_cons_of_mem _ hpart)
    intro e he
    rcases List.mem_append.mp he with he | he
    · exact hscan e he
    · rw [List.mem_singleton.mp he]
      exact agrees_of_feed hscan (h scan (List.mem_cons_of_mem _ scan.self_mem_parts)) (h _ List.mem_cons_self)
  | merge left right ihl ihr =>
    intro e he
    rcases List.mem_append.mp he with he | he
    · exact ihl (fun part hpart => h part (List.mem_cons_of_mem _ (List.mem_append_left _ hpart))) e he
    · exact ihr (fun part hpart => h part (List.mem_cons_of_mem _ (List.mem_append_right _ hpart))) e he

end exactness

/-- On every way to accumulate, the statistics after each step are those of the numbers the rows show exactly when the
numbers fed are the ones shown, and count and sum stay in 64 bits. -/
theorem stats_describe_iff (walk : WalkOrder) (calls : Calls) (ext_map : ExtensionMap) (render : Render)
    (field : FieldId) (scan : Scan) :
    (∀ part ∈ scan.parts, (part.result walk calls ext_map field).Describes (part.shown render field)) ↔
      scan.Fits render field := by
  constructor
  · intro h
    have hagrees := agrees_of_parts h
    have hself := h scan scan.self_mem_parts
    constructor
    · exact hagrees
    · have hcount := hself.count
      rw [Scan.shown, List.length_map] at hcount
      have := (scan.result walk calls ext_map field).count.toNat_lt
      omega
    · have hsum := hself.sum
      rw [Scan.shown_eq hagrees, cast_values] at hsum
      have := (scan.result walk calls ext_map field).sum.toNat_lt
      omega
    · intro part hpart htop
      have hpart_agrees : ∀ fed ∈ part.records, Agrees render field fed :=
        fun fed hfed => hagrees fed ((Scan.parts_sublist hpart).subset hfed)
      have hshown : part.shown render field = [((0xFFFFFFFFFFFFFFFF : UInt64).toNat : Int)] := by
        rw [Scan.shown_eq hpart_agrees, cast_map, htop]
        rfl
      have hleast := ((h part hpart).min (by rw [hshown]; exact List.cons_ne_nil _ _)).1
      have hmin := (stats_of_min (extract_value field ·.record) part.records).1
      rw [htop] at hmin
      have hzero : (part.result walk calls ext_map field).min = 0 := by
        rw [Scan.result, Scan.accumulator_eq]
        exact if_pos (by simpa using hmin)
      rw [hzero, hshown] at hleast
      exact absurd (List.mem_singleton.mp hleast) (by decide)
  · exact fun h part hpart => h.part hpart

section wrapped

/-- A file of the year 2022. -/
def dated_file : Fed where
  record := { size := 5, modified := 133000000000000000, name_len := 1, parent_idx := NO_ENTRY, path_len := 4 }
  drive := one_file_drive 'C' 0x61
  idx := 0
  drive_ordinal := 0

def Scan.repeated (fed : Fed) : Nat → Scan
  | 0 => new
  | n + 1 => feed (repeated fed n) fed

theorem Scan.repeated_records (fed : Fed) (n : Nat) : (repeated fed n).records = List.replicate n fed := by
  induction n with
  | zero => rfl
  | succ n ih => rw [repeated, records, ih, List.replicate_succ']

/-- The ticks of two hundred such files do not fit in 64 bits. -/
theorem stats_misdescribe :
    ¬ ∀ (walk : WalkOrder) (calls : Calls) (ext_map : ExtensionMap) (render : Render) (field : FieldId)
      (label : Option Str) (scan : Scan), validate_spec ⟨.Stats field, label⟩ = .ok () →
        (scan.result walk calls ext_map field).Describes (scan.shown render field) := by
  intro hclaim
  have hsum := (hclaim .forward no_calls ⟨[], []⟩ (fun _ => []) .Modified none (.repeated dated_file 200) rfl).sum
  have hlt := ((Scan.repeated dated_file 200).result .forward no_calls ⟨[], []⟩ .Modified).sum.toNat_lt
  have hshown : projected_value (dated_file.row fun _ => []) .Modified = 133000000000000000 := rfl
  rw [Scan.shown, Scan.repeated_records, List.map_replicate, List.sum_replicate, hshown, nsmul_eq_mul] at hsum
  omega

end wrapped

end uffs.aggregate
