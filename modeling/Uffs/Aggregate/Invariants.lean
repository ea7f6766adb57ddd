import Uffs.Aggregate.Engine

open uffs.lib uffs.compact

namespace uffs.aggregate

/-! What holds of each accumulator and is kept by a feed and by a merge holds of every scan. -/

variable {drives : List DriveCompactIndex}

section kept

variable (walk : WalkOrder) (calls : Calls) (ext_map : ExtensionMap)
  (holds : (kind : AggregateKind) → List Fed → kind.Accumulator → Prop)

/-- A statement about an accumulator and what was fed to it, kept by all that happens to accumulators. -/
structure Kept : Prop where
  fresh : ∀ kind, holds kind [] (GroupAccumulator.from_kind kind)
  feed : ∀ kind seen acc fed, holds kind seen acc →
    holds kind (seen ++ [fed]) (GroupAccumulator.feed walk calls ext_map kind acc fed)
  merge : ∀ kind xs ys a b, holds kind xs a → holds kind ys b →
    holds kind (xs ++ ys) (GroupAccumulator.merge walk kind a b)

/-- It holds of each accumulator of a plan. -/
def AllHold (seen : List Fed) : (specs : List AggregateSpec) → Accumulators specs → Prop
  | [], () => True
  | spec :: rest, (acc, accs) => holds spec.kind seen acc ∧ AllHold seen rest accs

variable {walk calls ext_map holds}

theorem Kept.create (h : Kept walk calls ext_map holds) (specs : List AggregateSpec) :
    AllHold holds [] specs (.create_accumulators specs) := by
  induction specs with
  | nil => trivial
  | cons spec rest ih => exact ⟨h.fresh spec.kind, ih⟩

variable {specs : List AggregateSpec}

theorem Kept.feed_set (h : Kept walk calls ext_map holds) {seen : List Fed} {accs : Accumulators specs}
    (hall : AllHold holds seen specs accs) (fed : Fed) :
    AllHold holds (seen ++ [fed]) specs (Accumulators.feed walk calls ext_map specs accs fed) := by
  induction specs with
  | nil => trivial
  | cons spec rest ih =>
    obtain ⟨acc, accs⟩ := accs
    exact ⟨h.feed spec.kind seen acc fed hall.1, ih hall.2⟩

theorem Kept.merge_set (h : Kept walk calls ext_map holds) {xs ys : List Fed} {a b : Accumulators specs}
    (ha : AllHold holds xs specs a) (hb : AllHold holds ys specs b) :
    AllHold holds (xs ++ ys) specs (Accumulators.merge_accumulator_sets walk specs a b) := by
  induction specs with
  | nil => trivial
  | cons spec rest ih =>
    obtain ⟨a, lefts⟩ := a
    obtain ⟨b, rights⟩ := b
    exact ⟨h.merge spec.kind xs ys a b ha.1 hb.1, ih ha.2 hb.2⟩

theorem Kept.feed_foldl (h : Kept walk calls ext_map holds) {seen : List Fed} {accs : Accumulators specs}
    (hall : AllHold holds seen specs accs) (fed : List Fed) :
    AllHold holds (seen ++ fed) specs (fed.foldl (Accumulators.feed walk calls ext_map specs) accs) := by
  induction fed generalizing seen accs with
  | nil => rwa [List.append_nil]
  | cons head rest ih =>
    have hnext := ih (h.feed_set hall head)
    rwa [List.append_assoc, List.singleton_append] at hnext

/-- The specification and the accumulator behind a result. -/
theorem AllHold.of_mem_finalize_all {seen : List Fed} {accs : Accumulators specs} (hall : AllHold holds seen specs accs) {options : FinalizeOptions} {total_matched total_bytes : UInt64}
    {result : AggregateResult}
    (hmem : result ∈ finalize_all walk calls drives ext_map options total_matched total_bytes specs accs) :
    ∃ spec ∈ specs, ∃ acc, holds spec.kind seen acc ∧ result =
      ⟨spec.label, finalize_one walk calls drives ext_map options total_matched total_bytes spec.kind acc⟩ := by
  induction specs with
  | nil => cases hmem
  | cons spec rest ih =>
    obtain ⟨acc, accs⟩ := accs
    rcases List.mem_cons.mp hmem with rfl | hlater
    · exact ⟨spec, List.mem_cons_self, acc, hall.1, rfl⟩
    · obtain ⟨spec', hspec, found⟩ := ih hall.2 hlater
      exact ⟨spec', List.mem_cons_of_mem _ hspec, found⟩

end kept

section scans

variable {runtime : Runtime} {calls : Calls} {holds : (kind : AggregateKind) → List Fed → kind.Accumulator → Prop}

theorem Kept.feed_all {ext_map : ExtensionMap} (h : Kept runtime.walk calls ext_map holds) (specs : List AggregateSpec)
    (fed : List Fed) : AllHold holds fed specs (aggregate.feed_all runtime calls ext_map specs fed) :=
  h.feed_foldl (h.create specs) fed

/-- The records a scan feeds, drive by drive. -/
def scanned_records (drives : List DriveCompactIndex) (scope : Scope) : List Fed :=
  drives.zipIdx.flatMap (selected_records scope)

/-- A parallel scan has fed the records of all drives, whatever the tree of its joins. -/
theorem Kept.scan_drives (h : Kept runtime.walk calls (.build drives) holds)
    (specs : List AggregateSpec) (scope : Scope) :
    AllHold holds (scanned_records drives scope) specs (scan_drives runtime calls drives specs scope).accumulators := by
  let P : List (DriveCompactIndex × Nat) → DriveScan specs → Prop := fun parts scan =>
    AllHold holds (parts.flatMap (selected_records scope)) specs scan.accumulators
  have hneutral : P [] ⟨.create_accumulators specs, 0, 0⟩ := h.create specs
  have hpart : ∀ item, P [item] (scan_drive runtime calls (.build drives) specs scope item) := by
    intro item
    simp only [P, List.flatMap_singleton]
    exact h.feed_all specs _
  have hjoin : ∀ {xs ys a b}, P xs a → P ys b → P (xs ++ ys) (merge_scans runtime specs a b) := by
    intro xs ys a b ha hb
    simp only [P, List.flatMap_append]
    exact h.merge_set ha hb
  have hrun := Reduction.run_induct hneutral hpart hjoin (runtime.rayon.tree drives.zipIdx)
  rwa [runtime.rayon.items] at hrun

theorem mem_selected_records {scope : Scope} {entry : DriveCompactIndex × Nat} {fed : Fed}
    (h : fed ∈ selected_records scope entry) :
    fed.drive = entry.1 ∧ fed.drive_ordinal = drive_ordinal entry.2 ∧ entry.1.records[fed.idx]? = some fed.record := by
  unfold selected_records at h
  split at h
  · cases h
  · obtain ⟨⟨record, idx⟩, hmem, rfl⟩ := List.mem_map.mp (List.mem_filter.mp h).1
    exact ⟨rfl, rfl, List.mk_mem_zipIdx_iff_getElem?.mp hmem⟩

/-- A record that was scanned stands on the drive at some position, under that position's ordinal. -/
theorem mem_scanned_records {scope : Scope} {fed : Fed} (h : fed ∈ scanned_records drives scope) :
    ∃ position, drives[position]? = some fed.drive ∧ fed.drive_ordinal = drive_ordinal position ∧
      fed.drive.records[fed.idx]? = some fed.record := by
  obtain ⟨⟨drive, position⟩, hentry, hfed⟩ := List.mem_flatMap.mp h
  obtain ⟨hdrive, hordinal, hrecord⟩ := mem_selected_records hfed
  refine ⟨position, ?_, hordinal, hdrive ▸ hrecord⟩
  rw [hdrive]
  exact List.mk_mem_zipIdx_iff_getElem?.mp hentry

end scans

end uffs.aggregate
