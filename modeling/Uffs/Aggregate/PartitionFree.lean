import Uffs.Aggregate.PartitionOrder

open uffs.lib uffs.mft uffs.text uffs.compact
open uffs.daemon (FieldId)

namespace uffs.aggregate

/-! When an aggregation gives the same result however the records are split and the parts are merged. -/

/-- The records an aggregation reads, in drive order: each slot of a drive once, and no more than a counter holds. -/
structure ScannedRecords where
  fed : List Fed
  slots : (fed.map slot).Nodup
  few : fed.length < UInt64.size

/-- A way to split some records into chunks and to merge what comes of them, with the order in which maps are walked. -/
structure PartitionedRun (fed : List Fed) where
  walk : WalkOrder
  tree : Reduction (List Fed)
  covers : tree.items.flatten.Perm fed

section runs

variable (calls : Calls) (drives : List DriveCompactIndex) (plan : AggregatePlan) (options : FinalizeOptions)

/-- The scan of a chunk. -/
def scan_chunk (walk : WalkOrder) (chunk : List Fed) : DriveScan plan.specs where
  accumulators := feed_all ⟨walk, .sequential⟩ calls (.build drives) plan.specs chunk
  scanned := chunk.length.toUInt64
  matched := chunk.length.toUInt64

/-- The results of the chunks of a run, merged and finalized. -/
def PartitionedRun.results {fed : List Fed} (run : PartitionedRun fed) : List AggregateResult :=
  let scan := run.tree.run ⟨.create_accumulators plan.specs, 0, 0⟩ (scan_chunk calls drives plan run.walk)
    (merge_scans ⟨run.walk, .sequential⟩ plan.specs)
  finalize_with_ext_map run.walk calls drives (.build drives) plan.specs scan.accumulators options scan.matched

/-- The results of feeding all records to one accumulator of each kind. -/
def results_of_one (walk : WalkOrder) (fed : List Fed) : List AggregateResult :=
  finalize_with_ext_map walk calls drives (.build drives) plan.specs
    (feed_all ⟨walk, .sequential⟩ calls (.build drives) plan.specs fed) options fed.length.toUInt64

/-- A run has fed the records, however it cuts and joins them. -/
theorem PartitionedRun.describes {fed : List Fed} (run : PartitionedRun fed) :
    AllHold (Describes calls (.build drives)) run.tree.items.flatten plan.specs
        (run.tree.run ⟨.create_accumulators plan.specs, 0, 0⟩ (scan_chunk calls drives plan run.walk)
          (merge_scans ⟨run.walk, .sequential⟩ plan.specs)).accumulators ∧
      (run.tree.run ⟨.create_accumulators plan.specs, 0, 0⟩ (scan_chunk calls drives plan run.walk)
        (merge_scans ⟨run.walk, .sequential⟩ plan.specs)).matched = fed.length.toUInt64 := by
  have hkept := describes_kept run.walk calls (.build drives)
  let P : List (List Fed) → DriveScan plan.specs → Prop := fun chunks scan =>
    AllHold (Describes calls (.build drives)) chunks.flatten plan.specs scan.accumulators ∧
      scan.matched = chunks.flatten.length.toUInt64
  have hneutral : P [] ⟨.create_accumulators plan.specs, 0, 0⟩ := ⟨hkept.create plan.specs, rfl⟩
  have hpart : ∀ chunk, P [chunk] (scan_chunk calls drives plan run.walk chunk) := by
    intro chunk
    simp only [P, List.flatten_singleton]
    exact ⟨hkept.feed_foldl (hkept.create plan.specs) chunk, rfl⟩
  have hjoin : ∀ {xs ys a b}, P xs a → P ys b → P (xs ++ ys) (merge_scans ⟨run.walk, .sequential⟩ plan.specs a b) := by
    intro xs ys a b ha hb
    simp only [P, List.flatten_append, List.length_append]
    refine ⟨hkept.merge_set ha.1 hb.1, ?_⟩
    rw [merge_scans, ha.2, hb.2, count_append]
  obtain ⟨hall, hmatched⟩ := Reduction.run_induct hneutral hpart hjoin run.tree
  rw [run.covers.length_eq] at hmatched
  exact ⟨hall, hmatched⟩

variable {calls drives plan options}

/-- Where the records determine the results, each run gives them. -/
theorem PartitionedRun.results_eq {fed : List Fed} (run : PartitionedRun fed)
    (hdetermined : ∀ spec ∈ plan.specs, Determined calls drives (.build drives) fed.length.toUInt64
      (global_bytes plan.specs fed) options spec.kind fed) :
    run.results calls drives plan options = sequential_results calls drives (.build drives) fed.length.toUInt64
      (global_bytes plan.specs fed) options plan.specs fed := by
  obtain ⟨hall, hmatched⟩ := run.describes calls drives plan
  simp only [PartitionedRun.results, finalize_with_ext_map]
  rw [hmatched, compute_global_bytes_eq hall run.covers]
  exact finalize_all_eq hall run.covers hdetermined

/-- The accumulators of a plan are fed side by side. -/
theorem finalize_feed_all {ext_map : ExtensionMap} {total_matched total_bytes : UInt64} (specs : List AggregateSpec) (fed : List Fed) :
    finalize_all .forward calls drives ext_map options total_matched total_bytes specs
        (feed_all ⟨.forward, .sequential⟩ calls ext_map specs fed) =
      sequential_results calls drives ext_map total_matched total_bytes options specs fed := by
  induction specs with
  | nil => rfl
  | cons spec rest ih =>
    have hsplit : feed_all ⟨.forward, .sequential⟩ calls ext_map (spec :: rest) fed =
        (sequential calls ext_map spec.kind fed, feed_all ⟨.forward, .sequential⟩ calls ext_map rest fed) := by
      clear ih
      induction fed using List.reverseRecOn with
      | nil => rfl
      | append_singleton fed e ih =>
        simp only [feed_all, sequential, List.foldl_append, List.foldl_cons, List.foldl_nil] at ih ⊢
        rw [ih]
        rfl
    rw [hsplit]
    exact congrArg _ ih

/-- All records in one chunk, in some order. -/
def PartitionedRun.single {fed chunk : List Fed} (h : chunk.Perm fed) : PartitionedRun fed where
  walk := .forward
  tree := .part chunk
  covers := by
    simp only [Reduction.items, List.flatten_singleton]
    exact h

theorem PartitionedRun.results_single {fed chunk : List Fed} (h : chunk.Perm fed) :
    (PartitionedRun.single h).results calls drives plan options = sequential_results calls drives (.build drives)
      fed.length.toUInt64 (global_bytes plan.specs fed) options plan.specs chunk := by
  have hall : AllHold (Describes calls (.build drives)) chunk plan.specs
      (feed_all ⟨.forward, .sequential⟩ calls (.build drives) plan.specs chunk) :=
    Kept.feed_all (describes_kept _ _ _) plan.specs chunk
  have hbytes := compute_global_bytes_eq hall h
  simp only [PartitionedRun.results, PartitionedRun.single, Reduction.run, scan_chunk, finalize_with_ext_map]
  rw [hbytes, h.length_eq]
  exact finalize_feed_all plan.specs chunk

/-- However the records are split into chunks, merged and walked, the results are those of one
accumulator, exactly where the records determine each of them. Two runs of one chunk each show that they
must. -/
theorem results_independent_iff (calls : Calls) (drives : List DriveCompactIndex) (plan : AggregatePlan)
    (options : FinalizeOptions) (walk : WalkOrder) (records : ScannedRecords) :
    (∀ run : PartitionedRun records.fed, run.results calls drives plan options =
        results_of_one calls drives plan options walk records.fed) ↔
      ∀ spec ∈ plan.specs, Determined calls drives (.build drives) records.fed.length.toUInt64
        (global_bytes plan.specs records.fed) options spec.kind records.fed := by
  obtain ⟨fed, hslots, hfew⟩ := records
  constructor
  · intro h spec hspec
    -- Two runs over one chunk each differ in nothing but the order of the records.
    have hsame : ∀ xs ys : List Fed, xs.Perm fed → ys.Perm fed →
        sequential_data calls drives (.build drives) fed.length.toUInt64 (global_bytes plan.specs fed) options spec.kind xs =
          sequential_data calls drives (.build drives) fed.length.toUInt64 (global_bytes plan.specs fed) options spec.kind ys := by
      intro xs ys hxs hys
      have hresults := (h (.single hxs)).trans (h (.single hys)).symm
      rw [PartitionedRun.results_single, PartitionedRun.results_single] at hresults
      exact congrArg AggregateResult.data (List.map_inj_left.mp hresults spec hspec)
    obtain ⟨kind, label⟩ := spec
    cases kind with
    | Duplicates keys verify top_hits max_groups => exact duplicates_determined hslots hfew hsame
    | _ => exact rows_determined fun xs ys hxs hys => congrArg sub_result_to_bucket_rows (hsame xs ys hxs hys)
  · intro hdetermined run
    have hone : AllHold (Describes calls (.build drives)) fed plan.specs
        (feed_all ⟨walk, .sequential⟩ calls (.build drives) plan.specs fed) :=
      Kept.feed_all (describes_kept _ _ _) plan.specs fed
    rw [run.results_eq hdetermined, results_of_one, finalize_with_ext_map,
      compute_global_bytes_eq hone (List.Perm.refl fed)]
    exact (finalize_all_eq hone (List.Perm.refl fed) hdetermined).symm

/-- The run that a parallel scan of the drives makes. -/
def engine_run (runtime : Runtime) (drives : List DriveCompactIndex) (scope : Scope) :
    PartitionedRun (scanned_records drives scope) where
  walk := runtime.walk
  tree := (runtime.rayon.tree drives.zipIdx).map (selected_records scope)
  covers := by
    rw [Reduction.items_map, runtime.rayon.items]
    exact List.Perm.refl _

/-- The response of the engine is the one of its scans joined in order, whatever tree joins them. -/
theorem run_scoped_response (runtime : Runtime) (calls : Calls) (drives : List DriveCompactIndex) (plan : AggregatePlan)
    (options : FinalizeOptions) (scope : Scope) :
    (run_scoped runtime calls drives plan options scope).response =
      (engine_run runtime drives scope).results calls drives plan options := by
  have hsame : ∀ tree : Reduction (DriveCompactIndex × Nat),
      let scan := tree.run ⟨.create_accumulators plan.specs, 0, 0⟩ (scan_drive runtime calls (.build drives) plan.specs scope)
        (merge_scans runtime plan.specs)
      let chunked := (tree.map (selected_records scope)).run ⟨.create_accumulators plan.specs, 0, 0⟩
        (scan_chunk calls drives plan runtime.walk) (merge_scans ⟨runtime.walk, .sequential⟩ plan.specs)
      scan.accumulators = chunked.accumulators ∧ scan.matched = chunked.matched := by
    intro tree
    induction tree with
    | identity | part => exact ⟨rfl, rfl⟩
    | join left right ihleft ihright =>
      simp only [Reduction.map, Reduction.run, merge_scans, ihleft, ihright, and_self]
  obtain ⟨haccumulators, hmatched⟩ := hsame (runtime.rayon.tree drives.zipIdx)
  simp only [run_scoped, scan_drives, PartitionedRun.results, engine_run, haccumulators, hmatched]

/-- A parallel scan gives what one accumulator gives, where the scanned records determine it. -/
theorem run_scoped_eq_one {runtime : Runtime} {calls : Calls} {drives : List DriveCompactIndex} {plan : AggregatePlan}
    {options : FinalizeOptions} {scope : Scope}
    (hdetermined : ∀ spec ∈ plan.specs, Determined calls drives (.build drives)
      (scanned_records drives scope).length.toUInt64 (global_bytes plan.specs (scanned_records drives scope)) options
      spec.kind (scanned_records drives scope)) :
    (run_scoped runtime calls drives plan options scope).response = sequential_results calls drives (.build drives)
      (scanned_records drives scope).length.toUInt64 (global_bytes plan.specs (scanned_records drives scope)) options
      plan.specs (scanned_records drives scope) := by
  rw [run_scoped_response]
  exact (engine_run runtime drives scope).results_eq hdetermined

end runs

section tie

/-- A drive with one file of five bytes. -/
def one_file_drive (letter : Char) (name : UInt8) : DriveCompactIndex :=
  { bare_drive with
    letter := letter
    records := [{ size := 5, name_len := 1, parent_idx := NO_ENTRY, path_len := 4 }]
    names := [name]
    children := { offsets := [0, 0], values := [] }
    ext_index := { offsets := [0, 1], values := [0] } }

/-- C: with the file a, D: with the file x, both in slot 0. -/
def tied_drives : List DriveCompactIndex := [one_file_drive 'C' 0x61, one_file_drive 'D' 0x78]

def tied_records : ScannedRecords where
  fed := tied_drives.zipIdx.flatMap (selected_records unfiltered)
  slots := by decide
  few := by decide

/-- Files and directories, each with its largest record. -/
def largest_of_each : AggregatePlan where
  specs := [{ kind := .Terms .DirectoryFlag 10 (some { count := 1, projection := [.Name] }) }]
  valid := rfl

def no_calls : Calls := { hash_ext := fun _ => 0, hash_name := fun _ => 0, categories := [] }

def shown_samples : List AggregateResult → List (List SampleRow)
  | [⟨_, .Buckets _ rows _ _⟩] => rows.map BucketRow.sample_rows
  | _ => []

/-- Two files tie for the sample: fed the other way round, the other one is shown. -/
theorem results_depend_on_order :
    ¬ ∀ (calls : Calls) (drives : List DriveCompactIndex) (plan : AggregatePlan) (options : FinalizeOptions) (walk : WalkOrder)
      (records : ScannedRecords) (run : PartitionedRun records.fed),
      run.results calls drives plan options = results_of_one calls drives plan options walk records.fed := by
  intro hclaim
  have hresults := hclaim no_calls tied_drives largest_of_each {} .forward tied_records (.single (List.reverse_perm _))
  exact absurd (congrArg shown_samples hresults) (by decide)

end tie

end uffs.aggregate
