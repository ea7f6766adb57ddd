import Uffs.Usn.Apply

open uffs.bloom uffs.compact

namespace uffs.usn

/-- State of the parent-first ordering: creates already emitted, output, and waiting changes. -/
structure Ordered where
  applied_creates : List UInt64 := []
  out : List FileChange := []
  deferred : List FileChange := []

def Ordered.emit (self : Ordered) (change : FileChange) : Ordered :=
  { self with
    applied_creates := if change.created then change.frs :: self.applied_creates else self.applied_creates
    out := self.out ++ [change] }

/-- First pass: a change waits while its parent is created in this batch but not emitted yet. -/
def order_step (batch_creates : List UInt64) (state : Ordered) (change : FileChange) : Ordered :=
  let waits_for_parent := (change.created || change.renamed) && change.parent_frs != change.frs
    && batch_creates.contains change.parent_frs && !state.applied_creates.contains change.parent_frs
  if waits_for_parent then { state with deferred := state.deferred ++ [change] } else state.emit change

/-- One release pass over the waiting changes. -/
def release_step (state : Ordered) (change : FileChange) : Ordered :=
  if state.applied_creates.contains change.parent_frs then state.emit change
  else { state with deferred := state.deferred ++ [change] }

/-- Release passes until nothing waits; a pass without progress emits the rest as it is. -/
def release_deferred : Nat → Ordered → Ordered
  | 0, state => state
  | fuel + 1, state =>
    if state.deferred.isEmpty then state
    else
      let next := state.deferred.foldl release_step { state with deferred := [] }
      if next.deferred.length = state.deferred.length then
        { next with out := next.out ++ next.deferred, deferred := [] }
      else release_deferred fuel next

def order_parent_first (changes : List FileChange) : List FileChange :=
  let batch_creates := (changes.filter (·.created)).map (·.frs)
  let state := changes.foldl (order_step batch_creates) {}
  (release_deferred (state.deferred.length + 1) state).out

def FULL_PATH_RECOMPUTE_THRESHOLD : Nat := 50000

/-- Overlay or rebuild the tables, then refresh the path lengths. -/
def rebuild_derived (drive : DriveCompactIndex) (path_changes : List PathChange) (tombstones : List UInt32) :
    DriveCompactIndex :=
  let overlaid := (drive.apply_index_delta path_changes tombstones).1
  if path_changes.length > FULL_PATH_RECOMPUTE_THRESHOLD then
    { overlaid with records := compute_path_lengths overlaid.records overlaid.names }
  else
    { overlaid with records :=
        update_path_lengths_incremental overlaid.records overlaid.names overlaid.children overlaid.delta path_changes }

/-- The mutation loop over the ordered batch. -/
def run_changes (env : Env) (drive : DriveCompactIndex) (ordered : List FileChange) : Patch :=
  ordered.foldl (apply_change env) { drive := drive }

def apply_usn_patch (env : Env) (drive : DriveCompactIndex) (changes : List FileChange) :
    DriveCompactIndex × PatchStats :=
  let patch := run_changes env drive (order_parent_first changes)
  (rebuild_derived patch.drive patch.path_changes patch.tombstones, patch.stats)

theorem Ordered.foldl_release_perm (changes : List FileChange) (state : Ordered) :
    let next := changes.foldl release_step state
    (next.out ++ next.deferred).Perm (state.out ++ state.deferred ++ changes) := by
  induction changes generalizing state with
  | nil => simp
  | cons change changes ih =>
    refine (ih (release_step state change)).trans ?_
    unfold release_step Ordered.emit
    split
    · simp only [List.append_assoc]
      refine List.Perm.append_left state.out ?_
      exact (List.perm_append_comm_assoc [change] state.deferred changes)
    · simp only [List.append_assoc]
      exact List.Perm.refl _

theorem release_deferred_perm {fuel : Nat} {state : Ordered} (hfuel : state.deferred.length < fuel) :
    (release_deferred fuel state).out.Perm (state.out ++ state.deferred) := by
  induction fuel generalizing state with
  | zero => omega
  | succ fuel ih =>
    rw [release_deferred]
    split
    next hempty => rw [List.isEmpty_iff.mp hempty, List.append_nil]
    next hsome =>
      have hperm := Ordered.foldl_release_perm state.deferred { state with deferred := [] }
      simp only [List.append_nil] at hperm
      dsimp only
      split
      · exact hperm
      next hprogress =>
        refine (ih ?_).trans hperm
        have hout : ∀ (changes : List FileChange) (s : Ordered),
            s.deferred.length + changes.length ≥ (changes.foldl release_step s).deferred.length := by
          intro changes
          induction changes with
          | nil => intro s; simp
          | cons change changes ihc =>
            intro s
            have hstep := ihc (release_step s change)
            have hone : (release_step s change).deferred.length ≤ s.deferred.length + 1 := by
              unfold release_step Ordered.emit
              split <;> simp
            rw [List.foldl_cons, List.length_cons]
            omega
        have hbound := hout state.deferred { state with deferred := [] }
        simp only [List.length_nil, Nat.zero_add] at hbound
        omega

/-- The ordering only permutes the batch: no change is lost or applied twice. -/
theorem order_parent_first_perm (changes : List FileChange) : (order_parent_first changes).Perm changes := by
  have hfirst : ∀ (batch : List UInt64) (list : List FileChange) (state : Ordered),
      let next := list.foldl (order_step batch) state
      (next.out ++ next.deferred).Perm (state.out ++ state.deferred ++ list) := by
    intro batch list
    induction list with
    | nil => intro state; simp
    | cons change list ih =>
      intro state
      refine (ih (order_step batch state change)).trans ?_
      unfold order_step Ordered.emit
      dsimp only
      split
      · simp only [List.append_assoc]
        exact List.Perm.refl _
      · simp only [List.append_assoc]
        exact List.Perm.append_left state.out (List.perm_append_comm_assoc [change] state.deferred list)
  unfold order_parent_first
  refine (release_deferred_perm (Nat.lt_succ_self _)).trans ?_
  simpa using hfirst ((changes.filter (·.created)).map (·.frs)) changes {}

/-- A batch in which nothing lies below a file it creates keeps its order. -/
theorem order_parent_first_eq_self {changes : List FileChange}
    (h : ∀ change ∈ changes, change.parent_frs ∉ (changes.filter (·.created)).map (·.frs)) :
    order_parent_first changes = changes := by
  have hrun : ∀ (batch : List UInt64) (list : List FileChange) (state : Ordered),
      (∀ change ∈ list, change.parent_frs ∉ batch) → state.deferred = [] →
      (list.foldl (order_step batch) state).out = state.out ++ list ∧
        (list.foldl (order_step batch) state).deferred = [] := by
    intro batch list
    induction list with
    | nil => exact fun state _ hdeferred => ⟨(List.append_nil _).symm, hdeferred⟩
    | cons change list ih =>
      intro state hparents hdeferred
      have hstep : order_step batch state change = state.emit change := by
        have hparent := hparents change List.mem_cons_self
        simp [order_step, hparent]
      obtain ⟨hout, hnone⟩ := ih (state.emit change) (fun ch hch => hparents ch (List.mem_cons_of_mem _ hch)) hdeferred
      rw [List.foldl_cons, hstep]
      refine ⟨hout.trans ?_, hnone⟩
      rw [Ordered.emit, List.append_assoc, List.singleton_append]
  obtain ⟨hout, hnone⟩ := hrun ((changes.filter (·.created)).map (·.frs)) changes {} h rfl
  unfold order_parent_first
  dsimp only
  rw [release_deferred, hnone, List.isEmpty_nil, if_pos rfl, hout, List.nil_append]

end uffs.usn
