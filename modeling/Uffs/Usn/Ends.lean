import Uffs.Compact.PathShift
import Uffs.Usn.Exact

open uffs.lib uffs.mft uffs.text uffs.bloom uffs.compact

namespace uffs.usn

/-! The loops of a patch with the passes counted: `none` when `fuel` passes do not end a loop. -/

/-- Release passes until nothing waits or a pass makes no progress. -/
def release_deferred_within : Nat → Ordered → Option Ordered
  | 0, state => if state.deferred.isEmpty then some state else none
  | fuel + 1, state =>
    if state.deferred.isEmpty then some state
    else
      let next := state.deferred.foldl release_step { state with deferred := [] }
      if next.deferred.length = state.deferred.length then
        some { next with out := next.out ++ next.deferred, deferred := [] }
      else release_deferred_within fuel next

def order_parent_first_within (fuel : Nat) (changes : List FileChange) : Option (List FileChange) :=
  let batch_creates := (changes.filter (·.created)).map (·.frs)
  (release_deferred_within fuel (changes.foldl (order_step batch_creates) {})).map (·.out)

def path_len_bfs_within (names : List UInt8) : Nat → List UInt32 → List CompactRecord → Option (List CompactRecord)
  | _, [], records => some records
  | 0, _ :: _, _ => none
  | fuel + 1, idx :: queue, records =>
    path_len_bfs_within names fuel (queue ++ siblings_of records idx) (visit_children names records idx)

def compute_path_lengths_within (fuel : Nat) (records : List CompactRecord) (names : List UInt8) :
    Option (List CompactRecord) :=
  path_len_bfs_within names fuel (roots_of records) (seed_roots names records)

/-- The stack grows at its top, kept first. -/
def push_stack (new pending : List UInt32) : List UInt32 := new.reverse ++ pending

def shift_subtree_path_len_within (fuel : Nat) (records : List CompactRecord) (children : ChildrenIndex)
    (delta : Option IndexDelta) (root : UInt32) (shift : Int) : Option (List CompactRecord) :=
  (worklist.run push_stack (push_children records children delta) fuel
    (push_children records children delta root).reverse).map fun descendants =>
      descendants.foldl (shift_one shift) records

def refresh_path_len_within (fuel : Nat) (names : List UInt8) (children : ChildrenIndex) (delta : Option IndexDelta)
    (records : List CompactRecord) (change : PathChange) : Option (List CompactRecord) :=
  match records[change.idx.toNat]? with
  | none => some records
  | some rec =>
    if rec.name_len = 0 ∧ rec.parent_idx = NO_ENTRY then some records
    else
      let new_pl := path_len_from_parent records names change.idx
      let updated := set_path_len records change.idx (len_to_u16 new_pl)
      let shift : Int := new_pl - rec.path_len.toNat
      if change.subtree && shift != 0 then shift_subtree_path_len_within fuel updated children delta change.idx shift
      else some updated

def update_path_lengths_within (fuel : Nat) (records : List CompactRecord) (names : List UInt8) (children : ChildrenIndex)
    (delta : Option IndexDelta) (changed : List PathChange) : Option (List CompactRecord) :=
  changed.foldlM (refresh_path_len_within fuel names children delta) records

def rebuild_derived_within (fuel : Nat) (drive : DriveCompactIndex) (path_changes : List PathChange)
    (tombstones : List UInt32) : Option DriveCompactIndex :=
  let overlaid := (drive.apply_index_delta path_changes tombstones).1
  if path_changes.length > FULL_PATH_RECOMPUTE_THRESHOLD then
    (compute_path_lengths_within fuel overlaid.records overlaid.names).map fun records => { overlaid with records }
  else
    (update_path_lengths_within fuel overlaid.records overlaid.names overlaid.children overlaid.delta path_changes).map
      fun records => { overlaid with records }

def apply_usn_patch_within (env : Env) (fuel : Nat) (drive : DriveCompactIndex) (changes : List FileChange) :
    Option (DriveCompactIndex × PatchStats) := do
  let ordered ← order_parent_first_within fuel changes
  let patch := run_changes env drive ordered
  let rebuilt ← rebuild_derived_within fuel patch.drive patch.path_changes patch.tombstones
  some (rebuilt, patch.stats)

variable {fuel fuel' : Nat}

section ordering

theorem foldl_release_deferred_le (changes : List FileChange) (state : Ordered) :
    (changes.foldl release_step state).deferred.length ≤ state.deferred.length + changes.length := by
  induction changes generalizing state with
  | nil => exact Nat.le_refl _
  | cons change changes ih =>
    have hone : (release_step state change).deferred.length ≤ state.deferred.length + 1 := by
      unfold release_step Ordered.emit
      split <;> simp
    have hrest := ih (release_step state change)
    rw [List.foldl_cons, List.length_cons]
    omega

/-- Every pass but the last releases a change, so as many passes as changes wait are enough. -/
theorem release_deferred_within_eq {bound : Nat} {state : Ordered} (hfuel : state.deferred.length ≤ fuel)
    (hbound : state.deferred.length < bound) :
    release_deferred_within fuel state = some (release_deferred bound state) := by
  induction fuel generalizing state bound with
  | zero =>
    have hnil : state.deferred = [] := List.length_eq_zero_iff.mp (Nat.le_zero.mp hfuel)
    obtain ⟨bound, rfl⟩ := Nat.exists_eq_add_one_of_ne_zero (Nat.ne_zero_of_lt hbound)
    rw [release_deferred_within, release_deferred, hnil]
    rfl
  | succ fuel ih =>
    obtain ⟨bound, rfl⟩ := Nat.exists_eq_add_one_of_ne_zero (Nat.ne_zero_of_lt hbound)
    rw [release_deferred_within, release_deferred]
    by_cases hempty : state.deferred.isEmpty = true
    · rw [if_pos hempty, if_pos hempty]
    · rw [if_neg hempty, if_neg hempty]
      dsimp only
      split
      · rfl
      next hprogress =>
        have hle := foldl_release_deferred_le state.deferred { state with deferred := [] }
        rw [List.length_nil, Nat.zero_add] at hle
        exact ih (by omega) (by omega)

theorem foldl_order_deferred_le (batch : List UInt64) (changes : List FileChange) (state : Ordered) :
    (changes.foldl (order_step batch) state).deferred.length ≤ state.deferred.length + changes.length := by
  induction changes generalizing state with
  | nil => exact Nat.le_refl _
  | cons change changes ih =>
    have hone : (order_step batch state change).deferred.length ≤ state.deferred.length + 1 := by
      unfold order_step Ordered.emit
      dsimp only
      split <;> simp
    have hrest := ih (order_step batch state change)
    rw [List.foldl_cons, List.length_cons]
    omega

/-- The ordering ends on every batch. -/
theorem order_parent_first_within_eq {changes : List FileChange} (hfuel : changes.length ≤ fuel) :
    order_parent_first_within fuel changes = some (order_parent_first changes) := by
  have hlen := foldl_order_deferred_le ((changes.filter (·.created)).map (·.frs)) changes {}
  rw [show ({} : Ordered).deferred.length = 0 from rfl, Nat.zero_add] at hlen
  unfold order_parent_first_within order_parent_first
  dsimp only
  rw [release_deferred_within_eq (Nat.le_trans hlen hfuel) (Nat.lt_succ_self _), Option.map_some]

theorem release_deferred_within_mono {state result : Ordered}
    (h : release_deferred_within fuel state = some result) (hle : fuel ≤ fuel') :
    release_deferred_within fuel' state = some result := by
  induction fuel generalizing fuel' state with
  | zero =>
    rw [release_deferred_within] at h
    split at h
    next hempty => cases fuel' <;> rw [release_deferred_within, if_pos hempty, h]
    next => cases h
  | succ fuel ih =>
    obtain ⟨more, rfl⟩ := Nat.exists_eq_add_of_le hle
    rw [Nat.succ_add, release_deferred_within]
    rw [release_deferred_within] at h
    split at h
    next hempty => rw [if_pos hempty, h]
    next hempty =>
      rw [if_neg hempty]
      dsimp only at h ⊢
      split at h
      next hstuck => rw [if_pos hstuck, h]
      next hstuck =>
        rw [if_neg hstuck]
        exact ih h (Nat.le_add_right _ _)

theorem order_parent_first_within_mono {changes ordered : List FileChange}
    (h : order_parent_first_within fuel changes = some ordered) (hle : fuel ≤ fuel') :
    order_parent_first_within fuel' changes = some ordered := by
  obtain ⟨state, hstate, rfl⟩ := Option.map_eq_some_iff.mp h
  unfold order_parent_first_within
  dsimp only
  rw [release_deferred_within_mono hstate hle, Option.map_some]

theorem order_parent_first_of_within {changes ordered : List FileChange}
    (h : order_parent_first_within fuel changes = some ordered) : ordered = order_parent_first changes := by
  have hmore := order_parent_first_within_mono h (Nat.le_add_right fuel changes.length)
  rw [order_parent_first_within_eq (Nat.le_add_left _ _)] at hmore
  exact (Option.some.inj hmore).symm

end ordering

variable {records : List CompactRecord} {names : List UInt8}

section recompute

theorem parent_of_root {root : UInt32} (h : root ∈ roots_of records) :
    parent_of records root = none := by
  obtain ⟨rec, hget, hroot⟩ := mem_roots_of.mp h
  rw [parent_of, hget, Option.bind_some, if_pos hroot]

/-- The queue does not look at path lengths, so the loop ends with the queue alone. -/
theorem path_len_bfs_within_ends {start : List CompactRecord}
    {queue popped : List UInt32} (hcore : SameCore start records)
    (h : worklist.run (fun new pending => pending ++ new) (siblings_of start) fuel queue = some popped) :
    ∃ result, path_len_bfs_within names fuel queue records = some result := by
  induction fuel generalizing queue records popped with
  | zero =>
    cases queue with
    | nil => exact ⟨records, rfl⟩
    | cons idx queue => cases h
  | succ fuel ih =>
    cases queue with
    | nil => exact ⟨records, rfl⟩
    | cons idx queue =>
      obtain ⟨rest, hrest, -⟩ := Option.map_eq_some_iff.mp h
      rw [path_len_bfs_within, siblings_of_core hcore]
      exact ih (hcore.trans (sameCore_visit_children names records idx)) hrest

/-- The full recomputation ends on every column of records: below a root there is no cycle. -/
theorem compute_path_lengths_within_ends (records : List CompactRecord) (names : List UInt8) :
    ∃ fuel result, compute_path_lengths_within fuel records names = some result := by
  have hacc : ∀ root ∈ roots_of records, Acc (worklist.Pushes (siblings_of records)) root := by
    intro root hroot
    exact Subrelation.accessible (fun h => parent_of_sibling h) (worklist.acc_root (parent_of_root hroot))
  have : worklist.Pushing (fun new pending : List UInt32 => pending ++ new) := fun _ _ => List.perm_append_comm
  obtain ⟨fuel, popped, hrun⟩ := (worklist.run_ends_iff this).mpr hacc
  obtain ⟨result, hresult⟩ := path_len_bfs_within_ends (sameCore_seed_roots names records) hrun
  exact ⟨fuel, result, hresult⟩

end recompute

variable {changed : List PathChange}

section refresh

variable {children : ChildrenIndex} {delta : Option IndexDelta}

/-- An entry of the change set that moves a subtree: a directory out of step with its parent. -/
def Shifts (names : List UInt8) (records : List CompactRecord) (change : PathChange) : Prop :=
  change.subtree = true ∧ ∃ rec, records[change.idx.toNat]? = some rec ∧
    ¬ (rec.name_len = 0 ∧ rec.parent_idx = NO_ENTRY) ∧
    path_len_from_parent records names change.idx ≠ rec.path_len.toNat

/-- No endless chain of child entries starts at a slot: it is not above a cycle. -/
def NoCycleBelow (records : List CompactRecord) (children : ChildrenIndex) (delta : Option IndexDelta)
    (idx : UInt32) : Prop :=
  Acc (worklist.Pushes (push_children records children delta)) idx

theorem noCycleBelow_core {before after : List CompactRecord} (h : SameCore before after) (idx : UInt32) :
    NoCycleBelow after children delta idx ↔ NoCycleBelow before children delta idx := by
  have hsame : push_children after children delta = push_children before children delta :=
    funext (push_children_core h)
  unfold NoCycleBelow
  rw [hsame]

theorem pushing_stack : worklist.Pushing push_stack := fun new _ => (List.reverse_perm new).append_right _

theorem shift_subtree_within_ends_iff {root : UInt32} {shift : Int} :
    (∃ fuel result, shift_subtree_path_len_within fuel records children delta root shift = some result) ↔
      NoCycleBelow records children delta root := by
  have hends := @worklist.run_ends_iff _ (push_children records children delta) _
    (push_children records children delta root).reverse pushing_stack
  unfold shift_subtree_path_len_within
  constructor
  · rintro ⟨fuel, result, h⟩
    obtain ⟨popped, hrun, -⟩ := Option.map_eq_some_iff.mp h
    constructor
    intro child hchild
    exact hends.mp ⟨fuel, popped, hrun⟩ child (List.mem_reverse.mpr hchild)
  · intro hacc
    obtain ⟨fuel, popped, hrun⟩ := hends.mpr fun child hchild => hacc.inv (List.mem_reverse.mp hchild)
    exact ⟨fuel, _, by rw [hrun, Option.map_some]⟩

variable {result : List CompactRecord}

theorem shift_subtree_within_mono {root : UInt32} {shift : Int}
    (h : shift_subtree_path_len_within fuel records children delta root shift = some result) (hle : fuel ≤ fuel') :
    shift_subtree_path_len_within fuel' records children delta root shift = some result := by
  obtain ⟨popped, hrun, rfl⟩ := Option.map_eq_some_iff.mp h
  rw [shift_subtree_path_len_within, worklist.run_mono hrun hle, Option.map_some]

/-- One entry: either no subtree moves, or its walk decides. -/
theorem refresh_within_cases (records : List CompactRecord) (change : PathChange) :
    (¬ Shifts names records change ∧
      ∃ result, ∀ fuel, refresh_path_len_within fuel names children delta records change = some result) ∨
    (Shifts names records change ∧ ∃ updated shift, SameCore records updated ∧
      ∀ fuel, refresh_path_len_within fuel names children delta records change =
        shift_subtree_path_len_within fuel updated children delta change.idx shift) := by
  unfold refresh_path_len_within
  cases hget : records[change.idx.toNat]? with
  | none =>
    refine Or.inl ⟨?_, records, fun _ => rfl⟩
    rintro ⟨-, rec, hrec, -⟩
    rw [hget] at hrec
    cases hrec
  | some rec =>
    by_cases hgone : rec.name_len = 0 ∧ rec.parent_idx = NO_ENTRY
    · refine Or.inl ⟨?_, records, fun _ => if_pos hgone⟩
      rintro ⟨-, rec', hrec', hlive, -⟩
      rw [hget] at hrec'
      cases hrec'
      exact hlive hgone
    · simp only [if_neg hgone]
      by_cases hmoves : (change.subtree && ((path_len_from_parent records names change.idx : Int) -
          (rec.path_len.toNat : Int) != 0)) = true
      · have hboth := Bool.and_eq_true_iff.mp hmoves
        rw [bne_iff_ne] at hboth
        refine Or.inr ⟨⟨hboth.1, rec, hget, hgone, by omega⟩,
          set_path_len records change.idx (len_to_u16 (path_len_from_parent records names change.idx)),
          path_len_from_parent records names change.idx - rec.path_len.toNat, sameCore_modify records _ _, fun fuel => ?_⟩
        rw [if_pos hmoves]
      · refine Or.inl ⟨?_, set_path_len records change.idx (len_to_u16 (path_len_from_parent records names change.idx)),
          fun fuel => ?_⟩
        · rintro ⟨hsubtree, rec', hrec', -, hdiff⟩
          rw [hget] at hrec'
          cases hrec'
          apply hmoves
          rw [Bool.and_eq_true, bne_iff_ne]
          exact ⟨hsubtree, by omega⟩
        · rw [if_neg hmoves]

theorem refresh_within_ends_iff {change : PathChange} :
    (∃ fuel result, refresh_path_len_within fuel names children delta records change = some result) ↔
      (Shifts names records change → NoCycleBelow records children delta change.idx) := by
  rcases @refresh_within_cases names children delta records change with ⟨hstill, result, h⟩ | ⟨hshifts, updated, shift, hcore, h⟩
  · constructor
    · exact fun _ hshifts => absurd hshifts hstill
    · exact fun _ => ⟨0, result, h 0⟩
  · simp only [h]
    rw [shift_subtree_within_ends_iff, noCycleBelow_core hcore]
    constructor
    · exact fun hacc _ => hacc
    · exact fun hacc => hacc hshifts

theorem refresh_within_mono {change : PathChange}
    (h : refresh_path_len_within fuel names children delta records change = some result) (hle : fuel ≤ fuel') :
    refresh_path_len_within fuel' names children delta records change = some result := by
  rcases @refresh_within_cases names children delta records change with ⟨-, result', h'⟩ | ⟨-, updated, shift, -, h'⟩
  · rw [h'] at h ⊢
    exact h
  · rw [h'] at h ⊢
    exact shift_subtree_within_mono h hle

theorem sameCore_refresh_within {change : PathChange}
    (h : refresh_path_len_within fuel names children delta records change = some result) : SameCore records result := by
  unfold refresh_path_len_within at h
  split at h
  · exact Option.some.inj h ▸ SameCore.refl records
  · split at h
    · exact Option.some.inj h ▸ SameCore.refl records
    · dsimp only at h
      split at h
      · obtain ⟨popped, -, rfl⟩ := Option.map_eq_some_iff.mp h
        exact (sameCore_modify records _ _).trans (sameCore_foldl (fun recs idx => sameCore_modify recs _ _) _ _)
      · exact Option.some.inj h ▸ sameCore_modify records _ _

theorem sameCore_update_within
    (h : update_path_lengths_within fuel records names children delta changed = some result) : SameCore records result := by
  induction changed generalizing records with
  | nil => exact Option.some.inj h ▸ SameCore.refl records
  | cons first changed ih =>
    obtain ⟨next, hnext, hrest⟩ := Option.bind_eq_some_iff.mp h
    exact (sameCore_refresh_within hnext).trans (ih hrest)

theorem update_within_mono
    (h : update_path_lengths_within fuel records names children delta changed = some result) (hle : fuel ≤ fuel') :
    update_path_lengths_within fuel' records names children delta changed = some result := by
  induction changed generalizing records with
  | nil => exact h
  | cons first changed ih =>
    obtain ⟨next, hnext, hrest⟩ := Option.bind_eq_some_iff.mp h
    exact Option.bind_eq_some_iff.mpr ⟨next, refresh_within_mono hnext hle, ih hrest⟩

/-- The refresh loop ends exactly if no entry, in the state it meets, moves a subtree with a cycle
below it. -/
theorem update_within_ends_iff :
    (∃ fuel result, update_path_lengths_within fuel records names children delta changed = some result) ↔
      ∀ before change after, changed = before ++ change :: after → ∀ fuel state,
        update_path_lengths_within fuel records names children delta before = some state →
          Shifts names state change → NoCycleBelow records children delta change.idx := by
  induction changed generalizing records with
  | nil =>
    constructor
    · intro _ before change after h
      exact absurd h.symm (List.append_ne_nil_of_right_ne_nil _ (List.cons_ne_nil _ _))
    · exact fun _ => ⟨0, records, rfl⟩
  | cons first changed ih =>
    constructor
    · rintro ⟨fuel, result, h⟩ before change after hsplit fuel' state hstate hshifts
      obtain ⟨next, hnext, hrest⟩ := Option.bind_eq_some_iff.mp h
      cases before with
      | nil =>
        obtain ⟨rfl, rfl⟩ := List.cons.inj hsplit
        cases hstate
        exact refresh_within_ends_iff.mp ⟨fuel, next, hnext⟩ hshifts
      | cons first' before =>
        obtain ⟨rfl, htail⟩ := List.cons.inj hsplit
        obtain ⟨next', hnext', hstate⟩ := Option.bind_eq_some_iff.mp hstate
        have hsame : next' = next := by
          have h1 := refresh_within_mono hnext (Nat.le_max_left fuel fuel')
          rw [refresh_within_mono hnext' (Nat.le_max_right fuel fuel')] at h1
          exact Option.some.inj h1
        rw [hsame] at hstate
        have hbelow := ih.mp ⟨fuel, result, hrest⟩ before change after htail fuel' state hstate hshifts
        exact (noCycleBelow_core (sameCore_refresh_within hnext) change.idx).mp hbelow
    · intro h
      obtain ⟨fuel, next, hnext⟩ := refresh_within_ends_iff.mpr fun hshifts =>
        h [] first changed rfl 0 records rfl hshifts
      obtain ⟨fuel', result, hresult⟩ := (@ih next).mpr fun before change after hsplit fuel' state hstate hshifts => by
        rw [noCycleBelow_core (sameCore_refresh_within hnext)]
        refine h (first :: before) change after (by rw [hsplit]; rfl) (max fuel fuel') state ?_ hshifts
        exact Option.bind_eq_some_iff.mpr ⟨next, refresh_within_mono hnext (Nat.le_max_left _ _),
          update_within_mono hstate (Nat.le_max_right _ _)⟩
      exact ⟨max fuel fuel', result, Option.bind_eq_some_iff.mpr
        ⟨next, refresh_within_mono hnext (Nat.le_max_left _ _), update_within_mono hresult (Nat.le_max_right _ _)⟩⟩

end refresh

theorem path_len_bfs_within_mono {queue : List UInt32}
    {result : List CompactRecord} (h : path_len_bfs_within names fuel queue records = some result)
    (hle : fuel ≤ fuel') : path_len_bfs_within names fuel' queue records = some result := by
  induction fuel generalizing fuel' queue records with
  | zero =>
    cases queue with
    | nil =>
      rw [path_len_bfs_within] at h ⊢
      exact h
    | cons idx queue => cases h
  | succ fuel ih =>
    cases queue with
    | nil =>
      rw [path_len_bfs_within] at h ⊢
      exact h
    | cons idx queue =>
      obtain ⟨more, rfl⟩ := Nat.exists_eq_add_of_le hle
      rw [Nat.succ_add, path_len_bfs_within]
      rw [path_len_bfs_within] at h
      exact ih h (Nat.le_add_right _ _)

theorem sameCore_path_len_bfs_within {queue : List UInt32} {result : List CompactRecord}
    (h : path_len_bfs_within names fuel queue records = some result) : SameCore records result := by
  induction fuel generalizing queue records with
  | zero =>
    cases queue with
    | nil => exact Option.some.inj h ▸ SameCore.refl records
    | cons idx queue => cases h
  | succ fuel ih =>
    cases queue with
    | nil =>
      rw [path_len_bfs_within] at h
      exact Option.some.inj h ▸ SameCore.refl records
    | cons idx queue =>
      rw [path_len_bfs_within] at h
      exact (sameCore_visit_children names records idx).trans (ih h)

theorem rebuild_within_mono {drive result : DriveCompactIndex} {path_changes : List PathChange}
    {tombstones : List UInt32} (h : rebuild_derived_within fuel drive path_changes tombstones = some result)
    (hle : fuel ≤ fuel') : rebuild_derived_within fuel' drive path_changes tombstones = some result := by
  unfold rebuild_derived_within at h ⊢
  split at h
  next hlarge =>
    obtain ⟨records, hrecords, rfl⟩ := Option.map_eq_some_iff.mp h
    rw [if_pos hlarge, compute_path_lengths_within, path_len_bfs_within_mono hrecords hle, Option.map_some]
  next hlarge =>
    obtain ⟨records, hrecords, rfl⟩ := Option.map_eq_some_iff.mp h
    rw [if_neg hlarge, update_within_mono hrecords hle, Option.map_some]

/-- The rebuild ends unless its refresh loop does not. -/
theorem rebuild_within_ends_iff {drive overlaid : DriveCompactIndex} {path_changes : List PathChange}
    {tombstones : List UInt32} (hoverlaid : (drive.apply_index_delta path_changes tombstones).1 = overlaid) :
    (∃ fuel result, rebuild_derived_within fuel drive path_changes tombstones = some result) ↔
      (path_changes.length ≤ FULL_PATH_RECOMPUTE_THRESHOLD → ∃ fuel records,
        update_path_lengths_within fuel overlaid.records overlaid.names overlaid.children overlaid.delta path_changes =
          some records) := by
  unfold rebuild_derived_within
  rw [hoverlaid]
  by_cases hlarge : path_changes.length > FULL_PATH_RECOMPUTE_THRESHOLD
  · simp only [if_pos hlarge]
    constructor
    · exact fun _ hsmall => absurd hlarge (Nat.not_lt.mpr hsmall)
    · intro _
      obtain ⟨fuel, records, hrecords⟩ := compute_path_lengths_within_ends overlaid.records overlaid.names
      exact ⟨fuel, { overlaid with records }, by rw [hrecords, Option.map_some]⟩
  · simp only [if_neg hlarge]
    constructor
    · rintro ⟨fuel, result, h⟩ _
      obtain ⟨records, hrecords, -⟩ := Option.map_eq_some_iff.mp h
      exact ⟨fuel, records, hrecords⟩
    · intro h
      obtain ⟨fuel, records, hrecords⟩ := h (Nat.not_lt.mp hlarge)
      exact ⟨fuel, { overlaid with records }, by rw [hrecords, Option.map_some]⟩

/-- The index the path lengths are refreshed on: the batch applied, and its tables overlaid. -/
def overlaid (env : Env) (drive : DriveCompactIndex) (changes : List FileChange) : DriveCompactIndex :=
  let patch := mutated env drive changes
  (patch.drive.apply_index_delta patch.path_changes patch.tombstones).1

/-- No renamed directory that is out of step with its new parent lies above a cycle when its turn
comes; a batch too large for the incremental refresh has no such turns. -/
def NoCycleShifted (env : Env) (drive : DriveCompactIndex) (changes : List FileChange) : Prop :=
  (mutated env drive changes).path_changes.length ≤ FULL_PATH_RECOMPUTE_THRESHOLD →
    ∀ before change after, (mutated env drive changes).path_changes = before ++ change :: after → ∀ fuel state,
      update_path_lengths_within fuel (overlaid env drive changes).records (overlaid env drive changes).names
        (overlaid env drive changes).children (overlaid env drive changes).delta before = some state →
      Shifts (overlaid env drive changes).names state change →
        NoCycleBelow (overlaid env drive changes).records (overlaid env drive changes).children
          (overlaid env drive changes).delta change.idx

theorem noCycleShifted_iff {env : Env} {drive : DriveCompactIndex} {changes : List FileChange} :
    NoCycleShifted env drive changes ↔ ∃ fuel result, apply_usn_patch_within env fuel drive changes = some result := by
  unfold NoCycleShifted
  rw [← update_within_ends_iff, ← @rebuild_within_ends_iff (mutated env drive changes).drive
    (overlaid env drive changes) (mutated env drive changes).path_changes (mutated env drive changes).tombstones rfl]
  constructor
  · rintro ⟨fuel, rebuilt, hrebuilt⟩
    refine ⟨max fuel changes.length, (rebuilt, (mutated env drive changes).stats), ?_⟩
    refine Option.bind_eq_some_iff.mpr ⟨_, order_parent_first_within_eq (Nat.le_max_right _ _), ?_⟩
    exact Option.bind_eq_some_iff.mpr ⟨rebuilt, rebuild_within_mono hrebuilt (Nat.le_max_left _ _), rfl⟩
  · rintro ⟨fuel, result, h⟩
    obtain ⟨ordered, hordered, hrest⟩ := Option.bind_eq_some_iff.mp h
    obtain ⟨rebuilt, hrebuilt, -⟩ := Option.bind_eq_some_iff.mp hrest
    rw [order_parent_first_of_within hordered] at hrebuilt
    exact ⟨fuel, rebuilt, hrebuilt⟩

/-- Applying a batch ends exactly if no directory that it moves a subtree for lies above a cycle of
child entries: the walk below such a directory goes round for ever, and all else is bounded by the batch
and the table. -/
theorem apply_usn_patch_ends_iff (env : Env) (drive : DriveCompactIndex) (changes : List FileChange) :
    (∃ fuel result, apply_usn_patch_within env fuel drive changes = some result) ↔
      NoCycleShifted env drive changes :=
  noCycleShifted_iff.symm

section returned

variable {env : Env} {drive result result' : DriveCompactIndex} {changes : List FileChange}

/-- The patch returns, and this is the index it leaves. -/
def PatchedTo (env : Env) (drive : DriveCompactIndex) (changes : List FileChange) (result : DriveCompactIndex) : Prop :=
  ∃ fuel stats, apply_usn_patch_within env fuel drive changes = some (result, stats)

theorem exists_patchedTo_iff : (∃ result, PatchedTo env drive changes result) ↔ NoCycleShifted env drive changes := by
  rw [noCycleShifted_iff]
  exact ⟨fun ⟨result, fuel, stats, h⟩ => ⟨fuel, (result, stats), h⟩, fun ⟨fuel, (result, stats), h⟩ => ⟨result, fuel, stats, h⟩⟩

/-- A patch that returns has rebuilt the index its changes leave. -/
theorem PatchedTo.within (h : PatchedTo env drive changes result) : ∃ fuel,
    rebuild_derived_within fuel (mutated env drive changes).drive (mutated env drive changes).path_changes
      (mutated env drive changes).tombstones = some result := by
  obtain ⟨fuel, stats, h⟩ := h
  obtain ⟨ordered, hordered, hrest⟩ := Option.bind_eq_some_iff.mp h
  obtain ⟨rebuilt, hrebuilt, heq⟩ := Option.bind_eq_some_iff.mp hrest
  rw [order_parent_first_of_within hordered] at hrebuilt
  cases heq
  exact ⟨fuel, hrebuilt⟩

theorem PatchedTo.unique (h : PatchedTo env drive changes result) (h' : PatchedTo env drive changes result') : result = result' := by
  obtain ⟨fuel, h⟩ := h.within
  obtain ⟨fuel', h'⟩ := h'.within
  have hboth := (rebuild_within_mono h (Nat.le_max_left fuel fuel')).symm.trans (rebuild_within_mono h' (Nat.le_max_right _ _))
  exact Option.some.inj hboth

/-- Up to the path lengths it is the index `apply_usn_patch` leaves. -/
theorem PatchedTo.rebuilt (h : PatchedTo env drive changes result) :
    Rebuilt (mutated env drive changes).drive result (mutated env drive changes).path_changes (mutated env drive changes).tombstones := by
  obtain ⟨fuel, h⟩ := h.within
  unfold rebuild_derived_within at h
  split at h
  · obtain ⟨records, hrecords, rfl⟩ := Option.map_eq_some_iff.mp h
    exact Rebuilt.of_core ((sameCore_seed_roots _ _).trans (sameCore_path_len_bfs_within hrecords))
  · obtain ⟨records, hrecords, rfl⟩ := Option.map_eq_some_iff.mp h
    exact Rebuilt.of_core (sameCore_update_within hrecords)

end returned

theorem apply_index_delta_records (drive : DriveCompactIndex) (adds : List PathChange) (tombstones : List UInt32) :
    (drive.apply_index_delta adds tombstones).1.records = drive.records := by
  cases apply_index_delta_eq drive adds tombstones with
  | inl h =>
    rw [h]
    rfl
  | inr h => rw [h]

section

variable (env : Env) (drive : DriveCompactIndex) (changes : List FileChange)

theorem overlaid_records : (overlaid env drive changes).records = (mutated env drive changes).drive.records := by
  rw [overlaid]
  exact apply_index_delta_records _ _ _

/-- The child entries the subtree walk follows are those of the index the rebuild leaves. -/
theorem push_children_rebuilt (path_changes : List PathChange) (tombstones : List UInt32) (p : UInt32) :
    push_children (drive.apply_index_delta path_changes tombstones).1.records
      (drive.apply_index_delta path_changes tombstones).1.children
      (drive.apply_index_delta path_changes tombstones).1.delta p =
        (rebuild_derived drive path_changes tombstones).children_of p := by
  obtain ⟨records, hcore, heq⟩ := rebuild_derived_eq drive path_changes tombstones
  rw [heq]
  generalize (drive.apply_index_delta path_changes tombstones).1 = rebuilt at hcore ⊢
  exact (push_children_core hcore p).symm

theorem push_children_overlaid (p : UInt32) :
    push_children (overlaid env drive changes).records (overlaid env drive changes).children
      (overlaid env drive changes).delta p = (apply_usn_patch env drive changes).1.children_of p := by
  unfold overlaid apply_usn_patch mutated
  exact push_children_rebuilt _ _ _ p

end

theorem name_char_count_of_range {rec : CompactRecord} {name : Str}
    (h : rec.name_range names = some (as_bytes name)) : name_char_count rec names = name.length := by
  rw [name_char_count, h, Option.bind_some, from_utf8_as_bytes]

/-- `a` renamed to a place in its own child `b`. -/
def rename_below_child : FileChange where
  frs := 16
  parent_frs := 17
  filename := ['a']
  renamed := true

/-- A batch that moves a directory below its own child does not end. -/
theorem apply_usn_patch_never_ends_on_cycle :
    WellFormed dirs_mft ∧
      ¬ ∃ fuel result, apply_usn_patch_within sample_env fuel (build_compact_index sample_env 'C' ⟨[]⟩ dirs_mft)
        [rename_below_child] = some result := by
  refine ⟨dirs_mft_wellFormed, ?_⟩
  rw [← noCycleShifted_iff]
  intro hends
  -- `a` is the child of its own child `b` now, and stores the length of its old path
  have hrow : (overlaid sample_env (build_compact_index sample_env 'C' ⟨[]⟩ dirs_mft) [rename_below_child]).records[0]?.map
      (fun rec => (rec.name_len, rec.path_len)) = some (1, 4) := by decide
  obtain ⟨rec, hget, hrec⟩ := Option.map_eq_some_iff.mp hrow
  rw [Prod.mk.injEq] at hrec
  have hbelow := hends (by decide) [] { idx := 0, subtree := true } [] (by decide) 0 _ rfl
    ⟨rfl, rec, hget, by simp [hrec.1], by rw [hrec.2]; decide⟩
  exact @worklist.not_acc_of_cycle _ _ 0 1 (by decide) (by decide) hbelow

end uffs.usn
