import Uffs.Usn.Replay

open uffs.mft uffs.text uffs.bloom uffs.compact

namespace uffs.usn

/-- What is seen of a record number after the last change that took effect. -/
def seen_after (before : Option Seen) : Option (FileChange × Option UInt64) → Option Seen
  | none => before
  | some (last, parent) => if last.deleted then none else some (stored_name last.filename, parent)

theorem view_eq_cell (drive : DriveCompactIndex) (f : UInt64) : view drive f = (cell drive f).bind Cell.seen := by
  rw [view, look, cell]
  split_ifs with hf
  · rfl
  · cases drive.records[(slot_of drive f).toNat]? <;> rfl

theorem replay_seen (cells : Cells) (changes : List FileChange) (f : UInt64) :
    (replay cells changes f).bind Cell.seen = seen_after ((cells f).bind Cell.seen) (last_effect (labels_of cells) changes f) := by
  cases hlast : last_effect (labels_of cells) changes f with
  | none => rw [replay_of_no_effect hlast, seen_after]
  | some effect =>
    obtain ⟨last, parent⟩ := effect
    obtain ⟨hgone, hwritten⟩ := replay_of_effect hlast
    rw [seen_after]
    cases hdeleted : last.deleted with
    | true =>
      rw [hgone hdeleted]
      rfl
    | false =>
      obtain ⟨c, hc, hseen, -⟩ := hwritten hdeleted
      rw [hc, Option.bind_some, hseen]
      rfl

/-- No change of a record number takes effect exactly when none would take effect first. -/
theorem last_effect_eq_none_iff {labels : Labels} {changes : List FileChange} {f : UInt64} :
    last_effect labels changes f = none ↔ ∀ change ∈ changes, change.frs = f → takes_effect labels change = false := by
  have hlocal : ∀ {labels labels' : Labels} {change : FileChange}, change.frs = f → labels' f = labels f →
      takes_effect labels' change = takes_effect labels change := by
    intro labels labels' change hf heq
    rw [takes_effect, takes_effect, hf, heq]
  induction changes generalizing labels with
  | nil => simp [last_effect]
  | cons change rest ih =>
    have hkept : (change.frs = f → takes_effect labels change = false) → relabel labels change f = labels f := by
      intro hidle
      rw [relabel]
      split_ifs with hf hdeleted hcreated
      · simp [takes_effect, hdeleted] at hidle
        exact absurd hf.symm hidle
      · rw [Bool.and_eq_true] at hcreated
        simp [takes_effect, hcreated.1, hcreated.2] at hidle
        exact absurd hf.symm hidle
      · rfl
      · rfl
    rw [last_effect, Option.or_eq_none_iff, List.forall_mem_cons, and_comm]
    have hfirst : (if change.frs = f && takes_effect labels change then some (change, labels change.parent_frs) else none) = none ↔
        (change.frs = f → takes_effect labels change = false) := by
      by_cases hf : change.frs = f <;> simp [hf]
    rw [hfirst]
    apply and_congr_right
    intro hidle
    apply ih.trans
    constructor
    · intro h ch hch hf
      rw [← hlocal hf (hkept hidle)]
      exact h ch hch hf
    · intro h ch hch hf
      rw [hlocal hf (hkept hidle)]
      exact h ch hch hf

/-- Two last changes leave the same to see: both delete, or both write one name and find one parent. -/
def SameEffect : Option (FileChange × Option UInt64) → Option (FileChange × Option UInt64) → Prop
  | none, none => True
  | some (last, parent), some (last', parent') =>
    last.deleted = last'.deleted ∧ (last.deleted = false → stored_name last.filename = stored_name last'.filename ∧ parent = parent')
  | _, _ => False

theorem SameEffect.refl (effect : Option (FileChange × Option UInt64)) : SameEffect effect effect := by
  cases effect with
  | none => trivial
  | some pair => exact ⟨rfl, fun _ => ⟨rfl, rfl⟩⟩

theorem seen_after_eq_iff {before : Option Seen} {effect effect' : Option (FileChange × Option UInt64)}
    (hnone : effect = none ↔ effect' = none) : seen_after before effect = seen_after before effect' ↔ SameEffect effect effect' := by
  cases effect with
  | none =>
    rw [hnone.mp rfl]
    simp [SameEffect]
  | some pair =>
    cases effect' with
    | none => cases hnone.mpr rfl
    | some pair' =>
      obtain ⟨last, parent⟩ := pair
      obtain ⟨last', parent'⟩ := pair'
      simp only [seen_after, SameEffect]
      cases last.deleted <;> cases last'.deleted <;> simp

section

variable {env : Env} {drive whole between rest : DriveCompactIndex} {a b : List FileChange}

/-- The order in which a batch is applied when it stands alone, and after another. -/
theorem patches_seen (h : Placed drive) (hwhole : Applied env drive (a ++ b) whole) (hbetween : Applied env drive a between)
    (hrest : Applied env between b rest) (hfits : Fits whole) (hfits_between : Fits between) (hfits_rest : Fits rest) (f : UInt64) :
    view whole f = seen_after (view drive f) (last_effect (labels_of (cell drive)) (order_parent_first (a ++ b)) f) ∧
      view rest f =
        seen_after (view drive f) (last_effect (labels_of (cell drive)) (order_parent_first a ++ order_parent_first b) f) := by
  obtain ⟨-, hboth⟩ := h.applied_cells hwhole hfits
  obtain ⟨hplaced, hfirst⟩ := h.applied_cells hbetween hfits_between
  obtain ⟨-, hsecond⟩ := hplaced.applied_cells hrest hfits_rest
  have happend : replay (replay (cell drive) (order_parent_first a)) (order_parent_first b) =
      replay (cell drive) (order_parent_first a ++ order_parent_first b) := List.foldl_append.symm
  rw [hfirst, happend] at hsecond
  simp only [view_eq_cell]
  rw [hboth, hsecond, replay_seen, replay_seen]
  exact ⟨rfl, rfl⟩

/-- The two orders have the same changes, so an effect shows in both or in neither. -/
theorem coalesced_same_iff (labels : Labels) (before : Option Seen) (f : UInt64) :
    seen_after before (last_effect labels (order_parent_first (a ++ b)) f) =
        seen_after before (last_effect labels (order_parent_first a ++ order_parent_first b) f) ↔
      SameEffect (last_effect labels (order_parent_first (a ++ b)) f)
        (last_effect labels (order_parent_first a ++ order_parent_first b) f) := by
  apply seen_after_eq_iff
  have hperm : (order_parent_first (a ++ b)).Perm (order_parent_first a ++ order_parent_first b) :=
    (order_parent_first_perm (a ++ b)).trans ((order_parent_first_perm a).append (order_parent_first_perm b)).symm
  rw [last_effect_eq_none_iff, last_effect_eq_none_iff]
  exact ⟨fun hall ch hch => hall ch (hperm.mem_iff.mpr hch), fun hall ch hch => hall ch (hperm.mem_iff.mp hch)⟩

end

/-- A file in a new directory. -/
def child_created : FileChange where
  frs := 20
  parent_frs := 30
  filename := ['a']
  created := true

def child_deleted : FileChange where
  frs := 20
  parent_frs := 30
  filename := ['a']
  deleted := true

def parent_created : FileChange where
  frs := 30
  parent_frs := 5
  filename := ['d']
  created := true

end uffs.usn
