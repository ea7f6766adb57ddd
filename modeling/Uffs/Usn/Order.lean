import Mathlib.Order.WellFounded
import Uffs.Usn.Patch

namespace uffs.usn

/-- The record numbers a batch creates. -/
def batch_creates (changes : List FileChange) : List UInt64 := (changes.filter (·.created)).map (·.frs)

/-- The change writes into a directory that the batch creates. -/
def Waits (creates : List UInt64) (change : FileChange) : Prop :=
  (change.created = true ∨ change.renamed = true) ∧ change.parent_frs ≠ change.frs ∧ change.parent_frs ∈ creates

/-- No created file lies below itself through files the batch creates. -/
def Acyclic (changes : List FileChange) : Prop :=
  ∃ rank : UInt64 → Nat, ∀ change ∈ changes, change.created = true → Waits (batch_creates changes) change →
    rank change.parent_frs < rank change.frs

/-- A create of the record number is in the list. -/
def Creates (changes : List FileChange) (frs : UInt64) : Prop := ∃ change ∈ changes, change.created = true ∧ change.frs = frs

/-- Every change that waits for a create comes after it. -/
def ParentsFirst (creates : List UInt64) (out : List FileChange) : Prop :=
  ∀ first change rest, out = first ++ change :: rest → Waits creates change → Creates first change.parent_frs

variable {changes : List FileChange} {creates : List UInt64} {change : FileChange} {state : Ordered}

theorem mem_batch_creates {frs : UInt64} : frs ∈ batch_creates changes ↔ Creates changes frs := by
  simp only [batch_creates, List.mem_map, List.mem_filter, Creates, and_assoc]

theorem Creates.mono {changes changes' : List FileChange} (hsub : ∀ change ∈ changes, change ∈ changes') {frs : UInt64}
    (h : Creates changes frs) : Creates changes' frs := by
  obtain ⟨change, hmem, hchange⟩ := h
  exact ⟨change, hsub change hmem, hchange⟩

theorem parentsFirst_concat {out : List FileChange} (h : ParentsFirst creates out)
    (hparent : Waits creates change → Creates out change.parent_frs) : ParentsFirst creates (out ++ [change]) := by
  intro first ch rest heq hwaits
  rcases List.eq_nil_or_concat rest with rfl | ⟨rest', last, rfl⟩
  · obtain ⟨rfl, hlast⟩ := List.append_inj' heq rfl
    cases hlast
    exact hparent hwaits
  · rw [List.concat_eq_append, ← List.cons_append, ← List.append_assoc] at heq
    obtain ⟨rfl, -⟩ := List.append_inj' heq rfl
    exact h first ch rest' rfl hwaits

/-- The state of the ordering: what is out has its parents before it, what is deferred waits. -/
structure Ordered.Good (creates : List UInt64) (state : Ordered) : Prop where
  applied : ∀ frs, frs ∈ state.applied_creates ↔ Creates state.out frs
  ordered : ParentsFirst creates state.out
  waiting : ∀ change ∈ state.deferred, Waits creates change

section

variable (h : Ordered.Good creates state)

include h

theorem Ordered.Good.emit (hparent : Waits creates change → change.parent_frs ∈ state.applied_creates) :
    Ordered.Good creates (state.emit change) := by
  refine ⟨?_, ?_, h.waiting⟩
  · intro frs
    have happlied := h.applied frs
    simp only [Ordered.emit, Creates, List.mem_append, List.mem_singleton] at happlied ⊢
    cases hcreated : change.created with
    | true =>
      rw [if_pos rfl, List.mem_cons, happlied]
      constructor
      · rintro (rfl | ⟨ch, hch, hcr⟩)
        · exact ⟨change, Or.inr rfl, hcreated, rfl⟩
        · exact ⟨ch, Or.inl hch, hcr⟩
      · rintro ⟨ch, hch | rfl, hcr⟩
        · exact Or.inr ⟨ch, hch, hcr⟩
        · exact Or.inl hcr.2.symm
    | false =>
      rw [if_neg (by simp), happlied]
      constructor
      · rintro ⟨ch, hch, hcr⟩
        exact ⟨ch, Or.inl hch, hcr⟩
      · rintro ⟨ch, hch | rfl, hcr⟩
        · exact ⟨ch, hch, hcr⟩
        · simp [hcreated] at hcr
  · exact parentsFirst_concat h.ordered fun hwaits => (h.applied _).mp (hparent hwaits)

theorem Ordered.Good.defer (hwaits : Waits creates change) :
    Ordered.Good creates { state with deferred := state.deferred ++ [change] } := by
  refine ⟨h.applied, h.ordered, ?_⟩
  intro ch hch
  rcases List.mem_append.mp hch with hch | hch
  · exact h.waiting ch hch
  · rw [List.mem_singleton.mp hch]
    exact hwaits

theorem order_step_good (change : FileChange) : Ordered.Good creates (order_step creates state change) := by
  rw [order_step]
  split_ifs with hguard
  · simp only [Bool.and_eq_true, Bool.or_eq_true, bne_iff_ne, ne_eq, List.contains_eq_mem, decide_eq_true_eq, Bool.not_eq_true',
      decide_eq_false_iff_not] at hguard
    exact h.defer ⟨hguard.1.1.1, hguard.1.1.2, hguard.1.2⟩
  · apply h.emit
    intro hwaits
    by_contra hnot
    apply hguard
    simp only [Bool.and_eq_true, Bool.or_eq_true, bne_iff_ne, ne_eq, List.contains_eq_mem, decide_eq_true_eq, Bool.not_eq_true',
      decide_eq_false_iff_not]
    exact ⟨⟨⟨hwaits.1, hwaits.2.1⟩, hwaits.2.2⟩, hnot⟩

theorem release_step_good (hwaits : Waits creates change) : Ordered.Good creates (release_step state change) := by
  rw [release_step]
  split_ifs with hparent
  · exact h.emit fun _ => by simpa using hparent
  · exact h.defer hwaits

theorem foldl_release_good (hwaits : ∀ change ∈ changes, Waits creates change) :
    Ordered.Good creates (changes.foldl release_step state) := by
  induction changes generalizing state with
  | nil => exact h
  | cons change changes ih =>
    rw [List.foldl_cons]
    apply ih (release_step_good h (hwaits change List.mem_cons_self))
    intro ch hch
    exact hwaits ch (List.mem_cons_of_mem _ hch)

end

/-- A pass defers only changes whose parent was not out at its start. -/
theorem foldl_release_order_le (changes : List FileChange) (state : Ordered) :
    (changes.foldl release_step state).deferred.length ≤ state.deferred.length +
      (changes.filter fun change => !state.applied_creates.contains change.parent_frs).length := by
  induction changes generalizing state with
  | nil => simp
  | cons change changes ih =>
    have hgrow : ∀ frs, state.applied_creates.contains frs = true → (release_step state change).applied_creates.contains frs = true := by
      intro frs hfrs
      rw [release_step, Ordered.emit]
      split_ifs
      · simp only [List.contains_cons, hfrs, Bool.or_true]
      · exact hfrs
      · exact hfrs
    have hrest : (changes.filter fun ch => !(release_step state change).applied_creates.contains ch.parent_frs).length ≤
        (changes.filter fun ch => !state.applied_creates.contains ch.parent_frs).length := by
      apply List.Sublist.length_le
      apply List.monotone_filter_right
      intro ch hch
      simp only [Bool.not_eq_true'] at hch ⊢
      by_contra hnot
      rw [hgrow _ (by simpa using hnot)] at hch
      cases hch
    have hnext := ih (release_step state change)
    rw [List.foldl_cons, List.filter_cons]
    by_cases hparent : state.applied_creates.contains change.parent_frs = true
    · have hlen : (release_step state change).deferred.length = state.deferred.length := by
        rw [release_step, if_pos hparent, Ordered.emit]
      simp only [hparent, Bool.not_true, Bool.false_eq_true, if_false]
      omega
    · have hlen : (release_step state change).deferred.length = state.deferred.length + 1 := by
        rw [release_step, if_neg hparent]
        simp
      simp only [hparent, Bool.not_false, if_true, List.length_cons]
      omega

section

variable (hacyclic : Acyclic changes) (h : Ordered.Good (batch_creates changes) state)
  (hperm : (state.out ++ state.deferred).Perm changes)

include hacyclic h hperm

/-- With no cycle among the creates, some waiting change has its parent out. -/
theorem exists_ready (hsome : state.deferred ≠ []) :
    ∃ change ∈ state.deferred, change.parent_frs ∈ state.applied_creates := by
  obtain ⟨rank, hrank⟩ := hacyclic
  obtain ⟨change, hchange, hmin⟩ : ∃ change ∈ state.deferred, ∀ other ∈ state.deferred, rank change.parent_frs ≤ rank other.parent_frs := by
    have hne : (state.deferred.map fun change => rank change.parent_frs) ≠ [] := by simpa using hsome
    obtain ⟨least, hleast, hbound⟩ : ∃ least ∈ state.deferred.map fun change => rank change.parent_frs,
        ∀ value ∈ state.deferred.map fun change => rank change.parent_frs, least ≤ value :=
      ⟨_, List.min_mem hne, fun value hvalue => List.min_le_of_mem hvalue⟩
    obtain ⟨change, hchange, rfl⟩ := List.mem_map.mp hleast
    exact ⟨change, hchange, fun other hother => hbound _ (List.mem_map_of_mem hother)⟩
  refine ⟨change, hchange, ?_⟩
  obtain ⟨parent, hparent, hcreated, hfrs⟩ := mem_batch_creates.mp (h.waiting change hchange).2.2
  rcases List.mem_append.mp (hperm.mem_iff.mpr hparent) with hout | hdeferred
  · exact (h.applied _).mpr ⟨parent, hout, hcreated, hfrs⟩
  · -- the parent's own create waits for one of a smaller rank
    have hless := hrank parent hparent hcreated (h.waiting parent hdeferred)
    have := hmin parent hdeferred
    rw [hfrs] at hless
    omega

theorem release_deferred_good {fuel : Nat} (hfuel : state.deferred.length < fuel) :
    ParentsFirst (batch_creates changes) (release_deferred fuel state).out := by
  induction fuel generalizing state with
  | zero => omega
  | succ fuel ih =>
    rw [release_deferred]
    split_ifs with hempty
    · exact h.ordered
    · have hne : state.deferred ≠ [] := by simpa using hempty
      have hstart : Ordered.Good (batch_creates changes) { state with deferred := [] } := by
        refine ⟨h.applied, h.ordered, ?_⟩
        rintro _ ⟨⟩
      have hnext := foldl_release_good hstart h.waiting
      have hperm' := Ordered.foldl_release_perm state.deferred { state with deferred := [] }
      have hbound := foldl_release_order_le state.deferred { state with deferred := [] }
      obtain ⟨ready, hready, hparent⟩ := exists_ready hacyclic h hperm hne
      have hless : (state.deferred.filter fun change => !state.applied_creates.contains change.parent_frs).length <
          state.deferred.length := by
        apply List.length_filter_lt_length_iff_exists.mpr
        exact ⟨ready, hready, by simp [hparent]⟩
      simp only [List.append_nil, List.length_nil, Nat.zero_add] at hperm' hbound
      rw [if_neg (by omega)]
      exact ih hnext (hperm'.trans hperm) (by omega)

end

/-- Parents come before what the batch puts into them. -/
theorem order_parent_first_parents (hacyclic : Acyclic changes) :
    ParentsFirst (batch_creates changes) (order_parent_first changes) := by
  have hstart : Ordered.Good (batch_creates changes) {} := by
    refine ⟨?_, ?_, nofun⟩
    · intro frs
      simp [Creates]
    · intro first change rest heq
      simp at heq
  have hpass : ∀ (list : List FileChange) (state : Ordered), Ordered.Good (batch_creates changes) state →
      Ordered.Good (batch_creates changes) (list.foldl (order_step (batch_creates changes)) state) ∧
        ((list.foldl (order_step (batch_creates changes)) state).out ++
          (list.foldl (order_step (batch_creates changes)) state).deferred).Perm (state.out ++ state.deferred ++ list) := by
    intro list
    induction list with
    | nil => exact fun state h => ⟨h, by simp⟩
    | cons change list ih =>
      intro state h
      obtain ⟨hgood, hperm⟩ := ih _ (order_step_good h change)
      refine ⟨hgood, hperm.trans ?_⟩
      rw [order_step, Ordered.emit]
      split_ifs
      · simp only [List.append_assoc]
        exact List.Perm.refl _
      all_goals
        simp only [List.append_assoc]
        exact List.Perm.append_left state.out (List.perm_append_comm_assoc [change] state.deferred list)
  obtain ⟨hgood, hperm⟩ := hpass changes {} hstart
  rw [List.append_nil, List.nil_append] at hperm
  exact release_deferred_good hacyclic hgood hperm (Nat.lt_succ_self _)

end uffs.usn
