import Uffs.Lib.Preorder
import Uffs.Lib.Rooted
import Uffs.Mft.PathEnds

open uffs.lib uffs.lib.worklist

namespace uffs.mft

/-! Which records the path resolver marks valid. -/

/-- Every record number leads to a record. -/
def MftIndex.Mapped (index : MftIndex) : Prop := ∀ {frs i}, index.frs_to_idx_opt frs = some i → i < index.records.length

/-- The lookup table finds every record under its number and nothing else, and every list of
directory entries ends. -/
structure MftIndex.Addressed (index : MftIndex) : Prop where
  mapped : ∀ {frs i}, index.frs_to_idx_opt frs = some i → ∃ record, index.records[i]? = some record ∧ record.frs = frs
  found : ∀ {i record}, index.records[i]? = some record → index.frs_to_idx_opt record.frs = some i
  children : index.ChildrenEnd

theorem MftIndex.Addressed.numbers_mapped {index : MftIndex} (h : index.Addressed) : index.Mapped := by
  intro frs i hmap
  obtain ⟨record, hrec, -⟩ := h.mapped hmap
  exact (List.getElem?_eq_some_iff.mp hrec).1

theorem Wf.addressed {index : MftIndex} (h : Wf index) : index.Addressed := ⟨h.mapped, h.found, h.closed.children⟩

/-- A system metafile that is left out. -/
def MftIndex.excluded (index : MftIndex) (include_system_metafiles : Bool) (idx : Nat) : Bool :=
  index.records[idx]?.any fun record =>
    !include_system_metafiles && decide (record.frs ≤ SYSTEM_METAFILE_MAX_FRS) && decide (record.frs ≠ ROOT_FRS)

/-- Records of the directory entries of a record. -/
def MftIndex.listed (index : MftIndex) (idx : Nat) : List Nat :=
  match index.records[idx]? with
  | none => []
  | some record => (index.child_entries record).filterMap fun child => index.frs_to_idx_opt child.child_frs

/-- Listed, directly or through others, below a system metafile that is left out, or one itself. -/
def MftIndex.Tainted (index : MftIndex) (include_system_metafiles : Bool) (idx : Nat) : Prop :=
  ∃ top, index.excluded include_system_metafiles top = true ∧ Under index.listed idx top

variable {state : List PathState} {include_system_metafiles : Bool}

section propagate

variable {index : MftIndex}

/-- Every state is one of the two that the propagation knows. -/
def Unclimbed (state : List PathState) : Prop := ∀ (i : Nat) (mark : PathState),
  state[i]? = some mark → mark = .unseen ∨ mark = .invalid

theorem Unclimbed.set (h : Unclimbed state) (idx : Nat) : Unclimbed (state.set idx .invalid) := by
  intro i mark hget
  rw [List.getElem?_set] at hget
  split at hget
  · split at hget
    · exact Or.inr (Option.some.inj hget).symm
    · cases hget
  · exact h i mark hget

/-- What the entries of one record do to the states and to the queue. -/
structure Invalidated (targets : Nat → Prop) (before after : List PathState × List Nat) : Prop where
  length : after.1.length = before.1.length
  unclimbed : Unclimbed after.1
  marks : ∀ i : Nat, after.1[i]? = some .invalid ↔ before.1[i]? = some .invalid ∨ targets i
  queued : ∀ i, i ∈ after.2 → i ∈ before.2 ∨ targets i
  fresh : ∀ i : Nat, after.1[i]? = some .invalid → before.1[i]? = some .invalid ∨ i ∈ after.2
  grows : ∀ i ∈ before.2, i ∈ after.2

theorem invalidate_child_spec (hmapped : index.Mapped)
    {acc : List PathState × List Nat} (hlen : acc.1.length = index.records.length) (hstate : Unclimbed acc.1)
    (child : ChildInfo) :
    Invalidated (fun i => index.frs_to_idx_opt child.child_frs = some i) acc (invalidate_child index acc child) := by
  rw [invalidate_child]
  split
  next hnone =>
    refine ⟨rfl, hstate, fun i => ?_, fun i hi => Or.inl hi, fun i hi => Or.inl hi, fun i hi => hi⟩
    simp [hnone]
  next child_idx hchild =>
    have hlt : child_idx < acc.1.length := hlen ▸ hmapped hchild
    have htarget : ∀ i, index.frs_to_idx_opt child.child_frs = some i ↔ child_idx = i := by
      intro i
      rw [hchild, Option.some.injEq]
    simp only [htarget]
    split
    next hunseen =>
      constructor
      · exact List.length_set
      · exact hstate.set child_idx
      · intro i
        rw [List.getElem?_set]
        by_cases hi : child_idx = i
        · simp [hi, hi ▸ hlt]
        · simp [hi]
      · intro i hi
        rcases List.mem_append.mp hi with hi | hi
        · exact Or.inl hi
        · exact Or.inr (List.mem_singleton.mp hi).symm
      · intro i hi
        rw [List.getElem?_set] at hi
        split at hi
        next heq => exact Or.inr (heq ▸ List.mem_append_right _ List.mem_cons_self)
        next => exact Or.inl hi
      · exact fun i hi => List.mem_append_left _ hi
    next hseen =>
      have hinvalid : acc.1[child_idx]? = some .invalid := by
        have hget : acc.1[child_idx]? = some acc.1[child_idx] := List.getElem?_eq_getElem hlt
        rcases hstate child_idx _ hget with hmark | hmark
        · exact absurd (hmark ▸ hget) hseen
        · exact hmark ▸ hget
      refine ⟨rfl, hstate, fun i => ?_, fun i hi => Or.inl hi, fun i hi => Or.inl hi, fun i hi => hi⟩
      constructor
      · exact Or.inl
      · rintro (hi | rfl)
        · exact hi
        · exact hinvalid

theorem invalidate_children_spec (hmapped : index.Mapped)
    (children : List ChildInfo) {acc : List PathState × List Nat} (hlen : acc.1.length = index.records.length)
    (hstate : Unclimbed acc.1) :
    Invalidated (fun i => i ∈ children.filterMap fun child => index.frs_to_idx_opt child.child_frs) acc
      (children.foldl (invalidate_child index) acc) := by
  induction children generalizing acc with
  | nil => exact ⟨rfl, hstate, fun i => by simp, fun i hi => Or.inl hi, fun i hi => Or.inl hi, fun i hi => hi⟩
  | cons child children ih =>
    have hone := invalidate_child_spec hmapped hlen hstate child
    have hrest := ih (hone.length.trans hlen) hone.unclimbed
    have hmem : ∀ i, (i ∈ (child :: children).filterMap fun child => index.frs_to_idx_opt child.child_frs) ↔
        index.frs_to_idx_opt child.child_frs = some i ∨
          i ∈ children.filterMap fun child => index.frs_to_idx_opt child.child_frs := by
      intro i
      simp [List.mem_filterMap]
    rw [List.foldl_cons]
    constructor
    · exact hrest.length.trans hone.length
    · exact hrest.unclimbed
    · intro i
      rw [hrest.marks, hone.marks, hmem, or_assoc]
    · intro i hi
      rw [hmem]
      rcases hrest.queued i hi with hi | hi
      · exact (hone.queued i hi).imp_right Or.inl
      · exact Or.inr (Or.inr hi)
    · intro i hi
      rcases hrest.fresh i hi with hi | hi
      · exact (hone.fresh i hi).imp_right (hrest.grows i)
      · exact Or.inr hi
    · exact fun i hi => hrest.grows i (hone.grows i hi)

/-- What holds between two records of the propagation. -/
structure Propagating (index : MftIndex) (include_system_metafiles : Bool) (queue : List Nat) (state : List PathState) : Prop where
  length : state.length = index.records.length
  unclimbed : Unclimbed state
  tainted : ∀ i : Nat, state[i]? = some .invalid → index.Tainted include_system_metafiles i
  tops : ∀ i : Nat, index.excluded include_system_metafiles i = true → state[i]? = some .invalid
  queue_marked : ∀ i ∈ queue, state[i]? = some .invalid
  spread : ∀ i : Nat, state[i]? = some .invalid → i ∈ queue ∨ ∀ c ∈ index.listed i, state[c]? = some .invalid

/-- Visiting one record marks the entries below it and queues the new ones. -/
theorem Propagating.step (hmapped : index.Mapped) {parent_idx : Nat} {queue : List Nat}
    (h : Propagating index include_system_metafiles (parent_idx :: queue) state) {record : FileRecord}
    (hrec : index.records[parent_idx]? = some record) :
    Propagating index include_system_metafiles
      (queue ++ ((index.child_entries record).foldl (invalidate_child index) (state, [])).2)
      ((index.child_entries record).foldl (invalidate_child index) (state, [])).1 := by
  have hspec := @invalidate_children_spec index hmapped (index.child_entries record) (state, []) h.length h.unclimbed
  have hlisted : index.listed parent_idx =
      (index.child_entries record).filterMap fun child => index.frs_to_idx_opt child.child_frs := by
    rw [MftIndex.listed, hrec]
  rw [← hlisted] at hspec
  have hparent := h.queue_marked parent_idx List.mem_cons_self
  constructor
  · exact hspec.length.trans h.length
  · exact hspec.unclimbed
  · intro i hi
    rcases (hspec.marks i).mp hi with hi | hi
    · exact h.tainted i hi
    · obtain ⟨top, htop, hunder⟩ := h.tainted parent_idx hparent
      exact ⟨top, htop, hunder.head hi⟩
  · exact fun i hi => (hspec.marks i).mpr (Or.inl (h.tops i hi))
  · intro i hi
    rcases List.mem_append.mp hi with hi | hi
    · exact (hspec.marks i).mpr (Or.inl (h.queue_marked i (List.mem_cons_of_mem _ hi)))
    · rcases hspec.queued i hi with hnil | hi
      · cases hnil
      · exact (hspec.marks i).mpr (Or.inr hi)
  · intro i hi
    rcases hspec.fresh i hi with hi | hi
    · rcases h.spread i hi with hqueued | hspread
      · rcases List.mem_cons.mp hqueued with rfl | hqueued
        · exact Or.inr fun c hc => (hspec.marks c).mpr (Or.inr hc)
        · exact Or.inl (List.mem_append_left _ hqueued)
      · exact Or.inr fun c hc => (hspec.marks c).mpr (Or.inl (hspread c hc))
    · exact Or.inl (List.mem_append_right _ hi)

/-- With the queue empty, all below what is marked is marked. -/
theorem Propagating.done (h : Propagating index include_system_metafiles [] state) (i : Nat) :
    state[i]? = some .invalid ↔ index.Tainted include_system_metafiles i := by
  refine ⟨h.tainted i, ?_⟩
  rintro ⟨top, htop, hunder⟩
  induction hunder using Relation.ReflTransGen.head_induction_on with
  | refl => exact h.tops top htop
  | @head c p hlisted _ ih =>
    rcases h.spread p ih with hqueued | hspread
    · cases hqueued
    · exact hspread c hlisted

/-- The loop ends with every marked record spread. -/
theorem Propagating.run (hmapped : index.Mapped) {work : Nat} {queue : List Nat}
    (h : Propagating index include_system_metafiles queue state) (hwork : queue.length + unseen_count state ≤ work) :
    Propagating index include_system_metafiles [] (propagate_invalid index work queue state) := by
  induction work generalizing queue state with
  | zero =>
    obtain rfl : queue = [] := List.length_eq_zero_iff.mp (by omega)
    exact h
  | succ work ih =>
    cases queue with
    | nil => exact h
    | cons parent_idx queue =>
      rw [propagate_invalid]
      obtain ⟨hlt, -⟩ := List.getElem?_eq_some_iff.mp (h.queue_marked parent_idx List.mem_cons_self)
      rw [h.length] at hlt
      have hrec := List.getElem?_eq_getElem hlt
      rw [hrec]
      apply ih (h.step hmapped hrec)
      have hcount := @invalidate_children_count index (index.child_entries index.records[parent_idx]) (state, [])
      dsimp only [List.length_nil] at hcount
      rw [List.length_cons] at hwork
      rw [List.length_append]
      omega

theorem start_state_eq (include_system_metafiles : Bool) (i : Nat) :
    (start_states index include_system_metafiles)[i]? =
      index.records[i]?.map fun _ => if index.excluded include_system_metafiles i then .invalid else .unseen := by
  unfold start_states MftIndex.excluded mark_system_metafiles_invalid
  cases include_system_metafiles with
  | true =>
    rw [if_pos rfl, List.getElem?_map]
    cases index.records[i]? <;> simp
  | false =>
    rw [if_neg Bool.false_ne_true, List.getElem?_map]
    cases index.records[i]? <;> simp

theorem propagating_start (include_system_metafiles : Bool) :
    Propagating index include_system_metafiles
      ((List.range (start_states index include_system_metafiles).length).filter fun idx =>
        (start_states index include_system_metafiles)[idx]? = some .invalid)
      (start_states index include_system_metafiles) := by
  have hmark : ∀ i : Nat, (start_states index include_system_metafiles)[i]? = some .invalid ↔
      index.excluded include_system_metafiles i = true := by
    intro i
    rw [start_state_eq]
    cases hrec : index.records[i]? with
    | none => simp [MftIndex.excluded, hrec]
    | some record => cases index.excluded include_system_metafiles i <;> simp
  constructor
  · exact start_states_length include_system_metafiles
  · intro i mark hget
    rw [start_state_eq, Option.map_eq_some_iff] at hget
    obtain ⟨-, -, rfl⟩ := hget
    split
    · exact Or.inr rfl
    · exact Or.inl rfl
  · exact fun i hi => ⟨i, (hmark i).mp hi, Relation.ReflTransGen.refl⟩
  · exact fun i hi => (hmark i).mpr hi
  · intro i hi
    exact of_decide_eq_true (List.mem_filter.mp hi).2
  · intro i hi
    refine Or.inl (List.mem_filter.mpr ⟨List.mem_range.mpr ?_, decide_eq_true hi⟩)
    exact (List.getElem?_eq_some_iff.mp hi).1

/-- The propagation marks what is listed below system metafiles that are left out, and nothing else. -/
theorem propagated (hmapped : index.Mapped)
    (include_system_metafiles : Bool) :
    Propagating index include_system_metafiles []
      (propagate_invalid_to_descendants index (start_states index include_system_metafiles)) := by
  apply (propagating_start include_system_metafiles).run hmapped
  exact (invalid_unseen_le _).trans_eq (start_states_length include_system_metafiles)

end propagate

/-- The record of the parent that a parent chain goes on with. -/
def MftIndex.next_up (index : MftIndex) (idx : Nat) : Option Nat :=
  index.records[idx]?.bind fun record =>
    let parent_frs := record.first_name.parent_frs
    if parent_frs = ROOT_FRS ∨ parent_frs = record.frs ∨ parent_frs = NO_ENTRY.toUInt64 then none
    else index.frs_to_idx_opt parent_frs

/-- A record in the root, or the root itself. -/
def MftIndex.at_root (index : MftIndex) (idx : Nat) : Bool :=
  index.records[idx]?.any fun record =>
    let parent_frs := record.first_name.parent_frs
    parent_frs == ROOT_FRS || (parent_frs == record.frs || parent_frs == NO_ENTRY.toUInt64) && record.frs == ROOT_FRS

/-- The parent chain reaches the root, without a cycle or a missing parent, past records that are to be
trusted. -/
def MftIndex.ReachesRoot (index : MftIndex) (trusted : Nat → Prop) (idx : Nat) : Prop :=
  Rooted index.next_up (fun i => index.at_root i = true) trusted idx

section climb

variable {index : MftIndex}

theorem next_up_of_at_root (i : Nat) (h : index.at_root i = true) : index.next_up i = none := by
  unfold MftIndex.at_root at h
  unfold MftIndex.next_up
  cases hrec : index.records[i]? with
  | none => rfl
  | some record =>
    rw [hrec] at h
    rw [Option.bind_some]
    apply if_pos
    simp only [Option.any_some, Bool.or_eq_true, Bool.and_eq_true, beq_iff_eq] at h
    tauto

/-- The records a valid path leads through. -/
def MftIndex.Clean (index : MftIndex) (include_system_metafiles : Bool) (idx : Nat) : Prop :=
  index.ReachesRoot (fun i => ¬ index.Tainted include_system_metafiles i) idx

theorem clean_iff_of_up {i p : Nat} (htrusted : ¬ index.Tainted include_system_metafiles i) (hup : index.next_up i = some p) :
    index.Clean include_system_metafiles i ↔ index.Clean include_system_metafiles p :=
  rooted_iff_of_up next_up_of_at_root htrusted hup

theorem ReachesRoot.lt_length {trusted : Nat → Prop} {i : Nat} (h : index.ReachesRoot trusted i) : i < index.records.length := by
  have hrec : ∃ record, index.records[i]? = some record := by
    cases h with
    | top _ htop =>
      rw [MftIndex.at_root, Option.any_eq_true] at htop
      obtain ⟨record, hrec, -⟩ := htop
      exact ⟨record, hrec⟩
    | up _ hup _ =>
      obtain ⟨record, hrec, -⟩ := Option.bind_eq_some_iff.mp hup
      exact ⟨record, hrec⟩
  obtain ⟨record, hrec⟩ := hrec
  exact (List.getElem?_eq_some_iff.mp hrec).1

/-- States that say what they should. -/
structure StatesSound (index : MftIndex) (include_system_metafiles : Bool) (state : List PathState) : Prop where
  length : state.length = index.records.length
  valid : ∀ i : Nat, state[i]? = some .valid → index.Clean include_system_metafiles i
  invalid : ∀ i : Nat, state[i]? = some .invalid → ¬ index.Clean include_system_metafiles i
  unseen : ∀ i : Nat, state[i]? = some .unseen → ¬ index.Tainted include_system_metafiles i

variable {current_idx : Nat} {chain : List Nat} {final_state : PathState}

theorem StatesSound.visit (h : StatesSound index include_system_metafiles state) (idx : Nat) :
    StatesSound index include_system_metafiles (state.set idx .visiting) := by
  have hget : ∀ (i : Nat) (mark : PathState), mark ≠ .visiting → (state.set idx .visiting)[i]? = some mark →
      state[i]? = some mark := by
    intro i mark hmark hi
    rw [List.getElem?_set] at hi
    split at hi
    · split at hi
      · exact absurd (Option.some.inj hi).symm hmark
      · cases hi
    · exact hi
  constructor
  · exact List.length_set.trans h.length
  · exact fun i hi => h.valid i (hget i _ (by decide) hi)
  · exact fun i hi => h.invalid i (hget i _ (by decide) hi)
  · exact fun i hi => h.unseen i (hget i _ (by decide) hi)

/-- What holds at each step of a climb: the records on the way stand and fall with the present one. -/
structure Climbing (index : MftIndex) (include_system_metafiles : Bool) (current_idx : Nat) (state : List PathState)
    (chain : List Nat) : Prop where
  sound : StatesSound index include_system_metafiles state
  visiting : ∀ i : Nat, state[i]? = some .visiting → i ∈ chain
  same : ∀ i ∈ chain, index.Clean include_system_metafiles i ↔ index.Clean include_system_metafiles current_idx
  above : ∀ i ∈ chain, Relation.TransGen (Climbs index.next_up) i current_idx

/-- What a climb leaves. -/
structure Climbed (index : MftIndex) (include_system_metafiles : Bool) (current_idx : Nat) (before : List PathState)
    (chain : List Nat) (after : List PathState × List Nat × PathState) : Prop where
  sound : StatesSound index include_system_metafiles after.1
  visiting : ∀ i : Nat, after.1[i]? = some .visiting → i ∈ after.2.1
  decided : after.2.2 = .valid ∨ after.2.2 = .invalid
  final : ∀ i ∈ after.2.1, index.Clean include_system_metafiles i ↔ after.2.2 = .valid
  unseen : ∀ i : Nat, after.1[i]? = some .unseen → before[i]? = some .unseen
  extends_chain : ∀ i ∈ chain, i ∈ after.2.1
  seen : before[current_idx]? = some .unseen → current_idx ∈ after.2.1

section

variable (h : Climbing index include_system_metafiles current_idx state chain)

include h

/-- The climb ends at a record of which it is known whether its path is valid. -/
theorem Climbing.stop (hseen : state[current_idx]? ≠ some .unseen) (hdecided : final_state = .valid ∨ final_state = .invalid)
    (hfinal : index.Clean include_system_metafiles current_idx ↔ final_state = .valid) :
    Climbed index include_system_metafiles current_idx state chain (state, chain, final_state) where
  sound := h.sound
  visiting := h.visiting
  decided := hdecided
  final i hi := (h.same i hi).trans hfinal
  unseen _ hi := hi
  extends_chain _ hi := hi
  seen hunseen := absurd hunseen hseen

/-- It comes to a record that it has not seen. -/
theorem Climbing.mark (i : Nat) (hi : (state.set current_idx .visiting)[i]? = some .visiting) : i ∈ chain ++ [current_idx] := by
  rw [List.getElem?_set] at hi
  split at hi
  next heq => exact heq ▸ List.mem_append_right _ List.mem_cons_self
  next => exact List.mem_append_left _ (h.visiting i hi)

/-- The climb ends at a record that it has not seen before. -/
theorem Climbing.stop_here (hdecided : final_state = .valid ∨ final_state = .invalid)
    (hfinal : index.Clean include_system_metafiles current_idx ↔ final_state = .valid) :
    Climbed index include_system_metafiles current_idx state chain
      (state.set current_idx .visiting, chain ++ [current_idx], final_state) where
  sound := h.sound.visit current_idx
  visiting := h.mark
  decided := hdecided
  final i hi := by
    rcases List.mem_append.mp hi with hi | hi
    · exact (h.same i hi).trans hfinal
    · exact List.mem_singleton.mp hi ▸ hfinal
  unseen i hi := by
    rw [List.getElem?_set] at hi
    split at hi
    · split at hi <;> cases hi
    · exact hi
  extends_chain i hi := List.mem_append_left _ hi
  seen _ := List.mem_append_right _ List.mem_cons_self

end

/-- The climb goes on with the parent. -/
theorem Climbing.up {current_idx parent_idx : Nat} {chain : List Nat}
    (h : Climbing index include_system_metafiles current_idx state chain) (hunseen : state[current_idx]? = some .unseen)
    (hup : index.next_up current_idx = some parent_idx) :
    Climbing index include_system_metafiles parent_idx (state.set current_idx .visiting) (chain ++ [current_idx]) := by
  have hsame := clean_iff_of_up (h.sound.unseen current_idx hunseen) hup
  constructor
  · exact h.sound.visit current_idx
  · exact h.mark
  · intro i hi
    rcases List.mem_append.mp hi with hi | hi
    · exact (h.same i hi).trans hsame
    · exact List.mem_singleton.mp hi ▸ hsame
  · intro i hi
    rcases List.mem_append.mp hi with hi | hi
    · exact (h.above i hi).tail hup
    · exact List.mem_singleton.mp hi ▸ Relation.TransGen.single hup

theorem not_clean_of_stuck {i : Nat} (hroot : index.at_root i = false) (hup : index.next_up i = none) :
    ¬ index.Clean include_system_metafiles i := by
  intro h
  cases h with
  | top _ htop => exact Bool.false_ne_true (hroot.symm.trans htop)
  | up _ hup' _ => exact Option.some_ne_none _ (hup'.symm.trans hup)

/-- A climb tells whether the records on its way have valid paths. -/
theorem climb_spec {fuel current_idx : Nat} (h : Climbing index include_system_metafiles current_idx state chain)
    (hfuel : unseen_count state < fuel) (hcurrent : current_idx < index.records.length)
    (hmapped : index.Mapped) :
    Climbed index include_system_metafiles current_idx state chain (climb index fuel current_idx state chain) := by
  induction fuel generalizing current_idx state chain with
  | zero => exact absurd hfuel (Nat.not_lt_zero _)
  | succ fuel ih =>
    obtain ⟨mark, hmark⟩ : ∃ mark, state[current_idx]? = some mark :=
      ⟨_, List.getElem?_eq_getElem (h.sound.length.symm ▸ hcurrent)⟩
    rw [climb, hmark]
    cases mark with
    | valid =>
      apply h.stop (by rw [hmark]; decide) (Or.inl rfl)
      exact iff_of_true (h.sound.valid current_idx hmark) rfl
    | invalid =>
      apply h.stop (by rw [hmark]; decide) (Or.inr rfl)
      exact iff_of_false (h.sound.invalid current_idx hmark) (by decide)
    | visiting =>
      -- the climb has come back to a record on its way
      apply h.stop (by rw [hmark]; decide) (Or.inr rfl)
      refine iff_of_false (fun hclean => ?_) (by decide)
      exact hclean.no_cycle next_up_of_at_root (h.above current_idx (h.visiting current_idx hmark))
    | unseen =>
      have hrec := List.getElem?_eq_getElem hcurrent
      have htrusted := h.sound.unseen current_idx hmark
      rw [hrec]
      dsimp only
      split
      next hroot =>
        apply h.stop_here (Or.inl rfl)
        refine iff_of_true (Rooted.top htrusted ?_) rfl
        simp [MftIndex.at_root, hrec, hroot]
      next hroot =>
        split
        next hself =>
          have hup : index.next_up current_idx = none := by
            rw [MftIndex.next_up, hrec, Option.bind_some]
            exact if_pos (Or.inr hself)
          split
          next hfrs =>
            apply h.stop_here (Or.inl rfl)
            refine iff_of_true (Rooted.top htrusted ?_) rfl
            simp only [MftIndex.at_root, hrec, Option.any_some, Bool.or_eq_true, Bool.and_eq_true, beq_iff_eq]
            exact Or.inr ⟨hself, hfrs⟩
          next hfrs =>
            apply h.stop_here (Or.inr rfl)
            refine iff_of_false (not_clean_of_stuck ?_ hup) (by decide)
            simp [MftIndex.at_root, hrec, hroot, hfrs]
        next hself =>
          have hup : index.next_up current_idx = index.frs_to_idx_opt index.records[current_idx].first_name.parent_frs := by
            rw [MftIndex.next_up, hrec, Option.bind_some]
            exact if_neg (not_or.mpr ⟨hroot, hself⟩)
          cases hparent : index.frs_to_idx_opt index.records[current_idx].first_name.parent_frs with
          | none =>
            apply h.stop_here (Or.inr rfl)
            refine iff_of_false (not_clean_of_stuck ?_ (hup.trans hparent)) (by decide)
            rw [not_or] at hself
            simp [MftIndex.at_root, hrec, hroot, hself]
          | some parent_idx =>
            have hcount := @count_set_unseen _ _ hmark .visiting (by decide)
            have hrest := ih (h.up hmark (hup.trans hparent)) (by omega) (hmapped hparent)
            constructor
            · exact hrest.sound
            · exact hrest.visiting
            · exact hrest.decided
            · exact hrest.final
            · intro i hi
              have hset := hrest.unseen i hi
              rw [List.getElem?_set] at hset
              split at hset
              · split at hset <;> cases hset
              · exact hset
            · exact fun i hi => hrest.extends_chain i (List.mem_append_left _ hi)
            · exact fun _ => hrest.extends_chain current_idx (List.mem_append_right _ List.mem_cons_self)

theorem mark_chain_eq (final_state : PathState) (chain : List Nat) (state : List PathState) (i : Nat) :
    (chain.foldl (fun s chain_idx => s.set chain_idx final_state) state)[i]? =
      if i ∈ chain ∧ i < state.length then some final_state else state[i]? := by
  induction chain generalizing state with
  | nil => simp
  | cons chain_idx chain ih =>
    rw [List.foldl_cons, ih, List.length_set, List.getElem?_set]
    by_cases hlt : i < state.length
    · by_cases hi : chain_idx = i
      · simp [hi, hlt]
      · simp [hlt, hi, Ne.symm hi]
    · have hnone : state[i]? = none := List.getElem?_eq_none (Nat.le_of_not_lt hlt)
      by_cases hi : chain_idx = i
      · simp [hi, hlt]
      · simp [hlt, hi]

/-- States between two records of the pass. -/
structure Passing (index : MftIndex) (include_system_metafiles : Bool) (state : List PathState) : Prop where
  sound : StatesSound index include_system_metafiles state
  no_visiting : ∀ i : Nat, state[i]? ≠ some .visiting

theorem mark_chain_length (final_state : PathState) (chain : List Nat) (state : List PathState) :
    (chain.foldl (fun s chain_idx => s.set chain_idx final_state) state).length = state.length := by
  induction chain generalizing state with
  | nil => rfl
  | cons chain_idx chain ih => rw [List.foldl_cons, ih, List.length_set]

/-- All records on the way get the state in which the climb ended. -/
theorem Climbed.settle {before after : List PathState}
    (h : Climbed index include_system_metafiles current_idx before [] (after, chain, final_state)) :
    Passing index include_system_metafiles (chain.foldl (fun s chain_idx => s.set chain_idx final_state) after) := by
  have hmark := mark_chain_eq final_state chain after
  have hget : ∀ (i : Nat) (mark : PathState),
      (chain.foldl (fun s chain_idx => s.set chain_idx final_state) after)[i]? = some mark →
        i ∈ chain ∧ final_state = mark ∨ i ∉ chain ∧ after[i]? = some mark := by
    intro i mark hi
    rw [hmark] at hi
    split at hi
    next hon => exact Or.inl ⟨hon.1, Option.some.inj hi⟩
    next hoff =>
      refine Or.inr ⟨fun hmem => hoff ⟨hmem, ?_⟩, hi⟩
      exact (List.getElem?_eq_some_iff.mp hi).1
  have hdecided := h.decided
  refine ⟨⟨(mark_chain_length final_state chain after).trans h.sound.length, fun i hi => ?_, fun i hi => ?_, fun i hi => ?_⟩, ?_⟩
  · rcases hget i _ hi with ⟨hmem, heq⟩ | ⟨-, hi⟩
    · exact (h.final i hmem).mpr heq
    · exact h.sound.valid i hi
  · rcases hget i _ hi with ⟨hmem, heq⟩ | ⟨-, hi⟩
    · intro hclean
      have hvalid : final_state = .valid := (h.final i hmem).mp hclean
      rw [heq] at hvalid
      cases hvalid
    · exact h.sound.invalid i hi
  · rcases hget i _ hi with ⟨-, heq⟩ | ⟨-, hi⟩
    · subst heq
      rcases hdecided with hvalid | hinvalid
      · cases hvalid
      · cases hinvalid
    · exact h.sound.unseen i hi
  · intro i hi
    rcases hget i _ hi with ⟨-, heq⟩ | ⟨hmem, hi⟩
    · subst heq
      rcases hdecided with hvalid | hinvalid
      · cases hvalid
      · cases hinvalid
    · exact hmem (h.visiting i hi)

section

variable (hmapped : index.Mapped)

include hmapped

/-- One record of the pass. -/
theorem Passing.one (h : Passing index include_system_metafiles state) {start_idx : Nat}
    (hstart : start_idx < index.records.length) :
    Passing index include_system_metafiles (validate_one index state start_idx) ∧
      ∀ i : Nat, (validate_one index state start_idx)[i]? = some .unseen → state[i]? = some .unseen ∧ i ≠ start_idx := by
  rw [validate_one]
  split
  next hunseen =>
    have hbegin : Climbing index include_system_metafiles start_idx state [] := by
      refine ⟨h.sound, fun i hi => absurd hi (h.no_visiting i), ?_, ?_⟩
      · exact fun i hi => absurd hi List.not_mem_nil
      · exact fun i hi => absurd hi List.not_mem_nil
    have hfuel : unseen_count state < index.records.length + 1 := by
      have hcount := unseen_count_le state
      rw [h.sound.length] at hcount
      exact Nat.lt_succ_of_le hcount
    have hspec := climb_spec hbegin hfuel hstart hmapped
    rcases hclimb : climb index (index.records.length + 1) start_idx state [] with ⟨after, chain, final_state⟩
    rw [hclimb] at hspec
    refine ⟨hspec.settle, fun i hi => ?_⟩
    have hdecided := hspec.decided
    rw [mark_chain_eq] at hi
    split at hi
    · rw [Option.some.inj hi] at hdecided
      rcases hdecided with hvalid | hinvalid
      · cases hvalid
      · cases hinvalid
    next hoff =>
      refine ⟨hspec.unseen i hi, ?_⟩
      rintro rfl
      exact hoff ⟨hspec.seen hunseen, (List.getElem?_eq_some_iff.mp hi).1⟩
  next hseen =>
    refine ⟨h, fun i hi => ⟨hi, ?_⟩⟩
    rintro rfl
    exact hseen hi

/-- The whole pass. -/
theorem Passing.all {starts : List Nat} (hstarts : ∀ start_idx ∈ starts, start_idx < index.records.length)
    (h : Passing index include_system_metafiles state) :
    Passing index include_system_metafiles (starts.foldl (validate_one index) state) ∧
      ∀ i : Nat, (starts.foldl (validate_one index) state)[i]? = some .unseen → state[i]? = some .unseen ∧ i ∉ starts := by
  induction starts generalizing state with
  | nil => exact ⟨h, fun i hi => ⟨hi, List.not_mem_nil⟩⟩
  | cons start_idx starts ih =>
    obtain ⟨hone, hless⟩ := h.one hmapped (hstarts start_idx List.mem_cons_self)
    obtain ⟨hall, hrest⟩ := ih (fun i hi => hstarts i (List.mem_cons_of_mem _ hi)) hone
    refine ⟨hall, fun i hi => ?_⟩
    obtain ⟨hunseen, hnot⟩ := hrest i hi
    obtain ⟨hbefore, hne⟩ := hless i hunseen
    exact ⟨hbefore, fun hmem => (List.mem_cons.mp hmem).elim hne hnot⟩

end

/-- Records are marked valid exactly if their parent chain reaches the root through records that are
not listed below system metafiles that are left out. -/
theorem valid_iff_clean (hmapped : index.Mapped)
    (include_system_metafiles : Bool) (idx : Nat) :
    PathResolver.is_valid_idx
        (validate_remaining index (propagate_invalid_to_descendants index (start_states index include_system_metafiles))) idx =
          true ↔
      index.Clean include_system_metafiles idx := by
  have hprop := @propagated index hmapped include_system_metafiles
  have hbegin : Passing index include_system_metafiles
      (propagate_invalid_to_descendants index (start_states index include_system_metafiles)) := by
    constructor
    · constructor
      · exact hprop.length
      · intro i hi
        rcases hprop.unclimbed i _ hi with hmark | hmark <;> cases hmark
      · exact fun i hi hclean => hclean.trusted ((hprop.done i).mp hi)
      · intro i hi htainted
        have hmarked := (hprop.done i).mpr htainted
        rw [hi] at hmarked
        cases hmarked
    · intro i hi
      rcases hprop.unclimbed i _ hi with hmark | hmark <;> cases hmark
  obtain ⟨hpass, hseen⟩ := hbegin.all hmapped (fun i hi => List.mem_range.mp hi)
  rw [PathResolver.is_valid_idx, beq_iff_eq]
  unfold validate_remaining
  refine ⟨hpass.sound.valid idx, fun hclean => ?_⟩
  have hlt := ReachesRoot.lt_length hclean
  cases hmark : (((List.range index.records.length).foldl (validate_one index)
      (propagate_invalid_to_descendants index (start_states index include_system_metafiles)))[idx]?) with
  | none =>
    rw [List.getElem?_eq_none_iff, hpass.sound.length] at hmark
    omega
  | some mark =>
    cases mark with
    | valid => rfl
    | invalid => exact absurd hclean (hpass.sound.invalid idx hmark)
    | visiting => exact absurd hmark (hpass.no_visiting idx)
    | unseen => exact absurd (List.mem_range.mpr hlt) (hseen idx hmark).2

end climb

end uffs.mft
