import Uffs.Compact.PathTree
import Uffs.Lib.Worklist

open uffs.lib uffs.mft

namespace uffs.compact

/-- The stored path length of a slot, 0 out of range. -/
def len_at (records : List CompactRecord) (idx : UInt32) : Nat :=
  ((records[idx.toNat]?.map CompactRecord.path_len).getD 0).toNat

/-- The path length of a slot by its chain of parents, whatever the rows store. -/
inductive HasLen (names : List UInt8) (records : List CompactRecord) : UInt32 → Nat → Prop where
  | root {idx : UInt32} {rec : CompactRecord} (hget : records[idx.toNat]? = some rec)
      (hroot : rec.parent_idx = NO_ENTRY) : HasLen names records idx (root_path_len rec names)
  | child {idx : UInt32} {rec : CompactRecord} {len : Nat} (hget : records[idx.toNat]? = some rec)
      (hparent : rec.parent_idx ≠ NO_ENTRY) (h : HasLen names records rec.parent_idx len) :
      HasLen names records idx (len + 1 + name_char_count rec names)

/-- The live rows form a forest, and no path is too long for 16 bits. -/
structure Forest (names : List UInt8) (records : List CompactRecord) : Prop where
  rooted : ∀ (idx : UInt32) rec, records[idx.toNat]? = some rec → rec.Live → Rooted records idx
  live_parent : ∀ (idx : UInt32) rec parent, records[idx.toNat]? = some rec → rec.Live → parent_of records idx = some parent →
    ∃ row, records[parent.toNat]? = some row ∧ row.Live
  short : ∀ (idx : UInt32) rec len, records[idx.toNat]? = some rec → rec.Live → HasLen names records idx len → len < UInt16.size

/-- The length a row should store, given those stored in its column. -/
def due_len (names : List UInt8) (records : List CompactRecord) (rec : CompactRecord) : Nat :=
  if rec.parent_idx = NO_ENTRY then root_path_len rec names else len_at records rec.parent_idx + 1 + name_char_count rec names

/-- A slot stores exactly the length that follows from its parent. -/
def Exact (names : List UInt8) (records : List CompactRecord) (idx : UInt32) : Prop :=
  ∃ rec, records[idx.toNat]? = some rec ∧ len_at records idx = due_len names records rec

variable {names : List UInt8} {records : List CompactRecord} {rec : CompactRecord} {idx : UInt32}

theorem len_at_of_get (hget : records[idx.toNat]? = some rec) :
    len_at records idx = rec.path_len.toNat := by
  rw [len_at, hget, Option.map_some, Option.getD_some]

theorem path_len_from_parent_eq (hget : records[idx.toNat]? = some rec) :
    path_len_from_parent records names idx = due_len names records rec := by
  rw [path_len_from_parent, hget]
  dsimp only [due_len, child_path_len, len_at]

theorem due_len_of_core {rec' : CompactRecord} (h : rec.core = rec'.core) :
    due_len names records rec = due_len names records rec' := by
  rw [due_len, due_len, parent_idx_of_core h, root_path_len_of_core h, name_char_count_of_core h]

variable {state : List CompactRecord}

/-- Exactness of a slot in a column that differs in path lengths only. -/
theorem exact_iff (hcore : SameCore records state) (hget : records[idx.toNat]? = some rec) :
    Exact names state idx ↔ len_at state idx = due_len names state rec := by
  obtain ⟨row, hrow, hrec⟩ := hcore.symm.exists_core hget
  constructor
  · rintro ⟨row', hrow', hlen⟩
    cases hrow.symm.trans hrow'
    rw [hlen, due_len_of_core hrec]
  · intro hlen
    exact ⟨row, hrow, by rw [hlen, due_len_of_core hrec]⟩

theorem Rooted.hasLen (h : Rooted records idx) : ∃ len, HasLen names records idx len := by
  induction h with
  | root hget hroot => exact ⟨_, HasLen.root hget hroot⟩
  | child hparent _ ih =>
    obtain ⟨rec, hget, hne, rfl⟩ := parent_of_eq_some.mp hparent
    obtain ⟨len, hlen⟩ := ih
    exact ⟨_, HasLen.child hget hne hlen⟩

/-- Where all live rows are exact, they store the length of their path. -/
theorem Forest.len_at_eq (h : Forest names records) (hcore : SameCore records state)
    (hexact : ∀ (idx : UInt32) rec, records[idx.toNat]? = some rec → rec.Live → Exact names state idx) {len : Nat}
    (hlen : HasLen names records idx len) (hget : records[idx.toNat]? = some rec) (hlive : rec.Live) :
    len_at state idx = len := by
  induction hlen generalizing rec with
  | @root idx rec' hget' hroot =>
    cases hget'.symm.trans hget
    rw [(exact_iff hcore hget).mp (hexact idx _ hget hlive), due_len, if_pos hroot]
  | @child idx rec' len hget' hparent _ ih =>
    cases hget'.symm.trans hget
    obtain ⟨row, hrow, hrowLive⟩ := h.live_parent idx _ _ hget hlive (parent_of_eq_some.mpr ⟨_, hget, hparent, rfl⟩)
    rw [(exact_iff hcore hget).mp (hexact idx _ hget hlive), due_len, if_neg hparent, ih hrow hrowLive]

theorem hasLen_of_core (hcore : SameCore records state) {len : Nat} (h : HasLen names records idx len) :
    HasLen names state idx len := by
  induction h with
  | root hget hroot =>
    obtain ⟨row, hrow, hrec⟩ := hcore.symm.exists_core hget
    rw [← root_path_len_of_core hrec]
    exact HasLen.root hrow ((parent_idx_of_core hrec).trans hroot)
  | child hget hparent _ ih =>
    obtain ⟨row, hrow, hrec⟩ := hcore.symm.exists_core hget
    rw [← parent_idx_of_core hrec] at hparent ih
    rw [← name_char_count_of_core hrec]
    exact HasLen.child hrow hparent ih

theorem Forest.of_core (h : Forest names records) (hcore : SameCore records state) :
    Forest names state where
  rooted := by
    intro idx rec hget hlive
    obtain ⟨row, hrow, hrec⟩ := hcore.exists_core hget
    exact rooted_of_core hcore (h.rooted idx row hrow ((live_of_core hrec).mpr hlive))
  live_parent := by
    intro idx rec parent hget hlive hparent
    obtain ⟨row, hrow, hrec⟩ := hcore.exists_core hget
    rw [parent_of_core hcore] at hparent
    obtain ⟨up, hup, hupLive⟩ := h.live_parent idx row parent hrow ((live_of_core hrec).mpr hlive) hparent
    obtain ⟨up', hup', hcore'⟩ := hcore.symm.exists_core hup
    exact ⟨up', hup', (live_of_core hcore').mpr hupLive⟩
  short := by
    intro idx rec len hget hlive hlen
    obtain ⟨row, hrow, hrec⟩ := hcore.exists_core hget
    exact h.short idx row len hrow ((live_of_core hrec).mpr hlive) (hasLen_of_core hcore.symm hlen)

/-- A slot in step whose due length fits stores it. -/
theorem InStep.len_at_eq (hcore : SameCore records state) (h : InStep names state idx)
    (hget : records[idx.toNat]? = some rec) (hshort : due_len names state rec < UInt16.size) :
    len_at state idx = due_len names state rec := by
  obtain ⟨row, hrow, hlen⟩ := h
  obtain ⟨rec', hget', hrec⟩ := hcore.exists_core hrow
  cases hget.symm.trans hget'
  rw [len_at_of_get hrow, hlen, path_len_from_parent_eq hrow, ← due_len_of_core hrec, len_to_u16_toNat hshort]

/-- A full recomputation makes every live row of a forest exact. -/
theorem Forest.compute_exact (h : Forest names records) (hsize : records.length ≤ UInt32.size)
    (hget : records[idx.toNat]? = some rec) (hlive : rec.Live) : Exact names (compute_path_lengths records names) idx := by
  have hcore := sameCore_compute_path_lengths records names
  have hstep : ∀ {idx : UInt32} {rec}, records[idx.toNat]? = some rec → rec.Live →
      InStep names (compute_path_lengths records names) idx :=
    fun hget hlive => compute_path_lengths_inStep hsize (h.rooted _ _ hget hlive)
  have hstored : ∀ {idx len}, HasLen names records idx len → ∀ {rec}, records[idx.toNat]? = some rec → rec.Live →
      due_len names (compute_path_lengths records names) rec = len := by
    intro idx len hlen
    induction hlen with
    | @root idx rec' hget' hroot =>
      intro rec hget hlive
      cases hget'.symm.trans hget
      rw [due_len, if_pos hroot]
    | @child idx rec' len hget' hparent hup ih =>
      intro rec hget hlive
      cases hget'.symm.trans hget
      obtain ⟨row, hrow, hrowLive⟩ := h.live_parent idx _ _ hget hlive (parent_of_eq_some.mpr ⟨_, hget, hparent, rfl⟩)
      have hrowLen := ih hrow hrowLive
      have hrowShort := h.short _ row len hrow hrowLive hup
      rw [due_len, if_neg hparent, (hstep hrow hrowLive).len_at_eq hcore hrow (by rw [hrowLen]; exact hrowShort), hrowLen]
  obtain ⟨len, hlen⟩ := @Rooted.hasLen names records idx (h.rooted idx rec hget hlive)
  rw [exact_iff hcore hget]
  exact (hstep hget hlive).len_at_eq hcore hget (by rw [hstored hlen hget hlive]; exact h.short idx rec len hget hlive hlen)

/-- What the child entries must list for a subtree walk: every live child, and children only. -/
structure Listed (records : List CompactRecord) (children : ChildrenIndex) (delta : Option IndexDelta) : Prop where
  nodup : ∀ p : UInt32, p.toNat < records.length → (push_children records children delta p).Nodup
  parent : ∀ p : UInt32, p.toNat < records.length → ∀ c ∈ push_children records children delta p, parent_of records c = some p
  live : ∀ (c p : UInt32) rec, records[c.toNat]? = some rec → rec.Live → parent_of records c = some p →
    p.toNat < records.length → c ∈ push_children records children delta p

variable {state : List CompactRecord}

section shift

/-- Slots below another, by the parents of the rows. -/
abbrev Under (records : List CompactRecord) (root idx : UInt32) : Prop := worklist.Below (parent_of records) root idx

theorem Rooted.acc (h : Rooted records idx) : Acc (fun c p => parent_of records c = some p) idx := by
  induction h with
  | root hget hroot =>
    apply worklist.acc_root
    rw [parent_of, hget, Option.bind_some, if_pos hroot]
  | child hparent _ ih => exact ih.inv hparent

/-- Shifting the slots of a list, each once. -/
theorem foldl_shift_one {slots : List UInt32} (hnodup : slots.Nodup) (shift : Int) (records : List CompactRecord)
    (idx : UInt32) :
    (slots.foldl (shift_one shift) records)[idx.toNat]? =
      if idx ∈ slots then records[idx.toNat]?.map fun rec => { rec with path_len := shift_path_len rec.path_len shift }
      else records[idx.toNat]? := by
  induction slots generalizing records with
  | nil => simp
  | cons slot slots ih =>
    obtain ⟨hslot, hrest⟩ := List.nodup_cons.mp hnodup
    rw [List.foldl_cons, ih hrest, shift_one, List.getElem?_modify]
    by_cases heq : idx = slot
    · simp [heq, hslot]
    · have hne : slot.toNat ≠ idx.toNat := fun h => heq (UInt32.toNat_inj.mp h).symm
      simp [heq, hne]

theorem shift_path_len_toNat {path_len : UInt16} {shift : Int} (hlow : 0 ≤ (path_len.toNat : Int) + shift)
    (hhigh : (path_len.toNat : Int) + shift < UInt16.size) :
    ((shift_path_len path_len shift).toNat : Int) = path_len.toNat + shift := by
  have hsize : (UInt16.size : Int) = 65536 := rfl
  have hmin : min 65535 (max 0 ((path_len.toNat : Int) + shift)) = path_len.toNat + shift := by omega
  rw [shift_path_len, hmin, UInt16.toNat_ofNat', Nat.mod_eq_of_lt (by omega)]
  omega

variable {children : ChildrenIndex} {delta : Option IndexDelta}

/-- The descent of the model is the walk that ends, when it pops at most one slot per row. -/
theorem collect_descendants_eq {fuel bound : Nat} {stack popped : List UInt32}
    (h : worklist.run (fun new pending => new.reverse ++ pending) (push_children records children delta) fuel stack = some popped)
    (hbound : popped.length ≤ bound) : collect_descendants records children delta bound stack = popped := by
  induction bound generalizing fuel stack popped with
  | zero =>
    cases stack with
    | nil =>
      rw [worklist.run] at h
      rw [collect_descendants]
      exact Option.some.inj h
    | cons idx stack =>
      cases fuel with
      | zero => cases h
      | succ fuel =>
        obtain ⟨rest, -, rfl⟩ := Option.map_eq_some_iff.mp h
        simp at hbound
  | succ bound ih =>
    cases stack with
    | nil =>
      rw [worklist.run] at h
      rw [collect_descendants]
      exact Option.some.inj h
    | cons idx stack =>
      cases fuel with
      | zero => cases h
      | succ fuel =>
        obtain ⟨rest, hrest, rfl⟩ := Option.map_eq_some_iff.mp h
        rw [collect_descendants, ih hrest (by simpa using hbound)]

theorem parent_of_lt {parent : UInt32} (h : parent_of records idx = some parent) : idx.toNat < records.length := by
  obtain ⟨rec, hget, -⟩ := parent_of_eq_some.mp h
  exact (List.getElem?_eq_some_iff.mp hget).1

theorem under_lt {root : UInt32} (h : Under records root idx) (hroot : root.toNat < records.length) :
    idx.toNat < records.length := by
  cases Relation.ReflTransGen.cases_head h with
  | inl heq => exact heq ▸ hroot
  | inr hstep =>
    obtain ⟨parent, hparent, -⟩ := hstep
    exact parent_of_lt hparent

/-- The subtree walk collects the live slots below its root, each slot once. -/
theorem descendants_spec (hforest : Forest names records) (hlisted : Listed records children delta) {root : UInt32}
    (hroot : root.toNat < records.length) (hrooted : Rooted records root) {descendants : List UInt32}
    (hcollect : collect_descendants records children delta records.length
      (push_children records children delta root).reverse = descendants) :
    descendants.Nodup ∧ root ∉ descendants ∧ (∀ c ∈ descendants, Under records root c) ∧
      ∀ (c : UInt32) rec, records[c.toNat]? = some rec → rec.Live → Under records root c → c = root ∨ c ∈ descendants := by
  have hpush : worklist.Pushing fun new pending : List UInt32 => new.reverse ++ pending :=
    fun new _ => (List.reverse_perm new).append_right _
  have hnext : ∀ p, Under records root p → (push_children records children delta p).Nodup ∧
      ∀ c ∈ push_children records children delta p, parent_of records c = some p := fun p hp =>
    ⟨hlisted.nodup p (under_lt hp hroot), hlisted.parent p (under_lt hp hroot)⟩
  have hstart := worklist.seen_start hpush hrooted.acc hnext
  rw [List.append_nil] at hstart
  -- The walk ends, since nothing below a rooted slot lies on a cycle.
  have hends : ∀ c, Acc (fun c p => parent_of records c = some p) c → Under records root c →
      Acc (worklist.Pushes (push_children records children delta)) c := by
    intro c hacc
    induction hacc with
    | intro c _ ih =>
      intro hc
      constructor
      intro d hd
      have hparent := (hnext c hc).2 d hd
      exact ih d hparent (worklist.Below.child hc hparent)
  have hpending : ∀ c ∈ (push_children records children delta root).reverse,
      Acc (worklist.Pushes (push_children records children delta)) c := fun c hc =>
    (hends root hrooted.acc Relation.ReflTransGen.refl).inv (List.mem_reverse.mp hc)
  obtain ⟨fuel, popped, hrun⟩ := (worklist.run_ends_iff hpush).mpr hpending
  have hseen := hstart.run hpush hrooted.acc hnext hrun
  have hnodup := hseen.nodup
  rw [List.append_nil] at hnodup
  obtain ⟨hfresh, hpoppedNodup⟩ := List.nodup_cons.mp hnodup
  have hbelow : ∀ c ∈ popped, Under records root c := fun c hc =>
    hseen.below c (List.mem_append_left _ (List.mem_cons_of_mem _ hc))
  have hlength : popped.length ≤ records.length := by
    have hsub : popped ⊆ (List.range records.length).map len_to_u32 := fun c hc =>
      slot_mem_range (under_lt (hbelow c hc) hroot)
    have hle := (hpoppedNodup.subperm hsub).length_le
    simpa using hle
  rw [collect_descendants_eq hrun hlength] at hcollect
  subst hcollect
  refine ⟨hpoppedNodup, hfresh, hbelow, fun c rec hget hlive hc => ?_⟩
  -- Up the chain: every slot between is live, so its children entries list the one below.
  induction hc using Relation.ReflTransGen.head_induction_on generalizing rec with
  | refl => exact Or.inl rfl
  | @head c p hparent hp ih =>
    obtain ⟨row, hrow, hrowLive⟩ := hforest.live_parent c rec p hget hlive hparent
    have hmem : p ∈ root :: popped := List.mem_cons.mpr (ih row hrow hrowLive)
    have hlist := hlisted.live c p rec hget hlive hparent (under_lt hp hroot)
    have hclosed := hseen.closed p hmem c hlist
    rw [List.append_nil] at hclosed
    exact List.mem_cons.mp hclosed

variable {before after : List CompactRecord}

theorem push_children_core (h : SameCore before after) (parent : UInt32) :
    push_children after children delta parent = push_children before children delta parent := by
  unfold push_children
  cases delta with
  | none => rfl
  | some overlay =>
    dsimp only
    congr 1
    funext child
    exact h.test_eq (fun _ _ hcore => by rw [parent_idx_of_core hcore, name_len_of_core hcore]) child.toNat

theorem collect_descendants_core (h : SameCore before after) (fuel : Nat) (stack : List UInt32) :
    collect_descendants after children delta fuel stack = collect_descendants before children delta fuel stack := by
  induction fuel generalizing stack with
  | zero => simp [collect_descendants]
  | succ fuel ih =>
    cases stack with
    | nil => simp [collect_descendants]
    | cons idx stack => simp [collect_descendants, push_children_core h, ih]

/-- The clamps of a refresh have no effect: the new length fits, and so does every live row below. -/
structure Unclamped (names : List UInt8) (state : List CompactRecord) (change : PathChange) : Prop where
  fits : path_len_from_parent state names change.idx < UInt16.size
  below : change.subtree = true → ∀ (idx : UInt32) rec, state[idx.toNat]? = some rec → rec.Live →
    Under state change.idx idx → idx ≠ change.idx →
      0 ≤ (len_at state idx : Int) + (path_len_from_parent state names change.idx - len_at state change.idx) ∧
        (len_at state idx : Int) + (path_len_from_parent state names change.idx - len_at state change.idx) < UInt16.size

theorem under_core (h : SameCore before after) {root : UInt32} : Under after root idx ↔ Under before root idx := by
  have hsame : parent_of after = parent_of before := funext (parent_of_core h)
  rw [Under, Under, hsame]

theorem len_at_set_path_len {other : UInt32} {value : UInt16} (hidx : idx.toNat < records.length) :
    len_at (set_path_len records idx value) other = if other = idx then value.toNat else len_at records other := by
  unfold len_at set_path_len
  rw [List.getElem?_modify]
  by_cases heq : other = idx
  · simp [heq, List.getElem?_eq_getElem hidx]
  · have hne : idx.toNat ≠ other.toNat := fun h => heq (UInt32.toNat_inj.mp h).symm
    simp [heq, hne]

/-- What one entry of the change set does to the stored lengths of a forest. -/
theorem refresh_effect (hforest : Forest names records) (hlisted : Listed records children delta) (hcore : SameCore records state) {change : PathChange}
    (hget : records[change.idx.toNat]? = some rec) (hlive : rec.Live) (hunclamped : Unclamped names state change) :
    len_at (refresh_path_len names children delta state change) change.idx = due_len names state rec ∧
      ∀ (idx : UInt32) row, records[idx.toNat]? = some row → row.Live → idx ≠ change.idx →
        (change.subtree = true → Under records change.idx idx →
          (len_at (refresh_path_len names children delta state change) idx : Int) =
            len_at state idx + (due_len names state rec - len_at state change.idx)) ∧
        (change.subtree = false ∨ ¬ Under records change.idx idx →
          len_at (refresh_path_len names children delta state change) idx = len_at state idx) := by
  obtain ⟨here, hhere, hrec⟩ := hcore.symm.exists_core hget
  have hlt : change.idx.toNat < state.length := (List.getElem?_eq_some_iff.mp hhere).1
  have hlive' : here.Live := (live_of_core hrec).mpr hlive
  have hdue : path_len_from_parent state names change.idx = due_len names state rec := by
    rw [path_len_from_parent_eq hhere, due_len_of_core hrec]
  obtain ⟨hfits, hbelow⟩ := hunclamped
  rw [hdue] at hfits hbelow
  have hold : len_at state change.idx = here.path_len.toNat := len_at_of_get hhere
  unfold refresh_path_len
  rw [hhere]
  dsimp only
  rw [if_neg fun h => hlive' h.1, hdue, ← hold]
  have hset := @len_at_set_path_len state change.idx
  by_cases hmoves : (change.subtree && ((due_len names state rec : Int) - len_at state change.idx != 0)) = true
  · rw [if_pos hmoves]
    obtain ⟨hsubtree, -⟩ := Bool.and_eq_true_iff.mp hmoves
    have hupdated : SameCore records (set_path_len state change.idx (len_to_u16 (due_len names state rec))) :=
      hcore.trans (sameCore_modify state _ _)
    have hrooted := hforest.rooted change.idx rec hget hlive
    have hroot : change.idx.toNat < records.length := (List.getElem?_eq_some_iff.mp hget).1
    obtain ⟨hnodup, hself, hunder, hall⟩ := descendants_spec hforest hlisted hroot hrooted rfl
    unfold shift_subtree_path_len
    rw [push_children_core hupdated, collect_descendants_core hupdated, hupdated.length_eq]
    generalize collect_descendants records children delta records.length
      (push_children records children delta change.idx).reverse = descendants at hnodup hself hunder hall ⊢
    have hshift := foldl_shift_one hnodup (due_len names state rec - len_at state change.idx)
      (set_path_len state change.idx (len_to_u16 (due_len names state rec)))
    constructor
    · rw [len_at, hshift, if_neg hself, ← len_at, hset hlt, if_pos rfl, len_to_u16_toNat hfits]
    · intro idx row hrow hrowLive hne
      have hkept := @hset idx (len_to_u16 (due_len names state rec)) hlt
      rw [if_neg hne] at hkept
      constructor
      · intro _ hidx
        have hmem : idx ∈ descendants := (hall idx row hrow hrowLive hidx).resolve_left hne
        obtain ⟨there, hthere, hthereCore⟩ := hcore.symm.exists_core hrow
        obtain ⟨hlow, hhigh⟩ := hbelow hsubtree idx there hthere ((live_of_core hthereCore).mpr hrowLive)
          ((under_core hcore).mpr hidx) hne
        obtain ⟨updated, hget', -⟩ := hupdated.symm.exists_core hrow
        have hupd : len_at (set_path_len state change.idx (len_to_u16 (due_len names state rec))) idx =
            updated.path_len.toNat := len_at_of_get hget'
        rw [hkept] at hupd
        rw [hupd] at hlow hhigh ⊢
        rw [len_at, hshift, if_pos hmem, hget', Option.map_some, Option.map_some, Option.getD_some]
        exact shift_path_len_toNat hlow hhigh
      · intro hnot
        have hmem : idx ∉ descendants := by
          intro hmem
          rcases hnot with hfalse | hnot
          · rw [hsubtree] at hfalse
            cases hfalse
          · exact hnot (hunder idx hmem)
        rw [len_at, hshift, if_neg hmem, ← len_at, hkept]
  · rw [if_neg hmoves]
    constructor
    · rw [hset hlt, if_pos rfl, len_to_u16_toNat hfits]
    · intro idx row hrow hrowLive hne
      have hkept := @hset idx (len_to_u16 (due_len names state rec)) hlt
      rw [if_neg hne] at hkept
      refine ⟨fun hsubtree _ => ?_, fun _ => hkept⟩
      have hzero : (due_len names state rec : Int) - len_at state change.idx = 0 := by
        simpa [hsubtree] using hmoves
      rw [hkept, hzero, Int.add_zero]

/-- What an entry needs besides: a slot that is refreshed alone has no live children but those
that are refreshed after it, and no clamp has an effect. -/
structure Covered (names : List UInt8) (records state : List CompactRecord) (change : PathChange)
    (after : List PathChange) : Prop where
  children : change.subtree = false → ∀ (idx : UInt32) rec, records[idx.toNat]? = some rec → rec.Live →
    rec.parent_idx = change.idx → ∃ later ∈ after, later.idx = idx
  unclamped : Unclamped names state change

theorem due_len_congr (h : rec.parent_idx ≠ NO_ENTRY → len_at after rec.parent_idx = len_at before rec.parent_idx) :
    due_len names after rec = due_len names before rec := by
  unfold due_len
  split
  · rfl
  next hne => rw [h hne]

/-- One entry keeps the exact rows exact and makes its own row exact. -/
theorem refresh_exact (hforest : Forest names records) (hlisted : Listed records children delta)
    (hcore : SameCore records state) {change : PathChange}
    (hget : records[change.idx.toNat]? = some rec) (hslot : rec.Live ∨ rec.parent_idx = NO_ENTRY) {after : List PathChange}
    (hcovered : Covered names records state change after) {row : CompactRecord}
    (hrow : records[idx.toNat]? = some row) (hrowLive : row.Live) (hlater : ∀ later ∈ after, later.idx ≠ idx)
    (hinv : idx ≠ change.idx → Exact names state idx) :
    Exact names (refresh_path_len names children delta state change) idx := by
  have hresult : SameCore records (refresh_path_len names children delta state change) :=
    hcore.trans (sameCore_refresh_path_len names children delta state change)
  by_cases hlive : rec.Live
  · obtain ⟨hself, hothers⟩ := refresh_effect hforest hlisted hcore hget hlive hcovered.unclamped
    have hparentLive : row.parent_idx ≠ NO_ENTRY → ∃ up, records[row.parent_idx.toNat]? = some up ∧ up.Live := fun hne =>
      hforest.live_parent idx row row.parent_idx hrow hrowLive (parent_of_eq_some.mpr ⟨row, hrow, hne, rfl⟩)
    have hclimb : row.parent_idx ≠ NO_ENTRY → parent_of records idx = some row.parent_idx := fun hne =>
      parent_of_eq_some.mpr ⟨row, hrow, hne, rfl⟩
    rw [exact_iff hresult hrow]
    by_cases heq : idx = change.idx
    · -- The refreshed row: its parent is not below it.
      subst heq
      cases hget.symm.trans hrow
      rw [hself]
      refine (due_len_congr fun hne => ?_).symm
      obtain ⟨up, hup, hupLive⟩ := hparentLive hne
      have hnot : ¬ Under records change.idx rec.parent_idx := fun hunder =>
        worklist.not_acc_of_below hunder (hclimb hne) (hforest.rooted _ rec hget hlive).acc
      have hdiff : rec.parent_idx ≠ change.idx := fun h => hnot (h ▸ Relation.ReflTransGen.refl)
      exact (hothers _ up hup hupLive hdiff).2 (Or.inr hnot)
    · have hexact := (exact_iff hcore hrow).mp (hinv heq)
      by_cases hmoved : change.subtree = true ∧ Under records change.idx idx
      · -- A row below: it moves with its parent.
        have hlen := (hothers idx row hrow hrowLive heq).1 hmoved.1 hmoved.2
        obtain ⟨parent, hparent, hup⟩ := (Relation.ReflTransGen.cases_head hmoved.2).resolve_left heq
        obtain ⟨row', hrow', hne, rfl⟩ := parent_of_eq_some.mp hparent
        cases hrow.symm.trans hrow'
        rw [due_len, if_neg hne] at hexact ⊢
        by_cases htop : row.parent_idx = change.idx
        · rw [htop, hself]
          rw [htop] at hexact
          omega
        · obtain ⟨up, hupGet, hupLive⟩ := hparentLive hne
          have hlenUp := (hothers _ up hupGet hupLive htop).1 hmoved.1 hup
          omega
      · -- A row elsewhere: neither it nor its parent moves.
        have hstay : change.subtree = false ∨ ¬ Under records change.idx idx := by
          rw [not_and] at hmoved
          cases hsubtree : change.subtree with
          | false => exact Or.inl rfl
          | true => exact Or.inr (hmoved hsubtree)
        rw [(hothers idx row hrow hrowLive heq).2 hstay, hexact]
        refine (due_len_congr fun hne => ?_).symm
        obtain ⟨up, hup, hupLive⟩ := hparentLive hne
        have hdiff : row.parent_idx ≠ change.idx := by
          intro htop
          rcases hstay with halone | hnot
          · obtain ⟨later, hmem, hidx⟩ := hcovered.children halone idx row hrow hrowLive htop
            exact hlater later hmem hidx
          · exact hnot (Relation.ReflTransGen.single (htop ▸ hclimb hne))
        refine (hothers _ up hup hupLive hdiff).2 (hstay.imp_right fun hnot hunder => hnot ?_)
        exact worklist.Below.child hunder (hclimb hne)
  · have hroot := hslot.resolve_left hlive
    have heq : idx ≠ change.idx := by
      rintro rfl
      cases hget.symm.trans hrow
      exact hlive hrowLive
    obtain ⟨here, hhere, hrec⟩ := hcore.symm.exists_core hget
    have hskip : refresh_path_len names children delta state change = state := by
      rw [refresh_path_len, hhere]
      dsimp only
      rw [if_pos ⟨(name_len_of_core hrec).trans (not_not.mp hlive), (parent_idx_of_core hrec).trans hroot⟩]
    rw [hskip]
    exact hinv heq

/-- The whole refresh: every live row ends up exact, if those without an entry were. -/
theorem update_exact (hforest : Forest names records) (hlisted : Listed records children delta) {changed : List PathChange}
    (hslots : ∀ change ∈ changed, ∃ rec, records[change.idx.toNat]? = some rec ∧ (rec.Live ∨ rec.parent_idx = NO_ENTRY)) (hcore : SameCore records state)
    (hcovered : ∀ before change after, changed = before ++ change :: after →
      Covered names records (update_path_lengths_incremental state names children delta before) change after)
    (hinv : ∀ (idx : UInt32) row, records[idx.toNat]? = some row → row.Live → (∀ change ∈ changed, change.idx ≠ idx) →
      Exact names state idx) {row : CompactRecord} (hrow : records[idx.toNat]? = some row) (hlive : row.Live) :
    Exact names (update_path_lengths_incremental state names children delta changed) idx := by
  induction changed generalizing state with
  | nil => exact hinv idx row hrow hlive fun _ h => absurd h List.not_mem_nil
  | cons change changed ih =>
    obtain ⟨rec, hget, hslot⟩ := hslots change List.mem_cons_self
    refine ih (fun c hc => hslots c (List.mem_cons_of_mem _ hc))
      (hcore.trans (sameCore_refresh_path_len names children delta state change)) (fun before c after hsplit => ?_)
      (fun other otherRow hother hotherLive hnone => ?_)
    · exact hcovered (change :: before) c after (by rw [hsplit]; rfl)
    · refine refresh_exact hforest hlisted hcore hget hslot (hcovered [] change changed rfl) hother hotherLive hnone ?_
      intro hne
      refine hinv other otherRow hother hotherLive fun c hc => ?_
      cases List.mem_cons.mp hc with
      | inl heq => exact heq ▸ hne.symm
      | inr hmem => exact hnone c hmem

end shift

end uffs.compact
