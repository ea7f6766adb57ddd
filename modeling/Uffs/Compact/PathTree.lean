import Uffs.Compact.PathLen

open uffs.mft

namespace uffs.compact

/-- The parent of a slot; none for a root and for a slot out of range. -/
def parent_of (records : List CompactRecord) (idx : UInt32) : Option UInt32 :=
  records[idx.toNat]?.bind fun rec => if rec.parent_idx = NO_ENTRY then none else some rec.parent_idx

/-- The chain of parents of a slot ends in a root. -/
inductive Rooted (records : List CompactRecord) : UInt32 → Prop where
  | root {idx : UInt32} {rec : CompactRecord} (hget : records[idx.toNat]? = some rec)
      (hroot : rec.parent_idx = NO_ENTRY) : Rooted records idx
  | child {idx parent : UInt32} (hparent : parent_of records idx = some parent) (h : Rooted records parent) :
      Rooted records idx

/-- The stored path length of a slot follows from the stored one of its parent. -/
def InStep (names : List UInt8) (records : List CompactRecord) (idx : UInt32) : Prop :=
  ∃ rec, records[idx.toNat]? = some rec ∧ rec.path_len = len_to_u16 (path_len_from_parent records names idx)

variable {records : List CompactRecord} {idx : UInt32}

theorem parent_of_eq_some {parent : UInt32} :
    parent_of records idx = some parent ↔
      ∃ rec, records[idx.toNat]? = some rec ∧ rec.parent_idx ≠ NO_ENTRY ∧ rec.parent_idx = parent := by
  unfold parent_of
  rw [Option.bind_eq_some_iff]
  constructor
  · rintro ⟨rec, hget, h⟩
    split at h
    · cases h
    next hne => exact ⟨rec, hget, hne, Option.some.inj h⟩
  · rintro ⟨rec, hget, hne, rfl⟩
    exact ⟨rec, hget, if_neg hne⟩

section core

variable {before after : List CompactRecord}

/-- A test of one slot that does not look at the path length. -/
theorem SameCore.test_eq (h : SameCore before after) {test : CompactRecord → Bool}
    (htest : ∀ a b : CompactRecord, a.core = b.core → test a = test b) (i : Nat) :
    (match after[i]? with
      | none => false
      | some rec => test rec) =
    (match before[i]? with
      | none => false
      | some rec => test rec) := by
  have hget := h.getElem? i
  cases hbefore : before[i]? with
  | none =>
    rw [hbefore, Option.map_none, Option.map_eq_none_iff] at hget
    rw [hget]
  | some rec =>
    rw [hbefore, Option.map_some] at hget
    obtain ⟨rec', hafter, hcore⟩ := Option.map_eq_some_iff.mp hget
    rw [hafter]
    exact htest rec' rec hcore

theorem siblings_of_core (h : SameCore before after) (parent : UInt32) :
    siblings_of after parent = siblings_of before parent := by
  unfold siblings_of
  rw [h.length_eq]
  apply List.filter_congr
  intro idx _
  exact h.test_eq (fun _ _ hcore => by rw [parent_idx_of_core hcore]) idx.toNat

theorem parent_of_core (h : SameCore before after) (idx : UInt32) : parent_of after idx = parent_of before idx := by
  apply Option.ext
  intro parent
  rw [parent_of_eq_some, parent_of_eq_some]
  constructor
  · rintro ⟨rec, hget, hparent⟩
    obtain ⟨rec', hget', hcore⟩ := h.exists_core hget
    exact ⟨rec', hget', by rw [parent_idx_of_core hcore]; exact hparent⟩
  · rintro ⟨rec, hget, hparent⟩
    obtain ⟨rec', hget', hcore⟩ := h.symm.exists_core hget
    exact ⟨rec', hget', by rw [parent_idx_of_core hcore]; exact hparent⟩

theorem rooted_of_core (h : SameCore before after) (hrooted : Rooted before idx) : Rooted after idx := by
  induction hrooted with
  | root hget hroot =>
    obtain ⟨rec, hrec, hcore⟩ := h.symm.exists_core hget
    exact Rooted.root hrec ((parent_idx_of_core hcore).trans hroot)
  | child hparent _ ih => exact Rooted.child ((parent_of_core h _).trans hparent) ih

theorem name_char_count_of_core {a b : CompactRecord} (h : a.core = b.core) (names : List UInt8) :
    name_char_count a names = name_char_count b names := by
  unfold name_char_count
  rw [name_range_of_core h, name_len_of_core h]

theorem root_path_len_of_core {a b : CompactRecord} (h : a.core = b.core) (names : List UInt8) :
    root_path_len a names = root_path_len b names := by
  simp only [root_path_len, name_char_count_of_core h]

theorem child_path_len_of_core {a b : CompactRecord} (h : a.core = b.core) (parent_pl : UInt16) (names : List UInt8) :
    child_path_len parent_pl a names = child_path_len parent_pl b names := by
  rw [child_path_len, child_path_len, name_char_count_of_core h]

end core

theorem parent_of_sibling {parent child : UInt32}
    (h : child ∈ siblings_of records parent) : parent_of records child = some parent := by
  obtain ⟨-, hfilter⟩ := List.mem_filter.mp h
  rw [parent_of_eq_some]
  split at hfilter
  · cases hfilter
  next rec hget =>
    rw [Bool.and_eq_true, bne_iff_ne, beq_iff_eq] at hfilter
    exact ⟨rec, hget, hfilter⟩

theorem slot_mem_range (h : idx.toNat < records.length) :
    idx ∈ (List.range records.length).map len_to_u32 :=
  List.mem_map.mpr ⟨idx.toNat, List.mem_range.mpr h, len_to_u32_of_toNat idx⟩

theorem mem_siblings_of {parent child : UInt32} :
    child ∈ siblings_of records parent ↔ parent_of records child = some parent := by
  refine ⟨parent_of_sibling, fun h => ?_⟩
  obtain ⟨rec, hget, hne, hparent⟩ := parent_of_eq_some.mp h
  refine List.mem_filter.mpr ⟨slot_mem_range (List.getElem?_eq_some_iff.mp hget).1, ?_⟩
  rw [hget]
  exact Bool.and_eq_true_iff.mpr ⟨bne_iff_ne.mpr hne, beq_iff_eq.mpr hparent⟩

theorem mem_roots_of {root : UInt32} :
    root ∈ roots_of records ↔ ∃ rec, records[root.toNat]? = some rec ∧ rec.parent_idx = NO_ENTRY := by
  unfold roots_of
  rw [List.mem_filter]
  constructor
  · rintro ⟨-, hfilter⟩
    split at hfilter
    · cases hfilter
    next rec hget => exact ⟨rec, hget, beq_iff_eq.mp hfilter⟩
  · rintro ⟨rec, hget, hroot⟩
    refine ⟨slot_mem_range (List.getElem?_eq_some_iff.mp hget).1, ?_⟩
    rw [hget]
    exact beq_iff_eq.mpr hroot

theorem slots_nodup (hsize : records.length ≤ UInt32.size) :
    ((List.range records.length).map len_to_u32).Nodup := by
  refine List.Nodup.map_on (fun i hi j hj h => ?_) List.nodup_range
  have hnat := congrArg UInt32.toNat h
  rw [List.mem_range] at hi hj
  rwa [len_to_u32_toNat (Nat.lt_of_lt_of_le hi hsize), len_to_u32_toNat (Nat.lt_of_lt_of_le hj hsize)] at hnat

def CompactRecord.with_path_len (rec : CompactRecord) (len : Nat) : CompactRecord := { rec with path_len := len_to_u16 len }

theorem CompactRecord.with_path_len_core (rec : CompactRecord) (len : Nat) : (rec.with_path_len len).core = rec.core := rfl

/-- A pass that sets the path length of some slots, each from the rest of its row. -/
theorem foldl_set_path_len {value : CompactRecord → Nat} (hvalue : ∀ a b : CompactRecord, a.core = b.core → value a = value b)
    (slots : List UInt32) (records : List CompactRecord) (idx : UInt32) :
    (slots.foldl (fun recs slot =>
      match recs[slot.toNat]? with
      | none => recs
      | some rec => set_path_len recs slot (len_to_u16 (value rec))) records)[idx.toNat]? =
      if idx ∈ slots then records[idx.toNat]?.map fun rec => rec.with_path_len (value rec)
      else records[idx.toNat]? := by
  induction slots generalizing records with
  | nil => rw [List.foldl_nil, if_neg List.not_mem_nil]
  | cons slot slots ih =>
    rw [List.foldl_cons, ih]
    have hstep : (match records[slot.toNat]? with
        | none => records
        | some rec => set_path_len records slot (len_to_u16 (value rec)))[idx.toNat]? =
        if idx = slot then records[idx.toNat]?.map fun rec => rec.with_path_len (value rec)
        else records[idx.toNat]? := by
      cases hget : records[slot.toNat]? with
      | none =>
        dsimp only
        split
        next heq => rw [heq, hget, Option.map_none]
        next => rfl
      | some rec =>
        dsimp only
        rw [set_path_len, List.getElem?_modify]
        by_cases heq : idx = slot
        · rw [if_pos heq, heq, hget]
          simp [CompactRecord.with_path_len]
        · have hne : slot.toNat ≠ idx.toNat := fun h => heq (UInt32.toNat_inj.mp h).symm
          simp [heq, hne]
    rw [hstep]
    by_cases heq : idx = slot
    · rw [if_pos heq, if_pos (show idx ∈ slot :: slots from heq ▸ List.mem_cons_self), Option.map_map]
      split
      · congr 1
        funext rec
        simp only [Function.comp_apply]
        rw [hvalue (rec.with_path_len (value rec)) rec (rec.with_path_len_core _)]
        rfl
      · rfl
    · rw [if_neg heq]
      simp only [List.mem_cons, heq, false_or]

section bfs

variable {names : List UInt8} {start : List CompactRecord}

theorem visit_children_getElem? (idx child : UInt32) :
    (visit_children names records idx)[child.toNat]? =
      if child ∈ siblings_of records idx then
        records[child.toNat]?.map fun rec => rec.with_path_len
          (child_path_len ((records[idx.toNat]?.map CompactRecord.path_len).getD 0) rec names)
      else records[child.toNat]? := by
  exact foldl_set_path_len (fun a b h => child_path_len_of_core h _ names) (siblings_of records idx) records child

theorem seed_roots_getElem? (idx : UInt32) :
    (seed_roots names records)[idx.toNat]? =
      if idx ∈ roots_of records then
        records[idx.toNat]?.map fun rec => rec.with_path_len (root_path_len rec names)
      else records[idx.toNat]? := by
  exact foldl_set_path_len (fun a b h => root_path_len_of_core h names) (roots_of records) records idx

/-- The lengths a slot and its parent store decide whether it is in step. -/
theorem InStep.congr {before after : List CompactRecord} (h : InStep names before idx)
    (hself : after[idx.toNat]? = before[idx.toNat]?)
    (hparent : ∀ parent, parent_of before idx = some parent → after[parent.toNat]? = before[parent.toNat]?) :
    InStep names after idx := by
  obtain ⟨rec, hget, hlen⟩ := h
  refine ⟨rec, hself.trans hget, ?_⟩
  rw [hlen, path_len_from_parent, path_len_from_parent, hself, hget]
  dsimp only
  split
  · rfl
  next hne => rw [hparent rec.parent_idx (parent_of_eq_some.mpr ⟨rec, hget, hne, rfl⟩)]

/-- The loop invariant: who has been queued, and that they are in step. -/
structure BfsInv (names : List UInt8) (start : List CompactRecord) (popped queue : List UInt32)
    (records : List CompactRecord) : Prop where
  core : SameCore start records
  nodup : (popped ++ queue).Nodup
  roots : ∀ root ∈ roots_of start, root ∈ popped ++ queue
  closed : ∀ parent ∈ popped, ∀ child ∈ siblings_of start parent, child ∈ popped ++ queue
  known : ∀ idx ∈ popped ++ queue, ∀ parent, parent_of start idx = some parent → parent ∈ popped
  inStep : ∀ idx ∈ popped ++ queue, InStep names records idx

theorem bfsInv_start (hsize : start.length ≤ UInt32.size) :
    BfsInv names start [] (roots_of start) (seed_roots names start) where
  core := sameCore_seed_roots names start
  nodup := (slots_nodup hsize).filter _
  roots := fun _ h => h
  closed := fun _ h => absurd h List.not_mem_nil
  known := by
    intro idx hidx parent hparent
    obtain ⟨rec, hget, hroot⟩ := mem_roots_of.mp hidx
    obtain ⟨rec', hget', hne, -⟩ := parent_of_eq_some.mp hparent
    cases hget.symm.trans hget'
    exact absurd hroot hne
  inStep := by
    intro idx hidx
    obtain ⟨rec, hget, hroot⟩ := mem_roots_of.mp hidx
    have hseed := @seed_roots_getElem? start names idx
    rw [if_pos (show idx ∈ roots_of start from hidx), hget, Option.map_some] at hseed
    refine ⟨_, hseed, ?_⟩
    rw [path_len_from_parent, hseed]
    dsimp only
    rw [if_pos (show (rec.with_path_len _).parent_idx = NO_ENTRY from hroot), root_path_len_of_core (rec.with_path_len_core _)]
    rfl

/-- Visiting one record settles the lengths of its children and queues them. -/
theorem BfsInv.step (hsize : start.length ≤ UInt32.size) {popped queue : List UInt32}
    (h : BfsInv names start popped (idx :: queue) records) :
    BfsInv names start (popped ++ [idx]) (queue ++ siblings_of records idx) (visit_children names records idx) := by
  have hsiblings := siblings_of_core h.core idx
  have hqueued : idx ∈ popped ++ idx :: queue := List.mem_append_right _ List.mem_cons_self
  have hold : ∀ other, other ∈ popped ++ idx :: queue ↔ other ∈ popped ++ [idx] ++ queue := by
    intro other
    simp only [List.mem_append, List.mem_cons, List.not_mem_nil, or_false, or_assoc]
  have hidx : idx ∉ popped := fun hmem =>
    (List.nodup_append.mp h.nodup).2.2 idx hmem idx List.mem_cons_self rfl
  -- The children of the popped slot have not been queued: their only parent was still waiting.
  have hfresh : ∀ child ∈ siblings_of start idx, child ∉ popped ++ idx :: queue := fun child hchild hmem =>
    hidx (h.known child hmem idx (parent_of_sibling hchild))
  have hkeep : ∀ other ∈ popped ++ idx :: queue,
      (visit_children names records idx)[other.toNat]? = records[other.toNat]? := by
    intro other hmem
    rw [visit_children_getElem?, hsiblings, if_neg fun hchild => hfresh other hchild hmem]
  refine ⟨h.core.trans (sameCore_visit_children names records idx), ?_, ?_, ?_, ?_, ?_⟩
  · rw [hsiblings, ← List.append_assoc]
    refine List.nodup_append.mpr ⟨?_, (slots_nodup hsize).filter _, ?_⟩
    · rw [List.append_assoc]
      exact h.nodup
    · rintro child hmem other hother rfl
      exact hfresh child hother ((hold child).mpr hmem)
  · intro root hroot
    rw [← List.append_assoc]
    exact List.mem_append_left _ ((hold root).mp (h.roots root hroot))
  · intro parent hparent child hchild
    rw [← List.append_assoc, hsiblings]
    cases List.mem_append.mp hparent with
    | inl hpopped => exact List.mem_append_left _ ((hold child).mp (h.closed parent hpopped child hchild))
    | inr hlast =>
      rw [List.mem_singleton.mp hlast] at hchild
      exact List.mem_append_right _ hchild
  · intro other hother parent hparent
    rw [← List.append_assoc, hsiblings] at hother
    cases List.mem_append.mp hother with
    | inl hmem => exact List.mem_append_left _ (h.known other ((hold other).mpr hmem) parent hparent)
    | inr hchild =>
      rw [parent_of_sibling hchild] at hparent
      cases hparent
      exact List.mem_append_right _ List.mem_cons_self
  · intro other hother
    rw [← List.append_assoc, hsiblings] at hother
    cases List.mem_append.mp hother with
    | inl hmem =>
      have hmem := (hold other).mpr hmem
      refine (h.inStep other hmem).congr (hkeep other hmem) fun parent hparent => ?_
      rw [parent_of_core h.core] at hparent
      exact hkeep parent (List.mem_append_left _ (h.known other hmem parent hparent))
    | inr hchild =>
      obtain ⟨rec, hget, hne, hparent⟩ := parent_of_eq_some.mp ((parent_of_core h.core other).trans (parent_of_sibling hchild))
      have hvisit := @visit_children_getElem? records names idx other
      rw [hsiblings, if_pos hchild, hget, Option.map_some] at hvisit
      refine ⟨_, hvisit, ?_⟩
      rw [path_len_from_parent, hvisit]
      dsimp only
      rw [if_neg (show (rec.with_path_len _).parent_idx ≠ NO_ENTRY from hne),
        show (rec.with_path_len _).parent_idx = idx from hparent, hkeep idx hqueued,
        child_path_len_of_core (rec.with_path_len_core _)]
      rfl

/-- The whole loop: whatever hangs below a root is in step. -/
theorem path_len_bfs_inv (hsize : start.length ≤ UInt32.size) {fuel : Nat} {popped queue : List UInt32}
    (h : BfsInv names start popped queue records) (hfuel : start.length ≤ popped.length + fuel) :
    ∃ all, BfsInv names start all [] (path_len_bfs names fuel queue records) := by
  induction fuel generalizing popped queue records with
  | zero =>
    cases queue with
    | nil => exact ⟨popped, h⟩
    | cons idx queue =>
      -- More distinct slots than rows.
      have hsub : popped ++ idx :: queue ⊆ (List.range start.length).map len_to_u32 := by
        intro other hmem
        obtain ⟨rec, hget, -⟩ := h.inStep other hmem
        have hlt := (List.getElem?_eq_some_iff.mp hget).1
        rw [h.core.length_eq] at hlt
        exact slot_mem_range hlt
      have hle := (h.nodup.subperm hsub).length_le
      rw [List.length_append, List.length_cons, List.length_map, List.length_range] at hle
      omega
  | succ fuel ih =>
    cases queue with
    | nil => exact ⟨popped, h⟩
    | cons idx queue =>
      refine ih (h.step hsize) ?_
      rw [List.length_append, List.length_singleton]
      omega

end bfs

/-- After a full recomputation every slot below a root is in step with its parent. -/
theorem compute_path_lengths_inStep {names : List UInt8}
    (hsize : records.length ≤ UInt32.size) (hrooted : Rooted records idx) :
    InStep names (compute_path_lengths records names) idx := by
  obtain ⟨all, hinv⟩ := path_len_bfs_inv hsize (@bfsInv_start names records hsize)
    (show records.length ≤ ([] : List UInt32).length + records.length by simp)
  have hmem : idx ∈ all ++ [] := by
    induction hrooted with
    | root hget hroot => exact hinv.roots _ (mem_roots_of.mpr ⟨_, hget, hroot⟩)
    | child hparent _ ih =>
      rw [List.append_nil] at ih
      exact hinv.closed _ ih _ (mem_siblings_of.mpr hparent)
  exact hinv.inStep idx hmem

end uffs.compact
