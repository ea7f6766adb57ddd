import Mathlib.Data.List.Nodup
import Mathlib.Data.List.Perm.Basic
import Mathlib.Data.List.Range

/-! Singly linked lists threaded through one table. Every owner keeps the head of its list, every
cell names the next one, and `stop` ends a list. -/

namespace uffs.lib.arena

/-- How the cells of a table are linked, and what they carry besides. -/
structure Cell (α β : Type) where
  next : α → UInt32
  set_next : α → UInt32 → α
  payload : α → β
  next_set_next : ∀ item entry, next (set_next item entry) = entry
  payload_set_next : ∀ item entry, payload (set_next item entry) = payload item

variable {α β : Type} (cell : Cell α β) (stop : UInt32)

/-- Following the links from `entry` visits the cells `ids` and ends. -/
inductive Chain (table : List α) : UInt32 → List Nat → Prop
  | nil : Chain table stop []
  | cons {entry : UInt32} (item : α) {ids : List Nat} (hentry : entry ≠ stop)
      (hitem : table[entry.toNat]? = some item) (hrest : Chain table (cell.next item) ids) :
      Chain table entry (entry.toNat :: ids)

/-- The cells from `entry` on, at most `fuel` of them. -/
@[grind] def walk (table : List α) : Nat → UInt32 → List α
  | 0, _ => []
  | fuel + 1, entry =>
    if entry = stop then []
    else
      match table[entry.toNat]? with
      | none => []
      | some item => item :: walk table fuel (cell.next item)

/-- The last cell of the list that starts at `entry`. -/
@[grind] def last_cell (table : List α) : Nat → UInt32 → UInt32
  | 0, entry => entry
  | fuel + 1, entry =>
    match table[entry.toNat]? with
    | none => entry
    | some item => if cell.next item = stop then entry else last_cell table fuel (cell.next item)

/-- What the list that starts at `entry` carries. -/
def contents (table : List α) (entry : UInt32) : List β :=
  (walk cell stop table table.length entry).map cell.payload

/-- The cells from `entry` on, when the links stay in the table and `fuel` steps see the end. -/
@[grind] def follow (table : List α) : Nat → UInt32 → Option (List α)
  | 0, _ => none
  | fuel + 1, entry =>
    if entry = stop then some []
    else
      match table[entry.toNat]? with
      | none => none
      | some item => (follow table fuel (cell.next item)).map (item :: ·)

variable {cell stop} {table : List α} {entry : UInt32} {ids : List Nat} {fuel : Nat}

theorem mem_walk {item : α} (h : item ∈ walk cell stop table fuel entry) :
    item ∈ table := by
  induction fuel generalizing entry with
  | zero => cases h
  | succ fuel ih =>
    rw [walk] at h
    split at h
    · cases h
    · split at h
      · cases h
      next first hfirst =>
        cases List.mem_cons.mp h with
        | inl heq => exact heq ▸ List.mem_of_getElem? hfirst
        | inr hrest => exact ih hrest

theorem Chain.lt_length (h : Chain cell stop table entry ids) :
    ∀ id ∈ ids, id < table.length := by
  induction h with
  | nil => simp
  | cons item hentry hitem hrest ih =>
    intro id hid
    cases List.mem_cons.mp hid with
    | inl hhead =>
      rw [hhead]
      exact (List.getElem?_eq_some_iff.mp hitem).1
    | inr hrest => exact ih id hrest

/-- A list is not changed by cells pushed behind the table. -/
theorem Chain.append (h : Chain cell stop table entry ids)
    (more : List α) : Chain cell stop (table ++ more) entry ids := by
  induction h with
  | nil => exact .nil
  | cons item hentry hitem hrest ih =>
    have hlt := (List.getElem?_eq_some_iff.mp hitem).1
    exact .cons item hentry (by rw [List.getElem?_append_left hlt]; exact hitem) ih

variable {at_id : Nat}

/-- A list is not changed by a write to a cell outside it. -/
theorem Chain.modify (h : Chain cell stop table entry ids) (hout : at_id ∉ ids) (f : α → α) : Chain cell stop (table.modify at_id f) entry ids := by
  induction h with
  | nil => exact .nil
  | @cons entry item ids hentry hitem hrest ih =>
    have hne : at_id ≠ entry.toNat := fun heq => hout (heq ▸ List.mem_cons_self)
    refine .cons item hentry ?_ (ih fun hmem => hout (List.mem_cons_of_mem _ hmem))
    rw [List.getElem?_modify_ne _ _ hne]
    exact hitem

theorem Chain.unique {others : List Nat} (h : Chain cell stop table entry ids)
    (hother : Chain cell stop table entry others) : ids = others := by
  induction h generalizing others with
  | nil =>
    cases hother with
    | nil => rfl
    | cons _ hentry _ _ => exact absurd rfl hentry
  | cons item hentry hitem hrest ih =>
    cases hother with
    | nil => exact absurd rfl hentry
    | cons _ _ hitem' hrest' =>
      rw [hitem] at hitem'
      obtain rfl := Option.some.inj hitem'
      rw [ih hrest']

variable {head : UInt32}

/-- A list with a new cell in front. -/
theorem Chain.push_front (h : Chain cell stop table head ids)
    {item : α} (hnext : cell.next item = head) (hentry : entry ≠ stop) (hlen : entry.toNat = table.length) :
    Chain cell stop (table ++ [item]) entry (table.length :: ids) := by
  rw [← hlen]
  refine .cons item hentry ?_ ?_
  · rw [hlen, List.getElem?_concat_length]
  · rw [hnext]
    exact h.append [item]

/-- A list whose last cell now names a new one. -/
theorem Chain.push_back {item : α}
    (h : Chain cell stop table head (ids ++ [at_id])) (hnodup : (ids ++ [at_id]).Nodup) (hitem : cell.next item = stop)
    (hentry : entry ≠ stop) (hlen : entry.toNat = table.length) :
    Chain cell stop (table.modify at_id (cell.set_next · entry) ++ [item]) head (ids ++ [at_id] ++ [table.length]) := by
  induction ids generalizing head with
  | nil =>
    cases h with
    | cons old hhead hold hend =>
    refine .cons (cell.set_next old entry) hhead ?_ ?_
    · have hlt := (List.getElem?_eq_some_iff.mp hold).1
      rw [List.getElem?_append_left (by simpa using hlt), List.getElem?_modify_eq, hold]
      rfl
    · rw [cell.next_set_next, ← hlen]
      refine .cons item hentry ?_ ?_
      · rw [hlen]
        simp
      · rw [hitem]
        exact .nil
  | cons id ids ih =>
    cases h with
    | cons old hhead hold hend =>
    have hnodup' := List.nodup_cons.mp hnodup
    have hne : at_id ≠ head.toNat := fun heq => hnodup'.1 (by rw [← heq]; simp)
    refine .cons old hhead ?_ (ih hend hnodup'.2)
    have hlt := (List.getElem?_eq_some_iff.mp hold).1
    rw [List.getElem?_append_left (by simpa using hlt), List.getElem?_modify_ne _ _ hne]
    exact hold

/-- A walk with enough fuel visits exactly the cells of the list. -/
theorem Chain.walk_eq (h : Chain cell stop table entry ids) (hfuel : ids.length ≤ fuel) : walk cell stop table fuel entry = ids.filterMap (table[·]?) := by
  induction h generalizing fuel with
  | nil => cases fuel <;> simp [walk]
  | cons item hentry hitem hrest ih =>
    cases fuel with
    | zero => exact absurd hfuel (by simp)
    | succ fuel =>
      rw [List.length_cons] at hfuel
      simp only [walk, if_neg hentry, hitem, List.filterMap_cons]
      rw [ih (by omega)]

theorem Chain.last_cell_eq (h : Chain cell stop table entry (ids ++ [at_id])) (hfuel : ids.length < fuel) :
    (last_cell cell stop table fuel entry).toNat = at_id := by
  induction ids generalizing entry fuel with
  | nil =>
    cases h with
    | cons item hentry hitem hend =>
    cases fuel with
    | zero => exact absurd hfuel (by simp)
    | succ fuel =>
      generalize hnext : cell.next _ = next at hend
      cases hend
      simp only [last_cell, hitem, hnext, if_true]
  | cons id ids ih =>
    cases h with
    | cons item hentry hitem hend =>
    cases fuel with
    | zero => exact absurd hfuel (by simp)
    | succ fuel =>
      rw [List.length_cons] at hfuel
      have hmore : cell.next item ≠ stop := by
        intro hstop
        rw [hstop] at hend
        have hnil := hend.unique .nil
        simp at hnil
      simp only [last_cell, hitem, if_neg hmore]
      exact ih hend (by omega)

theorem Chain.nodup (h : Chain cell stop table entry ids) :
    ids.Nodup := by
  -- The list behind a cell is the same wherever the cell is met, so it cannot contain the cell.
  have htail : ∀ (entry : UInt32) (ids : List Nat), Chain cell stop table entry ids → ∀ id ∈ ids,
      ∃ (start : UInt32) (tail : List Nat), start.toNat = id ∧ tail.length < ids.length + 1 ∧
        Chain cell stop table start tail := by
    intro entry ids h
    induction h with
    | nil => simp
    | @cons entry item ids hentry hitem hrest ih =>
      intro id hid
      cases List.mem_cons.mp hid with
      | inl hhead => exact ⟨entry, entry.toNat :: ids, hhead.symm, by simp, .cons item hentry hitem hrest⟩
      | inr hmem =>
        obtain ⟨start, tail, hstart, hlen, hchain⟩ := ih id hmem
        exact ⟨start, tail, hstart, by rw [List.length_cons]; omega, hchain⟩
  induction h with
  | nil => exact List.nodup_nil
  | @cons entry item ids hentry hitem hrest ih =>
    refine List.nodup_cons.mpr ⟨fun hmem => ?_, ih⟩
    obtain ⟨start, tail, hstart, hlen, hchain⟩ := htail _ _ hrest _ hmem
    rw [UInt32.toNat_inj.mp hstart] at hchain
    have hsame := hchain.unique (.cons item hentry hitem hrest)
    rw [hsame, List.length_cons] at hlen
    omega

theorem Chain.length_le (h : Chain cell stop table entry ids) :
    ids.length ≤ table.length := by
  have hsub : ids ⊆ List.range table.length := fun id hid => List.mem_range.mpr (h.lt_length id hid)
  simpa using (List.subperm_of_subset h.nodup hsub).length_le

theorem Chain.contents_eq (h : Chain cell stop table entry ids) :
    contents cell stop table entry = ids.filterMap fun id => table[id]?.map cell.payload := by
  rw [contents, h.walk_eq h.length_le, List.map_filterMap]

theorem Chain.follow_eq (h : Chain cell stop table entry ids) (hfuel : ids.length < fuel) : follow cell stop table fuel entry = some (ids.filterMap (table[·]?)) := by
  induction h generalizing fuel with
  | nil =>
    cases fuel with
    | zero => cases hfuel
    | succ fuel => exact if_pos rfl
  | cons item hentry hitem hrest ih =>
    cases fuel with
    | zero => cases hfuel
    | succ fuel =>
      have hrest' := ih (Nat.lt_of_succ_lt_succ hfuel)
      rw [follow, if_neg hentry, hitem]
      dsimp only
      rw [hrest', List.filterMap_cons, hitem]
      rfl

/-- A list that is seen to its end is a chain, and a walk visits it. -/
theorem chain_of_follow {items : List α} (h : follow cell stop table fuel entry = some items) :
    ∃ ids, Chain cell stop table entry ids ∧ items = ids.filterMap (table[·]?) := by
  induction fuel generalizing entry items with
  | zero => cases h
  | succ fuel ih =>
    rw [follow] at h
    split at h
    next hstop =>
      obtain rfl := Option.some.inj h
      exact ⟨[], hstop ▸ .nil, rfl⟩
    next hentry =>
      cases hitem : table[entry.toNat]? with
      | none => rw [hitem] at h; cases h
      | some item =>
        rw [hitem] at h
        obtain ⟨rest, hrest, rfl⟩ := Option.map_eq_some_iff.mp h
        obtain ⟨ids, hchain, rfl⟩ := ih hrest
        refine ⟨entry.toNat :: ids, .cons item hentry hitem hchain, ?_⟩
        rw [List.filterMap_cons, hitem]

theorem follow_walk {items : List α}
    (h : follow cell stop table fuel entry = some items) : walk cell stop table table.length entry = items := by
  obtain ⟨ids, hchain, rfl⟩ := chain_of_follow h
  exact hchain.walk_eq hchain.length_le

/-- Payloads do not depend on the links between the cells, nor on the cells pushed behind the table. -/
theorem payload_modify_append (table more : List α) {id : Nat} (hid : id < table.length) (at_id : Nat) (entry : UInt32) :
    (table.modify at_id (cell.set_next · entry) ++ more)[id]?.map cell.payload = table[id]?.map cell.payload := by
  rw [List.getElem?_append_left (by simpa using hid), List.getElem?_modify]
  cases table[id]? with
  | none => rfl
  | some item =>
    by_cases hat : at_id = id
    · simp [hat, cell.payload_set_next]
    · simp [hat]

theorem Chain.contents_append (h : Chain cell stop table entry ids)
    (more : List α) : contents cell stop (table ++ more) entry = contents cell stop table entry := by
  rw [h.contents_eq, (h.append more).contents_eq]
  refine List.filterMap_congr fun id hid => ?_
  rw [List.getElem?_append_left (h.lt_length id hid)]

theorem Chain.contents_push_front
    (h : Chain cell stop table head ids) {item : α} (hnext : cell.next item = head) (hentry : entry ≠ stop)
    (hlen : entry.toNat = table.length) :
    contents cell stop (table ++ [item]) entry = cell.payload item :: contents cell stop table head := by
  rw [(h.push_front hnext hentry hlen).contents_eq, ← h.contents_append [item], (h.append [item]).contents_eq]
  rw [List.filterMap_cons, List.getElem?_concat_length]
  rfl

theorem Chain.contents_modify (h : Chain cell stop table entry ids) (hout : at_id ∉ ids) (link : UInt32) (more : List α) :
    contents cell stop (table.modify at_id (cell.set_next · link) ++ more) entry = contents cell stop table entry := by
  rw [h.contents_eq, ((h.modify hout _).append more).contents_eq]
  exact List.filterMap_congr fun id hid => payload_modify_append table more (h.lt_length id hid) at_id link

theorem Chain.contents_push_back {item : α}
    (h : Chain cell stop table head (ids ++ [at_id])) (hitem : cell.next item = stop)
    (hentry : entry ≠ stop) (hlen : entry.toNat = table.length) :
    contents cell stop (table.modify at_id (cell.set_next · entry) ++ [item]) head =
      contents cell stop table head ++ [cell.payload item] := by
  rw [(h.push_back h.nodup hitem hentry hlen).contents_eq, h.contents_eq,
    @List.filterMap_append _ _ (ids ++ [at_id])]
  congr 1
  · exact List.filterMap_congr fun id hid => payload_modify_append table [item] (h.lt_length id hid) at_id entry
  · have hlast : (table.modify at_id (cell.set_next · entry) ++ [item])[table.length]? = some item := by
      rw [List.getElem?_append_right (by simp), List.length_modify, Nat.sub_self, List.getElem?_cons_zero]
    rw [List.filterMap_cons, hlast]
    rfl

/-- The lists of the owners with these heads share no cell and leave none out. -/
structure Threads (cell : Cell α β) (stop : UInt32) (table : List α) (heads : List UInt32) (paths : List (List Nat)) :
    Prop where
  chains : List.Forall₂ (Chain cell stop table) heads paths
  covers : paths.flatten.Perm (List.range table.length)

theorem Threads.nil : Threads cell stop [] [] [] := ⟨.nil, .refl _⟩

section owner

variable {heads : List UInt32} {paths : List (List Nat)} (h : Threads cell stop table heads paths)
include h

theorem Threads.chain {owner : Nat} (hhead : heads[owner]? = some head) :
    ∃ ids, paths[owner]? = some ids ∧ Chain cell stop table head ids := by
  obtain ⟨hlt, rfl⟩ := List.getElem?_eq_some_iff.mp hhead
  have hlt' : owner < paths.length := h.chains.length_eq ▸ hlt
  exact ⟨paths[owner], List.getElem?_eq_getElem hlt', List.forall₂_iff_get.mp h.chains |>.2 owner hlt hlt'⟩

theorem Threads.nodup : paths.flatten.Nodup := h.covers.nodup_iff.mpr List.nodup_range

theorem Threads.disjoint {owner other : Nat} {others : List Nat} (hids : paths[owner]? = some ids)
    (hothers : paths[other]? = some others) (hne : owner ≠ other) : ids.Disjoint others := by
  obtain ⟨hlt, rfl⟩ := List.getElem?_eq_some_iff.mp hids
  obtain ⟨hlt', rfl⟩ := List.getElem?_eq_some_iff.mp hothers
  have hpairs := (List.nodup_flatten.mp h.nodup).2
  cases Nat.lt_or_gt_of_ne hne with
  | inl hbefore => exact List.pairwise_iff_getElem.mp hpairs owner other hlt hlt' hbefore
  | inr hafter =>
    intro id hid hid'
    exact List.pairwise_iff_getElem.mp hpairs other owner hlt' hlt hafter hid' hid

/-- A new owner with an empty list. -/
theorem Threads.grow : Threads cell stop table (heads ++ [stop]) (paths ++ [[]]) where
  chains := List.rel_append h.chains (.cons .nil .nil)
  covers := by
    rw [List.flatten_append, List.flatten_singleton, List.append_nil]
    exact h.covers

end owner

theorem flatten_modify_cons {lists : List (List Nat)} {owner : Nat} (hids : lists[owner]? = some ids)
    (id : Nat) {changed : List Nat} (hchanged : changed.Perm (id :: ids)) :
    (lists.set owner changed).flatten.Perm (id :: lists.flatten) := by
  induction lists generalizing owner with
  | nil => cases hids
  | cons first rest ih =>
    cases owner with
    | zero =>
      obtain rfl : first = ids := Option.some.inj hids
      rw [List.set_cons_zero, List.flatten_cons, List.flatten_cons, ← List.cons_append]
      exact hchanged.append_right _
    | succ owner =>
      rw [List.set_cons_succ, List.flatten_cons, List.flatten_cons]
      exact ((ih (by simpa using hids)).append_left first).trans List.perm_middle

/-- Owners other than the changed one keep their lists, the changed one gets the new head and list. -/
theorem forall₂_set {γ δ : Type} {R S : γ → δ → Prop} {left : List γ} {right : List δ} (h : List.Forall₂ R left right)
    {owner : Nat} {a : γ} {b : δ} (hother : ∀ other x y, other ≠ owner → left[other]? = some x →
      right[other]? = some y → R x y → S x y) (hown : S a b) :
    List.Forall₂ S (left.set owner a) (right.set owner b) := by
  refine List.forall₂_iff_get.mpr ⟨by simpa using h.length_eq, fun i hleft hright => ?_⟩
  rw [List.length_set] at hleft hright
  have hrel := (List.forall₂_iff_get.mp h).2 i hleft hright
  rw [List.get_eq_getElem, List.get_eq_getElem, List.getElem_set, List.getElem_set]
  by_cases hi : owner = i
  · rw [if_pos hi, if_pos hi]
    exact hown
  · rw [if_neg hi, if_neg hi]
    exact hother i _ _ (Ne.symm hi) (List.getElem?_eq_getElem hleft) (List.getElem?_eq_getElem hright) hrel

section push

variable {heads : List UInt32} {paths : List (List Nat)} (h : Threads cell stop table heads paths)
  {owner : Nat} {ids : List Nat} {item : α} {entry : UInt32}
include h

theorem Threads.push_front (hids : paths[owner]? = some ids) (hchain : Chain cell stop table head ids)
    (hnext : cell.next item = head) (hentry : entry ≠ stop) (hlen : entry.toNat = table.length) :
    Threads cell stop (table ++ [item]) (heads.set owner entry) (paths.set owner (table.length :: ids)) where
  chains := by
    refine forall₂_set h.chains (fun _ _ _ _ _ _ hother => hother.append [item]) ?_
    exact hchain.push_front hnext hentry hlen
  covers := by
    rw [List.length_append, List.length_singleton, List.range_succ]
    refine (flatten_modify_cons hids table.length (.refl _)).trans ?_
    exact (h.covers.cons table.length).trans (List.perm_append_singleton _ _).symm

theorem Threads.push_back {front : List Nat} (hids : paths[owner]? = some (front ++ [at_id]))
    (hhead : heads[owner]? = some head) (hchain : Chain cell stop table head (front ++ [at_id]))
    (hnext : cell.next item = stop) (hentry : entry ≠ stop) (hlen : entry.toNat = table.length) :
    Threads cell stop (table.modify at_id (cell.set_next · entry) ++ [item]) heads
      (paths.set owner (front ++ [at_id] ++ [table.length])) where
  chains := by
    have hset : heads.set owner head = heads := by
      obtain ⟨hlt, rfl⟩ := List.getElem?_eq_some_iff.mp hhead
      exact List.set_getElem_self hlt
    rw [← hset]
    refine forall₂_set h.chains (fun other x y hne _ hy hother => ?_) ?_
    · have hout : at_id ∉ y := fun hmem =>
        h.disjoint hids hy (Ne.symm hne) (List.mem_append_right _ List.mem_cons_self) hmem
      exact (hother.modify hout _).append [item]
    · exact hchain.push_back hchain.nodup hnext hentry hlen
  covers := by
    rw [List.length_append, List.length_modify, List.length_singleton, List.range_succ]
    refine (flatten_modify_cons hids table.length (List.perm_append_singleton _ _)).trans ?_
    exact (h.covers.cons table.length).trans (List.perm_append_singleton _ _).symm

end push

end uffs.lib.arena
