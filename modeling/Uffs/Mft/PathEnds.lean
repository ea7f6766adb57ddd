import Uffs.Mft.TreeEnds

open uffs.lib.arena uffs.text

namespace uffs.mft

/-! The loops of the path resolver with fuel that can run out, and that it never does. -/

/-- The entries of one record, as the breadth-first propagation walks them. -/
def invalidate_children (index : MftIndex) : Nat → UInt32 → List PathState × List Nat → Option (List PathState × List Nat)
  | 0, _, _ => none
  | fuel + 1, child_entry, acc =>
    if child_entry = NO_ENTRY then some acc
    else
      match index.children[child_entry.toNat]? with
      | none => some acc
      | some child_info => invalidate_children index fuel child_info.next_entry (invalidate_child index acc child_info)

def propagate_loop (index : MftIndex) : Nat → List Nat → List PathState → Option (List PathState)
  | 0, _, _ => none
  | _ + 1, [], state => some state
  | fuel + 1, parent_idx :: queue, state =>
    match index.records[parent_idx]? with
    | none => propagate_loop index fuel queue state
    | some record => do
      let (state, queued) ← invalidate_children index fuel record.first_child (state, [])
      propagate_loop index fuel (queue ++ queued) state

def climb_loop (index : MftIndex) : Nat → Nat → List PathState → List Nat → Option (List PathState × List Nat × PathState)
  | 0, _, _, _ => none
  | fuel + 1, current_idx, state, chain =>
    match state[current_idx]? with
    | some .valid => some (state, chain, .valid)
    | some .invalid => some (state, chain, .invalid)
    | some .visiting => some (state, chain, .invalid)
    | _ =>
      let state' := state.set current_idx .visiting
      let chain' := chain ++ [current_idx]
      match index.records[current_idx]? with
      | none => some (state', chain', .invalid)
      | some record =>
        let parent_frs := record.first_name.parent_frs
        if parent_frs = ROOT_FRS then some (state', chain', .valid)
        else if parent_frs = record.frs ∨ parent_frs = NO_ENTRY.toUInt64 then
          some (state', chain', if record.frs = ROOT_FRS then .valid else .invalid)
        else
          match index.frs_to_idx_opt parent_frs with
          | none => some (state', chain', .invalid)
          | some parent_idx => climb_loop index fuel parent_idx state' chain'

def validate_within (index : MftIndex) (fuel : Nat) (state : List PathState) (start_idx : Nat) : Option (List PathState) :=
  if state[start_idx]? = some .unseen then do
    let (state, chain, final_state) ← climb_loop index fuel start_idx state []
    some (chain.foldl (fun s chain_idx => s.set chain_idx final_state) state)
  else some state

/-- States before the propagation. -/
def start_states (index : MftIndex) (include_system_metafiles : Bool) : List PathState :=
  if include_system_metafiles then index.records.map fun _ => .unseen else mark_system_metafiles_invalid index

def PathResolver.build_within (index : MftIndex) (include_system_metafiles : Bool) (fuel : Nat) : Option (List PathState) := do
  let state := start_states index include_system_metafiles
  let state ← propagate_loop index fuel ((List.range state.length).filter fun idx => state[idx]? = some .invalid) state
  (List.range index.records.length).foldlM (validate_within index fuel) state

/-- Records up to the root, or to where the parent chain stops. -/
def materialize_chain (index : MftIndex) : Nat → Nat → Option (List Nat)
  | 0, _ => none
  | fuel + 1, current_idx =>
    match index.records[current_idx]? with
    | none => some []
    | some record =>
      let parent_frs := record.first_name.parent_frs
      if parent_frs = ROOT_FRS ∨ parent_frs = record.frs ∨ parent_frs = NO_ENTRY.toUInt64 then some [current_idx]
      else
        match index.frs_to_idx_opt parent_frs with
        | none => some [current_idx]
        | some parent_idx => (materialize_chain index fuel parent_idx).map (current_idx :: ·)

def MftIndex.record_name (self : MftIndex) (record : FileRecord) : Str := self.get_name record.first_name.name

/-- Full path of a record; the root alone keeps its separator. -/
def materialize_path (index : MftIndex) (volume : Char) (fuel idx : Nat) : Option Str := do
  let chain ← materialize_chain index fuel idx
  let path := chain.reverse.foldl (fun path chain_idx =>
    match index.records[chain_idx]? with
    | none => path
    | some record =>
      let name := index.record_name record
      if name ≠ [] ∧ name ≠ ['.'] then path ++ '\\' :: name else path) [volume, ':']
  some (if path.length = 2 then path ++ ['\\'] else path)

section propagate

variable {index : MftIndex}

def unseen_count (state : List PathState) : Nat := state.count .unseen

theorem count_set_unseen {state : List PathState} {idx : Nat} (h : state[idx]? = some .unseen) {mark : PathState}
    (hmark : mark ≠ .unseen) : unseen_count (state.set idx mark) + 1 = unseen_count state := by
  obtain ⟨hlt, hget⟩ := List.getElem?_eq_some_iff.mp h
  rw [unseen_count, unseen_count, List.count_set hlt, hget]
  have hpos : 0 < List.count PathState.unseen state := List.count_pos_iff.mpr (hget ▸ List.getElem_mem hlt)
  simp only [BEq.rfl, if_true, beq_iff_eq, if_neg hmark]
  omega

/-- A child is queued when it turns invalid. -/
theorem invalidate_child_count (acc : List PathState × List Nat) (child : ChildInfo) :
    unseen_count (invalidate_child index acc child).1 + (invalidate_child index acc child).2.length =
      unseen_count acc.1 + acc.2.length := by
  rw [invalidate_child]
  split
  · rfl
  · split
    next hunseen =>
      have hcount := @count_set_unseen _ _ hunseen .invalid (by decide)
      dsimp only
      rw [List.length_append, List.length_singleton]
      omega
    next => rfl

theorem invalidate_children_count (children : List ChildInfo) (acc : List PathState × List Nat) :
    unseen_count (children.foldl (invalidate_child index) acc).1 + (children.foldl (invalidate_child index) acc).2.length =
      unseen_count acc.1 + acc.2.length := by
  induction children generalizing acc with
  | nil => rfl
  | cons child children ih => rw [List.foldl_cons, ih, invalidate_child_count]

theorem invalidate_children_chain {entry : UInt32} {ids : List Nat} (h : Chain child_cell NO_ENTRY index.children entry ids)
    {fuel : Nat} (hfuel : ids.length < fuel) (acc : List PathState × List Nat) :
    invalidate_children index fuel entry acc = some ((ids.filterMap (index.children[·]?)).foldl (invalidate_child index) acc) := by
  induction h generalizing fuel acc with
  | nil =>
    cases fuel with
    | zero => cases hfuel
    | succ fuel => exact if_pos rfl
  | cons child hentry hchild hrest ih =>
    cases fuel with
    | zero => cases hfuel
    | succ fuel =>
      rw [invalidate_children, if_neg hentry, hchild, List.filterMap_cons, hchild]
      exact ih (Nat.lt_of_succ_lt_succ hfuel) _

/-- Every list of directory entries ends. -/
def MftIndex.ChildrenEnd (index : MftIndex) : Prop :=
  ∀ rec ∈ index.records, ∃ ids, Chain child_cell NO_ENTRY index.children rec.first_child ids

/-- Every record is queued once, so the queue empties. -/
theorem propagate_loop_eq (hchildren : index.ChildrenEnd) {work fuel : Nat} {queue : List Nat} {state : List PathState}
    (hwork : queue.length + unseen_count state ≤ work) (hfuel : index.chain_fuel + work < fuel) :
    propagate_loop index fuel queue state = some (propagate_invalid index work queue state) := by
  induction work generalizing fuel queue state with
  | zero =>
    cases queue with
    | nil =>
      cases fuel with
      | zero => omega
      | succ fuel => rfl
    | cons parent_idx queue => rw [List.length_cons] at hwork; omega
  | succ work ih =>
    cases fuel with
    | zero => omega
    | succ fuel =>
      cases queue with
      | nil => rfl
      | cons parent_idx queue =>
        rw [List.length_cons] at hwork
        rw [propagate_loop, propagate_invalid]
        cases hrec : index.records[parent_idx]? with
        | none => exact ih (by omega) (by omega)
        | some record =>
          obtain ⟨ids, hchain⟩ := hchildren record (List.mem_of_getElem? hrec)
          have hlen := hchain.length_le
          have hentries : index.child_entries record = ids.filterMap (index.children[·]?) :=
            (walk_chain_eq child_cell index.children _ _).trans (hchain.walk_eq hlen)
          have hcount := @invalidate_children_count index (index.child_entries record) (state, [])
          dsimp only
          rw [invalidate_children_chain hchain (by rw [MftIndex.chain_fuel] at hfuel; omega), ← hentries]
          refine ih ?_ (by omega)
          rw [List.length_append]
          dsimp only [List.length_nil] at hcount
          omega

theorem propagate_invalid_length (work : Nat) (queue : List Nat) (state : List PathState) :
    (propagate_invalid index work queue state).length = state.length := by
  have hchild : ∀ (children : List ChildInfo) (acc : List PathState × List Nat),
      (children.foldl (invalidate_child index) acc).1.length = acc.1.length := by
    intro children
    induction children with
    | nil => exact fun _ => rfl
    | cons child children ih =>
      intro acc
      rw [List.foldl_cons, ih, invalidate_child]
      split
      · rfl
      · split
        · exact List.length_set
        · rfl
  induction work generalizing queue state with
  | zero => rfl
  | succ work ih =>
    cases queue with
    | nil => rfl
    | cons parent_idx queue =>
      rw [propagate_invalid]
      split
      · exact ih _ _
      · exact (ih _ _).trans (hchild _ _)

/-- The propagation makes nothing valid. -/
theorem propagate_invalid_valid (work : Nat) {queue : List Nat} {state : List PathState}
    (h : ∀ i : Nat, state[i]? ≠ some PathState.valid) :
    ∀ i : Nat, (propagate_invalid index work queue state)[i]? ≠ some PathState.valid := by
  have hchild : ∀ (children : List ChildInfo) (acc : List PathState × List Nat), (∀ i : Nat, acc.1[i]? ≠ some PathState.valid) →
      ∀ i : Nat, (children.foldl (invalidate_child index) acc).1[i]? ≠ some PathState.valid := by
    intro children
    induction children with
    | nil => exact fun _ h => h
    | cons child children ih =>
      intro acc h
      refine ih _ fun i => ?_
      rw [invalidate_child]
      split
      · exact h i
      · split
        · rw [List.getElem?_set]
          split
          · split <;> simp
          · exact h i
        · exact h i
  induction work generalizing queue state with
  | zero => exact h
  | succ work ih =>
    cases queue with
    | nil => exact h
    | cons parent_idx queue =>
      rw [propagate_invalid]
      split
      · exact ih h
      · exact ih (hchild _ _ h)

end propagate

section climb

variable {index : MftIndex} {state : List PathState}

/-- Every step of a climb marks an unseen record. -/
theorem climb_loop_eq {fuel enough : Nat} (hlen : state.length = index.records.length) (hfuel : unseen_count state < fuel)
    (henough : unseen_count state < enough) (current_idx : Nat) (chain : List Nat) :
    climb_loop index fuel current_idx state chain = some (climb index enough current_idx state chain) := by
  induction fuel generalizing enough current_idx state chain with
  | zero => cases hfuel
  | succ fuel ih =>
    obtain ⟨enough, rfl⟩ : ∃ less, enough = less + 1 := ⟨enough - 1, by omega⟩
    rw [climb_loop, climb]
    cases hmark : state[current_idx]? with
    | none =>
      have hnone : index.records[current_idx]? = none := by
        rw [List.getElem?_eq_none_iff] at hmark ⊢
        omega
      rw [hnone]
    | some mark =>
      cases mark with
      | valid => rfl
      | invalid => rfl
      | visiting => rfl
      | unseen =>
        cases hrec : index.records[current_idx]? with
        | none => rfl
        | some record =>
          dsimp only
          split
          · rfl
          · split
            · rfl
            · cases hparent : index.frs_to_idx_opt record.first_name.parent_frs with
              | none => rfl
              | some parent_idx =>
                have hcount := @count_set_unseen _ _ hmark .visiting (by decide)
                exact ih (List.length_set.trans hlen) (by omega) (by omega) parent_idx _

/-- The parent chain of a record stops. -/
def Stops (index : MftIndex) (idx : Nat) : Prop := ∃ fuel chain, materialize_chain index fuel idx = some chain

theorem Stops.of_parent {idx parent_idx : Nat} {record : FileRecord} (hrec : index.records[idx]? = some record)
    (hparent : index.frs_to_idx_opt record.first_name.parent_frs = some parent_idx) (h : Stops index parent_idx) :
    Stops index idx := by
  obtain ⟨fuel, chain, hchain⟩ := h
  rw [Stops]
  by_cases hend : record.first_name.parent_frs = ROOT_FRS ∨ record.first_name.parent_frs = record.frs ∨
      record.first_name.parent_frs = NO_ENTRY.toUInt64
  · exact ⟨1, [idx], by rw [materialize_chain, hrec]; exact if_pos hend⟩
  · refine ⟨fuel + 1, idx :: chain, ?_⟩
    rw [materialize_chain, hrec]
    dsimp only
    rw [if_neg hend, hparent]
    dsimp only
    rw [hchain]
    rfl

/-- A climb that ends well has stopping records on its whole way, and it makes no record valid. -/
theorem climb_stops {fuel : Nat} (hvalid : ∀ i, state[i]? = some .valid → Stops index i) (current_idx : Nat)
    (chain : List Nat) {state' : List PathState} {chain' : List Nat} {final_state : PathState}
    (h : climb index fuel current_idx state chain = (state', chain', final_state)) :
    (∀ i, state'[i]? = some .valid → Stops index i) ∧ state'.length = state.length ∧
      ∃ new, chain' = chain ++ new ∧ (final_state = .valid → Stops index current_idx ∧ ∀ i ∈ new, Stops index i) := by
  induction fuel generalizing current_idx state chain with
  | zero =>
    cases h
    exact ⟨hvalid, rfl, [], (List.append_nil _).symm, fun h => by cases h⟩
  | succ fuel ih =>
    rw [climb] at h
    split at h
    next hcurrent =>
      cases h
      exact ⟨hvalid, rfl, [], (List.append_nil _).symm, fun _ => ⟨hvalid _ hcurrent, fun i hi => by cases hi⟩⟩
    next =>
      cases h
      exact ⟨hvalid, rfl, [], (List.append_nil _).symm, fun h => by cases h⟩
    next =>
      cases h
      exact ⟨hvalid, rfl, [], (List.append_nil _).symm, fun h => by cases h⟩
    next =>
      have hmarked : ∀ i, (state.set current_idx .visiting)[i]? = some .valid → Stops index i := by
        intro i hi
        rw [List.getElem?_set] at hi
        split at hi
        · split at hi <;> cases hi
        · exact hvalid i hi
      -- The climb ends here: the record's own parent chain does as well.
      have hhere : ∀ {state' : List PathState} {chain' : List Nat} {final_state end_state : PathState},
          (final_state = .valid → Stops index current_idx) →
          (state.set current_idx .visiting, chain ++ [current_idx], final_state) = (state', chain', end_state) →
          (∀ i, state'[i]? = some .valid → Stops index i) ∧ state'.length = state.length ∧
            ∃ new, chain' = chain ++ new ∧ (end_state = .valid → Stops index current_idx ∧ ∀ i ∈ new, Stops index i) := by
        rintro state' chain' final_state end_state hstops ⟨⟩
        refine ⟨hmarked, List.length_set, [current_idx], rfl, fun hend => ⟨hstops hend, fun i hi => ?_⟩⟩
        rw [List.mem_singleton.mp hi]
        exact hstops hend
      cases hrec : index.records[current_idx]? with
      | none =>
        rw [hrec] at h
        exact hhere (fun h => by cases h) h
      | some record =>
        rw [hrec] at h
        dsimp only at h
        split at h
        next hroot =>
          refine hhere (fun _ => ⟨1, [current_idx], ?_⟩) h
          rw [materialize_chain, hrec]
          exact if_pos (.inl hroot)
        next =>
          split at h
          next hself =>
            refine hhere (fun _ => ⟨1, [current_idx], ?_⟩) h
            rw [materialize_chain, hrec]
            exact if_pos (.inr hself)
          next =>
            cases hparent : index.frs_to_idx_opt record.first_name.parent_frs with
            | none =>
              rw [hparent] at h
              exact hhere (fun h => by cases h) h
            | some parent_idx =>
              rw [hparent] at h
              obtain ⟨hstate, hlen, new, hnew, hstops⟩ := ih hmarked parent_idx _ h
              refine ⟨hstate, hlen.trans List.length_set, current_idx :: new, by rw [hnew]; simp, fun hend => ?_⟩
              obtain ⟨habove, hrest⟩ := hstops hend
              have hcurrent := habove.of_parent hrec hparent
              refine ⟨hcurrent, fun i hi => ?_⟩
              cases List.mem_cons.mp hi with
              | inl heq => exact heq ▸ hcurrent
              | inr hmem => exact hrest i hmem

/-- What holds of the states between two records of the pass. -/
structure Validated (index : MftIndex) (state : List PathState) : Prop where
  length : state.length = index.records.length
  stops : ∀ i : Nat, state[i]? = some PathState.valid → Stops index i

theorem mark_chain_valid {final_state : PathState} {chain : List Nat}
    (hvalid : ∀ i : Nat, state[i]? = some PathState.valid → Stops index i)
    (hchain : final_state = .valid → ∀ i ∈ chain, Stops index i) :
    (∀ i : Nat, (chain.foldl (fun s chain_idx => s.set chain_idx final_state) state)[i]? = some PathState.valid → Stops index i) ∧
      (chain.foldl (fun s chain_idx => s.set chain_idx final_state) state).length = state.length := by
  induction chain generalizing state with
  | nil => exact ⟨hvalid, rfl⟩
  | cons chain_idx chain ih =>
    rw [List.foldl_cons]
    obtain ⟨hstops, hlen⟩ := @ih (state.set chain_idx final_state) (fun i hi => by
      rw [List.getElem?_set] at hi
      split at hi
      next heq =>
        split at hi
        · exact heq ▸ hchain (Option.some.inj hi) chain_idx (List.mem_cons_self ..)
        · cases hi
      next => exact hvalid i hi) (fun hfinal i hi => hchain hfinal i (List.mem_cons_of_mem _ hi))
    exact ⟨hstops, hlen.trans List.length_set⟩

theorem unseen_count_le (state : List PathState) : unseen_count state ≤ state.length := List.count_le_length

/-- One record of the pass. -/
theorem validate_within_eq {fuel : Nat} (hfuel : index.records.length < fuel) (hlen : state.length = index.records.length)
    (start_idx : Nat) : validate_within index fuel state start_idx = some (validate_one index state start_idx) := by
  have hcount := unseen_count_le state
  rw [validate_within, validate_one, climb_loop_eq hlen (by omega) (Nat.lt_succ_of_le (hlen ▸ hcount))]
  split
  · rfl
  · rfl

theorem Validated.one (h : Validated index state) (start_idx : Nat) :
    Validated index (validate_one index state start_idx) := by
  rw [validate_one]
  split
  next =>
    rcases hclimb : climb index (index.records.length + 1) start_idx state [] with ⟨state', chain, final_state⟩
    obtain ⟨hvalid, hlength, new, hnew, hstops⟩ := climb_stops h.stops start_idx [] hclimb
    rw [List.nil_append] at hnew
    subst hnew
    obtain ⟨hmarked, hmarked_len⟩ := mark_chain_valid hvalid fun hfinal => (hstops hfinal).2
    exact ⟨hmarked_len.trans (hlength.trans h.length), hmarked⟩
  next => exact h

theorem validate_within_all {fuel : Nat} (hfuel : index.records.length < fuel) (starts : List Nat) {state : List PathState}
    (h : Validated index state) :
    starts.foldlM (validate_within index fuel) state = some (starts.foldl (validate_one index) state) ∧
      Validated index (starts.foldl (validate_one index) state) := by
  induction starts generalizing state with
  | nil => exact ⟨rfl, h⟩
  | cons start_idx starts ih =>
    rw [List.foldlM_cons, List.foldl_cons, validate_within_eq hfuel h.length]
    exact ih (h.one start_idx)

theorem start_states_length (include_system_metafiles : Bool) :
    (start_states index include_system_metafiles).length = index.records.length := by
  rw [start_states]
  split
  · exact List.length_map ..
  · exact List.length_map ..

theorem start_states_valid (include_system_metafiles : Bool) (i : Nat) :
    (start_states index include_system_metafiles)[i]? ≠ some PathState.valid := by
  rw [start_states]
  split
  · rw [List.getElem?_map]
    cases index.records[i]? <;> simp
  · rw [mark_system_metafiles_invalid, List.getElem?_map]
    cases index.records[i]? with
    | none => simp
    | some record =>
      rw [Option.map_some]
      split <;> simp

/-- What is queued at first is not unseen. -/
theorem invalid_unseen_le (state : List PathState) :
    ((List.range state.length).filter fun idx => state[idx]? = some .invalid).length + unseen_count state ≤ state.length := by
  have hmap : (List.range state.length).map (state[·]?) = state.map some := by
    refine List.ext_getElem (by simp) fun i hi hi' => ?_
    rw [List.length_map] at hi'
    rw [List.getElem_map, List.getElem_map, List.getElem_range, List.getElem?_eq_getElem hi']
  have hinvalid : ((List.range state.length).filter fun idx => state[idx]? = some .invalid).length =
      ((state.map some).filter fun mark => mark = some .invalid).length := by
    rw [← hmap, List.filter_map, List.length_map]
    rfl
  rw [hinvalid]
  clear hmap hinvalid
  induction state with
  | nil => exact Nat.le_refl _
  | cons mark state ih =>
    rw [unseen_count] at ih ⊢
    cases mark <;> simp <;> omega

/-- States after the propagation, before any parent chain is climbed. -/
theorem validated_start (include_system_metafiles : Bool) :
    Validated index (propagate_invalid_to_descendants index (start_states index include_system_metafiles)) where
  length := (propagate_invalid_length ..).trans (start_states_length include_system_metafiles)
  stops i hi := absurd hi (propagate_invalid_valid _ (start_states_valid include_system_metafiles) i)

/-- The resolver ends where the lists of directory entries do. -/
theorem build_within_eq (hchildren : index.ChildrenEnd) (include_system_metafiles : Bool) {fuel : Nat}
    (hfuel : index.chain_fuel + index.records.length < fuel) :
    PathResolver.build_within index include_system_metafiles fuel =
      some (validate_remaining index (propagate_invalid_to_descendants index (start_states index include_system_metafiles))) := by
  have hlen := @start_states_length index include_system_metafiles
  have hwork := invalid_unseen_le (start_states index include_system_metafiles)
  rw [hlen] at hwork
  have hpropagated := @propagate_loop_eq index hchildren _ fuel _ _ hwork (by omega)
  obtain ⟨hrun, -⟩ := @validate_within_all index fuel (by omega) (List.range index.records.length) _
    (validated_start include_system_metafiles)
  rw [PathResolver.build_within, hlen, hpropagated, Option.bind_eq_bind, Option.bind_some]
  rw [propagate_invalid_to_descendants, hlen] at hrun
  rw [validate_remaining, propagate_invalid_to_descendants, hlen]
  exact hrun

/-- The resolver ends, and a record it marks valid has a parent chain that ends. -/
theorem build_ends (hclosed : index.Closed) (include_system_metafiles : Bool) :
    (∃ fuel, PathResolver.build_within index include_system_metafiles fuel =
      some (validate_remaining index (propagate_invalid_to_descendants index (start_states index include_system_metafiles)))) ∧
      Validated index
        (validate_remaining index (propagate_invalid_to_descendants index (start_states index include_system_metafiles))) := by
  obtain ⟨-, hvalidated⟩ := validate_within_all (Nat.lt_succ_self _) (List.range index.records.length)
    (@validated_start index include_system_metafiles)
  exact ⟨⟨_, build_within_eq hclosed.children include_system_metafiles (Nat.lt_succ_self _)⟩, hvalidated⟩

/-- A path of a record whose parent chain ends is materialized. -/
theorem Stops.materialize_path {idx : Nat} (h : Stops index idx) (volume : Char) :
    ∃ fuel path, materialize_path index volume fuel idx = some path := by
  obtain ⟨fuel, chain, hchain⟩ := h
  exact ⟨fuel, _, by rw [mft.materialize_path, hchain]; rfl⟩

end climb

end uffs.mft
