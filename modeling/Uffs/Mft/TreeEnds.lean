import Uffs.Lib.Worklist
import Uffs.Mft.Stored
import Uffs.Mft.TreeShape

open uffs.lib.arena uffs.lib.worklist

namespace uffs.mft

/-! The traversal keeps no record of where it is, so it ends exactly if no directory is below itself. -/

/-- Records of the entries of a directory; a file has none. -/
def MftIndex.next_level (self : MftIndex) (idx : Nat) : List Nat :=
  match self.records[idx]? with
  | none => []
  | some rec =>
    if rec.stdinfo.is_directory then (self.child_entries rec).filterMap fun ce => self.frs_to_idx_opt ce.child_frs else []

/-- Every chain ends, and the lookup table stays in the records. -/
structure MftIndex.Closed (index : MftIndex) : Prop where
  mapped : ∀ {frs i}, index.frs_to_idx_opt frs = some i → i < index.records.length
  children : ∀ rec ∈ index.records, ∃ ids, Chain child_cell NO_ENTRY index.children rec.first_child ids
  streams : ∀ rec ∈ index.records, ∃ ids, Chain stream_cell NO_ENTRY index.streams rec.first_stream.next_entry ids
  internals : ∀ rec ∈ index.records, ∃ ids, Chain internal_cell NO_ENTRY index.internal_streams rec.first_internal_stream ids

theorem Wf.closed {index : MftIndex} (h : Wf index) : index.Closed where
  mapped hmap := by
    obtain ⟨rec, hrec, _⟩ := h.mapped hmap
    exact (List.getElem?_eq_some_iff.mp hrec).1
  children _ hrec := h.children.chain (List.mem_iff_getElem?.mp hrec).choose_spec
  streams _ hrec := h.streams.chain (List.mem_iff_getElem?.mp hrec).choose_spec
  internals _ hrec := h.internals.chain (List.mem_iff_getElem?.mp hrec).choose_spec

variable {self left : TreeTraversal} {ids : List Nat}

section ends

variable {index : MftIndex} {fuel : Nat} {entries : List ChildInfo}

theorem child_entries_of_follow {rec : FileRecord}
    (h : follow child_cell NO_ENTRY index.children fuel rec.first_child = some entries) :
    index.child_entries rec = entries :=
  (walk_chain_eq child_cell index.children _ _).trans (follow_walk h)

theorem next_level_file {idx : Nat} {rec : FileRecord} (hrec : index.records[idx]? = some rec)
    (hdir : ¬ rec.stdinfo.is_directory = true) : index.next_level idx = [] := by
  rw [MftIndex.next_level, hrec]
  exact if_neg hdir

theorem next_level_directory {idx : Nat} {rec : FileRecord} (hrec : index.records[idx]? = some rec)
    (hdir : rec.stdinfo.is_directory = true) :
    index.next_level idx = (index.child_entries rec).filterMap fun ce => index.frs_to_idx_opt ce.child_frs := by
  rw [MftIndex.next_level, hrec]
  exact if_pos hdir

theorem next_level_shape {other : MftIndex} (h : index.shape = other.shape) : index.next_level = other.next_level := by
  funext idx
  cases hrec : index.records[idx]? with
  | none =>
    rw [MftIndex.next_level, MftIndex.next_level, hrec, shape_no_record h hrec]
  | some rec =>
    obtain ⟨rec', hrec', hshape⟩ := shape_record h hrec
    have hdir : rec'.stdinfo = rec.stdinfo := by
      have hfield : rec'.shape.stdinfo = rec.shape.stdinfo := by rw [hshape]
      exact hfield
    have hhead : rec'.first_child = rec.first_child := by
      have hfield : rec'.shape.first_child = rec.shape.first_child := by rw [hshape]
      exact hfield
    have hentries : other.child_entries rec' = index.child_entries rec := by
      rw [MftIndex.child_entries, MftIndex.child_entries, shape_children h, hhead]
    have hlookup : index.frs_to_idx_opt = other.frs_to_idx_opt := funext (shape_frs_to_idx h)
    rw [MftIndex.next_level, MftIndex.next_level, hrec, hrec']
    dsimp only
    rw [hdir, hentries, hlookup]

/-- A loop that gets through has visited every entry. -/
theorem visited_of_entries {visit : Visitor} (hvisit : visit.KeepsShape) {acc result : Agg × TreeTraversal}
    (h : TreeTraversal.visit_entries visit entries acc = some result) {ce : ChildInfo} (hce : ce ∈ entries) {c : Nat}
    (hc : acc.2.index.frs_to_idx_opt ce.child_frs = some c) :
    ∃ (self left : TreeTraversal) (agg : Agg) (name_info total_names : UInt32), self.index.shape = acc.2.index.shape ∧
      visit self c name_info total_names = some (agg, left) := by
  induction entries generalizing acc with
  | nil => cases hce
  | cons first entries ih =>
    rw [visit_entries_cons] at h
    obtain ⟨⟨sum, middle⟩, hmiddle, hrest⟩ := Option.bind_eq_some_iff.mp h
    have hshape : middle.index.shape = acc.2.index.shape := visit_child_shape hvisit hmiddle
    cases List.mem_cons.mp hce with
    | inl hfirst =>
      subst hfirst
      rcases visit_child_some hmiddle with ⟨hnone, -, -⟩ | ⟨child_idx, child, child_agg, hidx, -, -, hrun⟩
      · rw [hc] at hnone
        cases hnone
      · rw [hc] at hidx
        cases hidx
        exact ⟨_, _, _, _, _, rfl, hrun⟩
    | inr hrest' =>
      obtain ⟨self, left, agg, name_info, total_names, hself, hrun⟩ :=
        ih hrest hrest' ((shape_frs_to_idx hshape _).trans hc)
      exact ⟨self, left, agg, name_info, total_names, hself.trans hshape, hrun⟩

/-- A visit that ends has nothing endless below it. -/
theorem acc_of_preprocess {idx : Nat} {name_info total_names : UInt32} {agg : Agg}
    (h : self.preprocess fuel idx name_info total_names = some (agg, left)) (hshape : self.index.shape = index.shape) :
    Acc (Pushes index.next_level) idx := by
  induction fuel generalizing self left idx name_info total_names agg with
  | zero => cases h
  | succ fuel ih =>
    rw [← next_level_shape hshape] at ih ⊢
    constructor
    intro c hc
    rw [Pushes] at hc
    rcases preprocess_some h with ⟨hnone, -, -⟩ | ⟨rec, ⟨visit⟩⟩
    · rw [MftIndex.next_level, hnone] at hc
      cases hc
    · have hchildren := visit.hchildren
      split at hchildren
      next hdir =>
        obtain ⟨entries, sum, inner, hentries, hvisited, -, -⟩ := aggregate_children_some (preprocess_shape fuel) hchildren
        have hmerged : visit.merged.index.shape = self.index.shape := (merge_wof_alloc_index visit.hmerge).1
        rw [next_level_directory visit.hrec hdir] at hc
        obtain ⟨ce, hce, hidx⟩ := List.mem_filterMap.mp hc
        rw [shape_children hmerged] at hentries
        rw [child_entries_of_follow hentries] at hce
        obtain ⟨self', left', agg', name_info', total_names', hself', hrun⟩ :=
          visited_of_entries (preprocess_shape fuel) hvisited hce ((shape_frs_to_idx hmerged _).trans hidx)
        exact ih hrun ((hself'.trans hmerged).trans hshape)
      next hdir =>
        rw [next_level_file visit.hrec hdir] at hc
        cases hc

/-- The overlay's stream is searched along a chain that ends. -/
theorem find_wof_stream_ends {entry : UInt32} (h : Chain stream_cell NO_ENTRY index.streams entry ids)
    (hfuel : ids.length < fuel) :
    ∃ idx, index.find_wof_stream fuel entry = some idx ∧ (idx = NO_ENTRY ∨ ∃ stream, index.streams[idx.toNat]? = some stream) := by
  induction h generalizing fuel with
  | nil =>
    cases fuel with
    | zero => cases hfuel
    | succ fuel => exact ⟨NO_ENTRY, if_pos rfl, .inl rfl⟩
  | @cons entry stream ids hentry hstream hrest ih =>
    cases fuel with
    | zero => cases hfuel
    | succ fuel =>
      rw [MftIndex.find_wof_stream, if_neg hentry, hstream]
      dsimp only
      split
      · exact ⟨entry, rfl, .inr ⟨stream, hstream⟩⟩
      · exact ih (Nat.lt_of_succ_lt_succ hfuel)

theorem add_internal_streams_ends (snap : RecordSnapshot) {entry : UInt32}
    (h : Chain internal_cell NO_ENTRY index.internal_streams entry ids) (hfuel : ids.length < fuel) (own : SizeInfo) :
    ∃ sum, index.add_internal_streams snap fuel entry own = some sum := by
  induction h generalizing fuel own with
  | nil =>
    cases fuel with
    | zero => cases hfuel
    | succ fuel => exact ⟨own, if_pos rfl⟩
  | cons ist hentry hist hrest ih =>
    cases fuel with
    | zero => cases hfuel
    | succ fuel =>
      rw [MftIndex.add_internal_streams, if_neg hentry, hist]
      exact ih (Nat.lt_of_succ_lt_succ hfuel) _

theorem add_overflow_streams_ends (snap : RecordSnapshot) {entry : UInt32}
    (h : Chain stream_cell NO_ENTRY index.streams entry ids) (hfuel : ids.length < fuel) (own : SizeInfo) :
    ∃ sum, index.add_overflow_streams snap fuel entry own = some sum := by
  induction h generalizing fuel own with
  | nil =>
    cases fuel with
    | zero => cases hfuel
    | succ fuel => exact ⟨own, if_pos rfl⟩
  | cons stream hentry hstream hrest ih =>
    cases fuel with
    | zero => cases hfuel
    | succ fuel =>
      rw [MftIndex.add_overflow_streams, if_neg hentry, hstream]
      exact ih (Nat.lt_of_succ_lt_succ hfuel) _

/-- Fuel that sees the end of every chain. -/
def MftIndex.chain_fuel (self : MftIndex) : Nat :=
  self.streams.length + self.internal_streams.length + self.children.length + 1

theorem chain_fuel_shape {other : MftIndex} (h : other.shape = index.shape) : other.chain_fuel = index.chain_fuel := by
  have hfuel : other.shape.chain_fuel = index.shape.chain_fuel := by rw [h]
  exact hfuel

/-- Chains are part of the shape. -/
theorem MftIndex.Closed.of_shape {other : MftIndex} (hclosed : index.Closed) (h : other.shape = index.shape) :
    other.Closed := by
  have hshape : index.shape.Closed := by
    refine ⟨fun hmap => ?_, fun rec hrec => ?_, fun rec hrec => ?_, fun rec hrec => ?_⟩
    · rw [MftIndex.shape, List.length_map]
      exact hclosed.mapped hmap
    · obtain ⟨old, hold, rfl⟩ := List.mem_map.mp hrec
      exact hclosed.children old hold
    · obtain ⟨old, hold, rfl⟩ := List.mem_map.mp hrec
      exact hclosed.streams old hold
    · obtain ⟨old, hold, rfl⟩ := List.mem_map.mp hrec
      exact hclosed.internals old hold
  rw [← h] at hshape
  refine ⟨fun {frs i} hmap => ?_, fun rec hrec => ?_, fun rec hrec => ?_, fun rec hrec => ?_⟩
  · have hlt := @MftIndex.Closed.mapped _ hshape frs i hmap
    rwa [MftIndex.shape, List.length_map] at hlt
  · exact hshape.children rec.shape (List.mem_map_of_mem hrec)
  · exact hshape.streams rec.shape (List.mem_map_of_mem hrec)
  · exact hshape.internals rec.shape (List.mem_map_of_mem hrec)

theorem merge_wof_alloc_ends (hclosed : self.index.Closed) {rec : FileRecord}
    (hrec : rec ∈ self.index.records) {fuel : Nat} (hfuel : self.index.chain_fuel ≤ fuel) (record_idx : Nat) :
    ∃ wof_idx first_alloc merged, self.merge_wof_alloc fuel record_idx rec = some (wof_idx, first_alloc, merged) := by
  obtain ⟨ids, hchain⟩ := hclosed.streams rec hrec
  have hlen := hchain.length_le
  obtain ⟨idx, hidx, hstream⟩ := find_wof_stream_ends hchain
    (show ids.length < fuel by rw [MftIndex.chain_fuel] at hfuel; omega)
  have hend : ∀ found : UInt32, (found = NO_ENTRY ∨ ∃ stream, self.index.streams[found.toNat]? = some stream) →
      (if rec.reparse_tag = IO_REPARSE_TAG_WOF then self.index.find_wof_stream fuel rec.first_stream.next_entry
        else some NO_ENTRY) = some found →
      ∃ wof_idx first_alloc merged, self.merge_wof_alloc fuel record_idx rec = some (wof_idx, first_alloc, merged) := by
    intro found hstream hfound
    rw [TreeTraversal.merge_wof_alloc, hfound, Option.bind_eq_bind, Option.bind_some]
    by_cases hnone : found = NO_ENTRY
    · exact ⟨_, _, _, if_pos hnone⟩
    · obtain ⟨stream, hget⟩ := hstream.resolve_left hnone
      rw [if_neg hnone, hget]
      exact ⟨_, _, _, rfl⟩
  by_cases htag : rec.reparse_tag = IO_REPARSE_TAG_WOF
  · exact hend idx hstream ((if_pos htag).trans hidx)
  · exact hend NO_ENTRY (.inl rfl) (if_neg htag)

/-- Fuel for the chains sums the streams of a record. -/
theorem accumulate_own_streams_ends (snap : RecordSnapshot) {ids' : List Nat}
    (hchain : Chain stream_cell NO_ENTRY index.streams snap.first_stream_next ids)
    (hchain' : Chain internal_cell NO_ENTRY index.internal_streams snap.first_internal_stream ids')
    (hfuel : index.chain_fuel ≤ fuel) : ∃ own, index.accumulate_own_streams fuel snap = some own := by
  have hlen := hchain.length_le
  have hlen' := hchain'.length_le
  rw [MftIndex.chain_fuel] at hfuel
  have hinternal : ∀ own : SizeInfo, ∃ sum, (if snap.first_internal_stream ≠ NO_ENTRY ∧ index.internal_streams ≠ [] then
      index.add_internal_streams snap fuel snap.first_internal_stream own
      else if snap.internal_streams_size > 0 ∨ snap.internal_streams_allocated > 0 then
        some (snap.add own snap.internal_streams_size snap.internal_streams_allocated)
      else some own) = some sum := by
    intro own
    split
    · exact add_internal_streams_ends snap hchain' (by omega) own
    · split
      · exact ⟨_, rfl⟩
      · exact ⟨_, rfl⟩
  rw [MftIndex.accumulate_own_streams]
  obtain ⟨sum, hsum⟩ := hinternal
    { length := delta snap.first_len snap.name_info snap.total_names
      allocated := delta snap.first_alloc snap.name_info snap.total_names }
  obtain ⟨own, hown⟩ := add_overflow_streams_ends snap hchain (show ids.length < fuel by omega) sum
  exact ⟨own, Option.bind_eq_some_iff.mpr ⟨sum, hsum, hown⟩⟩

/-- The loop over entries ends when every child's visit does. -/
theorem visit_entries_ends {visit : Visitor} (hvisit : visit.KeepsShape) (hclosed : index.Closed)
    (hends : ∀ ce ∈ entries, ∀ c, index.frs_to_idx_opt ce.child_frs = some c → ∀ (self : TreeTraversal) (name_info total_names : UInt32),
      self.index.shape = index.shape → ∃ agg left, visit self c name_info total_names = some (agg, left))
    (acc : Agg × TreeTraversal) (hshape : acc.2.index.shape = index.shape) :
    ∃ sum left, TreeTraversal.visit_entries visit entries acc = some (sum, left) := by
  induction entries generalizing acc with
  | nil => exact ⟨acc.1, acc.2, rfl⟩
  | cons ce entries ih =>
    have hchild : ∃ sum left, acc.2.visit_child visit acc.1 ce = some (sum, left) := by
      rw [TreeTraversal.visit_child, shape_frs_to_idx hshape]
      cases hidx : index.frs_to_idx_opt ce.child_frs with
      | none => exact ⟨_, _, rfl⟩
      | some c =>
        have hlt : c < acc.2.index.records.length := shape_length hshape ▸ hclosed.mapped hidx
        dsimp only
        rw [List.getElem?_eq_getElem hlt, Option.bind_eq_bind, Option.bind_some]
        obtain ⟨agg, left, hrun⟩ := hends ce List.mem_cons_self c hidx acc.2 _ _ hshape
        rw [hrun]
        exact ⟨_, _, rfl⟩
    obtain ⟨sum, middle, hmiddle⟩ := hchild
    rw [visit_entries_cons, hmiddle]
    exact ih (fun ce' hce' => hends ce' (List.mem_cons_of_mem _ hce')) (sum, middle)
      ((visit_child_shape hvisit hmiddle).trans hshape)

/-- One amount of fuel that is enough for all of a list. -/
theorem common_fuel {α : Type} {P : α → Nat → Prop} (items : List α) (h : ∀ a ∈ items, ∃ enough, ∀ fuel ≥ enough, P a fuel) :
    ∃ enough, ∀ a ∈ items, ∀ fuel ≥ enough, P a fuel := by
  induction items with
  | nil => exact ⟨0, fun a ha => by cases ha⟩
  | cons a items ih =>
    obtain ⟨first, hfirst⟩ := h a List.mem_cons_self
    obtain ⟨rest, hrest⟩ := ih fun b hb => h b (List.mem_cons_of_mem _ hb)
    refine ⟨max first rest, fun b hb fuel hfuel => ?_⟩
    cases List.mem_cons.mp hb with
    | inl heq => exact heq ▸ hfirst fuel (le_trans (Nat.le_max_left _ _) hfuel)
    | inr hmem => exact hrest b hmem fuel (le_trans (Nat.le_max_right _ _) hfuel)

/-- A visit with nothing endless below it ends, in whatever state it starts. -/
theorem preprocess_of_acc (hclosed : index.Closed) {idx : Nat} (hacc : Acc (Pushes index.next_level) idx) :
    ∃ enough, ∀ fuel ≥ enough, ∀ (self : TreeTraversal) (name_info total_names : UInt32), self.index.shape = index.shape →
      ∃ agg left, self.preprocess fuel idx name_info total_names = some (agg, left) := by
  induction hacc with
  | intro idx _ ih =>
    obtain ⟨enough, hbelow⟩ := common_fuel (index.next_level idx) ih
    refine ⟨max enough index.chain_fuel + 1, fun fuel hfuel self name_info total_names hshape => ?_⟩
    obtain ⟨fuel, rfl⟩ : ∃ less, fuel = less + 1 := ⟨fuel - 1, by omega⟩
    have hself : self.index.Closed := hclosed.of_shape hshape
    have hchains : self.index.chain_fuel ≤ fuel := by
      rw [chain_fuel_shape hshape]
      exact le_trans (Nat.le_max_right _ _) (Nat.le_of_succ_le_succ hfuel)
    cases hrec : self.index.records[idx]? with
    | none =>
      rw [TreeTraversal.preprocess, hrec]
      exact ⟨_, _, rfl⟩
    | some rec =>
      have hmem : rec ∈ self.index.records := List.mem_of_getElem? hrec
      obtain ⟨wof_idx, first_alloc, merged, hmerge⟩ :=
        @merge_wof_alloc_ends (self.mark_seen idx) hself rec hmem fuel hchains idx
      have hmerged : merged.index.shape = self.index.shape := (merge_wof_alloc_index hmerge).1
      have hchildren : ∃ children visited, (if rec.stdinfo.is_directory = true then
          TreeTraversal.aggregate_children (TreeTraversal.preprocess fuel) fuel merged rec.first_child = some (children, visited)
          else children = {} ∧ visited = merged) ∧ visited.index.shape = self.index.shape := by
        by_cases hdir : rec.stdinfo.is_directory = true
        · simp only [if_pos hdir]
          obtain ⟨ids, hchain⟩ := hself.children rec hmem
          have hlen := hchain.length_le
          have hfollow := hchain.follow_eq (show ids.length < fuel by rw [MftIndex.chain_fuel] at hchains; omega)
          have hentries := child_entries_of_follow hfollow
          have hends : ∀ ce ∈ ids.filterMap (self.index.children[·]?), ∀ c, index.frs_to_idx_opt ce.child_frs = some c →
              ∀ (st : TreeTraversal) (name_info total_names : UInt32), st.index.shape = index.shape →
                ∃ agg left, st.preprocess fuel c name_info total_names = some (agg, left) := by
            intro ce hce c hc st name_info total_names hst
            have hlevel : c ∈ index.next_level idx := by
              rw [← next_level_shape hshape, next_level_directory hrec hdir, hentries]
              exact List.mem_filterMap.mpr ⟨ce, hce, (shape_frs_to_idx hshape _).trans hc⟩
            exact hbelow c hlevel fuel (le_trans (Nat.le_max_left _ _) (Nat.le_of_succ_le_succ hfuel)) st _ _ hst
          obtain ⟨sum, left, hrun⟩ := visit_entries_ends (preprocess_shape fuel) hclosed hends ({}, merged.deeper)
            (hmerged.trans hshape)
          rw [aggregate_children_eq (preprocess_shape fuel), shape_children hmerged, hfollow, Option.bind_some, hrun]
          exact ⟨_, _, rfl, (visit_entries_shape (preprocess_shape fuel) hrun).trans hmerged⟩
        · simp only [if_neg hdir]
          exact ⟨_, _, ⟨rfl, rfl⟩, hmerged⟩
      obtain ⟨children, visited, hchildren, hvisited⟩ := hchildren
      obtain ⟨rec', hrec', hsame⟩ := shape_record hvisited.symm hrec
      obtain ⟨ids, hchain⟩ := hself.streams rec hmem
      obtain ⟨ids', hchain'⟩ := hself.internals rec hmem
      have hinternals : visited.index.internal_streams = self.index.internal_streams := by
        have hfield : visited.index.shape.internal_streams = self.index.shape.internal_streams := by rw [hvisited]
        exact hfield
      rw [← shape_streams hvisited] at hchain
      rw [← hinternals] at hchain'
      obtain ⟨own, hown⟩ := accumulate_own_streams_ends (rec.snapshot first_alloc name_info total_names wof_idx) hchain hchain'
        (show visited.index.chain_fuel ≤ fuel by rw [chain_fuel_shape hvisited]; exact hchains)
      exact ⟨_, _, preprocess_of_visit ⟨wof_idx, first_alloc, merged, children, visited, own, hrec, hmerge, hchildren, hown, rfl, rfl⟩⟩

end ends

section seen

variable {index : MftIndex}

/-- Records marked on the way have nothing endless below them. -/
def Marks (index : MftIndex) (self left : TreeTraversal) : Prop :=
  self.index.shape = index.shape → left.index.shape = index.shape ∧ left.seen.length = self.seen.length ∧
    ∀ i, left.seen[i]? = some true → self.seen[i]? = some true ∨ Acc (Pushes index.next_level) i

theorem Marks.refl (self : TreeTraversal) : Marks index self self := fun h => ⟨h, rfl, fun _ => .inl⟩

theorem Marks.trans {middle : TreeTraversal} (h : Marks index self middle) (h' : Marks index middle left) :
    Marks index self left := by
  intro hshape
  obtain ⟨hshape', hlen, hmarks⟩ := h hshape
  obtain ⟨hshape'', hlen', hmarks'⟩ := h' hshape'
  refine ⟨hshape'', hlen'.trans hlen, fun i hi => ?_⟩
  cases hmarks' i hi with
  | inl hmiddle => exact hmarks i hmiddle
  | inr hacc => exact .inr hacc

theorem marks_preprocess {fuel : Nat} {idx : Nat} {name_info total_names : UInt32} {agg : Agg}
    (h : self.preprocess fuel idx name_info total_names = some (agg, left)) : Marks index self left := by
  induction fuel generalizing self left idx name_info total_names agg with
  | zero => cases h
  | succ fuel ih =>
    intro hshape
    have hacc := acc_of_preprocess h hshape
    have hleft := (preprocess_shape _ h).trans hshape
    rcases preprocess_some h with ⟨-, -, rfl⟩ | ⟨rec, ⟨visit⟩⟩
    · exact Marks.refl _ hshape
    · obtain ⟨hmerged, hseen, -, -⟩ := merge_wof_alloc_index visit.hmerge
      have hmarked : visit.merged.seen.length = self.seen.length ∧ ∀ i, visit.merged.seen[i]? = some true →
          self.seen[i]? = some true ∨ Acc (Pushes index.next_level) i := by
        rw [hseen]
        refine ⟨List.length_set, fun i hi => ?_⟩
        rw [TreeTraversal.mark_seen, List.getElem?_set] at hi
        split at hi
        next heq => exact .inr (heq ▸ hacc)
        next => exact .inl hi
      have hvisited : Marks index visit.merged visit.visited := by
        have hchildren := visit.hchildren
        split at hchildren
        · obtain ⟨entries, sum, inner, -, hrun, -, hback⟩ := aggregate_children_some (preprocess_shape fuel) hchildren
          have hinner : Marks index visit.merged.deeper inner := visit_entries_keeps Marks.refl Marks.trans ih hrun
          rw [hback]
          exact hinner
        · rw [hchildren.2]
          exact Marks.refl _
      obtain ⟨-, hlen, hmarks⟩ := hvisited (hmerged.trans hshape)
      have hstored : left.seen = visit.visited.seen := (congrArg TreeTraversal.seen visit.hleft).trans rfl
      refine ⟨hleft, hstored ▸ hlen.trans hmarked.1, fun i hi => ?_⟩
      cases hmarks i (hstored ▸ hi) with
      | inl hmiddle => exact hmarked.2 i hmiddle
      | inr hacc => exact .inr hacc

/-- The records a pass starts from: the root, and every other one when orphans are swept. -/
def MftIndex.starts (self : MftIndex) (skip_orphans : Bool) (idx : Nat) : Prop :=
  idx < self.records.length ∧ (skip_orphans = false ∨ self.frs_to_idx_opt ROOT_FRS = some idx)

theorem map_snd_some {result : Option (Agg × TreeTraversal)} (h : result.map Prod.snd = some left) :
    ∃ agg, result = some (agg, left) := by
  obtain ⟨⟨agg, left'⟩, hresult, rfl⟩ := Option.map_eq_some_iff.mp h
  exact ⟨agg, hresult⟩

theorem marks_sweep {fuel : Nat}
    (h : ids.foldlM (TreeTraversal.sweep_one fuel) self = some left) : Marks index self left := by
  induction ids generalizing self with
  | nil =>
    cases h
    exact Marks.refl _
  | cons idx ids ih =>
    rw [List.foldlM_cons] at h
    obtain ⟨middle, hmiddle, hrest⟩ := Option.bind_eq_some_iff.mp h
    refine Marks.trans ?_ (ih hrest)
    rw [TreeTraversal.sweep_one] at hmiddle
    split at hmiddle
    · obtain ⟨agg, hrun⟩ := map_snd_some hmiddle
      exact marks_preprocess hrun
    · cases hmiddle
      exact Marks.refl _

/-- After the sweep nothing endless is below any of the swept records. -/
theorem acc_of_sweep {fuel : Nat} (hshape : self.index.shape = index.shape)
    (hlen : ∀ idx ∈ ids, idx < self.seen.length) (hseen : ∀ i, self.seen[i]? = some true → Acc (Pushes index.next_level) i)
    (h : ids.foldlM (TreeTraversal.sweep_one fuel) self = some left) : ∀ idx ∈ ids, Acc (Pushes index.next_level) idx := by
  induction ids generalizing self with
  | nil => exact fun idx hidx => by cases hidx
  | cons first ids ih =>
    rw [List.foldlM_cons] at h
    obtain ⟨middle, hmiddle, hrest⟩ := Option.bind_eq_some_iff.mp h
    have hone : [first].foldlM (TreeTraversal.sweep_one fuel) self = some middle := by
      rw [List.foldlM_cons, hmiddle]
      rfl
    obtain ⟨hshape', hlen', hmarks⟩ := marks_sweep hone hshape
    have hfirst : Acc (Pushes index.next_level) first := by
      rw [TreeTraversal.sweep_one] at hmiddle
      split at hmiddle
      · obtain ⟨agg, hrun⟩ := map_snd_some hmiddle
        exact acc_of_preprocess hrun hshape
      next hnot =>
        obtain ⟨mark, hmark⟩ : ∃ mark, self.seen[first]? = some mark :=
          ⟨_, List.getElem?_eq_getElem (hlen first List.mem_cons_self)⟩
        cases mark with
        | true => exact hseen first hmark
        | false => exact absurd hmark hnot
    intro idx hidx
    cases List.mem_cons.mp hidx with
    | inl heq => exact heq ▸ hfirst
    | inr hmem =>
      refine ih hshape' (fun idx hidx => hlen' ▸ hlen idx (List.mem_cons_of_mem _ hidx)) (fun i hi => ?_) hrest idx hmem
      exact (hmarks i hi).elim (hseen i) id

/-- Where a pass starts: nothing is seen yet. -/
def MftIndex.traversal (self : MftIndex) : TreeTraversal where
  index := self
  seen := List.replicate self.records.length false
  reserved_allocated_bytes := self.reserved_allocated_bytes

/-- With enough fuel a pass over any index of this shape ends. -/
theorem tree_pass_ends (hclosed : index.Closed) {skip_orphans : Bool}
    (hacc : ∀ idx, index.starts skip_orphans idx → Acc (Pushes index.next_level) idx) :
    ∃ enough, ∀ fuel ≥ enough, ∀ other : MftIndex, other.shape = index.shape →
      ∃ result, tree_metrics.compute_tree_metrics fuel skip_orphans other = some result := by
  obtain ⟨enough, hends⟩ := common_fuel ((List.range index.records.length).filter fun idx =>
      skip_orphans = false ∨ index.frs_to_idx_opt ROOT_FRS = some idx) fun idx hidx => by
    obtain ⟨hlt, hstart⟩ := List.mem_filter.mp hidx
    exact preprocess_of_acc hclosed (hacc idx ⟨List.mem_range.mp hlt, of_decide_eq_true hstart⟩)
  refine ⟨enough, fun fuel hfuel other hother => ?_⟩
  have hvisit : ∀ idx, index.starts skip_orphans idx → ∀ self : TreeTraversal, self.index.shape = index.shape →
      ∃ left, (self.preprocess fuel idx 0 1).map Prod.snd = some left ∧ left.index.shape = index.shape := by
    intro idx hidx self hshape
    obtain ⟨agg, left, hrun⟩ := hends idx
      (List.mem_filter.mpr ⟨List.mem_range.mpr hidx.1, decide_eq_true hidx.2⟩) fuel hfuel self 0 1 hshape
    exact ⟨left, by rw [hrun]; rfl, (preprocess_shape _ hrun).trans hshape⟩
  have htop : ∃ top, other.traversal.traverse_from_root fuel = some top ∧ top.index.shape = index.shape := by
    rw [TreeTraversal.traverse_from_root]
    split
    · exact ⟨_, rfl, hother⟩
    next root_idx hroot =>
      have hroot' := (shape_frs_to_idx hother _).symm.trans hroot
      exact hvisit root_idx ⟨hclosed.mapped hroot', .inr hroot'⟩ _ hother
  obtain ⟨top, htop, hshape⟩ := htop
  have hsweep : skip_orphans = false → ∀ (ids : List Nat) (self : TreeTraversal), (∀ idx ∈ ids, idx < index.records.length) →
      self.index.shape = index.shape → ∃ left, ids.foldlM (TreeTraversal.sweep_one fuel) self = some left := by
    intro hskip ids
    induction ids with
    | nil => exact fun self _ _ => ⟨self, rfl⟩
    | cons idx ids ih =>
      intro self hids hself
      have hone : ∃ middle, self.sweep_one fuel idx = some middle ∧ middle.index.shape = index.shape := by
        rw [TreeTraversal.sweep_one]
        split
        · exact hvisit idx ⟨hids idx List.mem_cons_self, .inl hskip⟩ self hself
        · exact ⟨self, rfl, hself⟩
      obtain ⟨middle, hmiddle, hshape'⟩ := hone
      rw [List.foldlM_cons, hmiddle]
      exact ih middle (fun idx hidx => hids idx (List.mem_cons_of_mem _ hidx)) hshape'
  have hrun : ∃ left, TreeTraversal.run fuel skip_orphans other.traversal = some left := by
    rw [TreeTraversal.run, htop]
    cases skip_orphans with
    | true => exact ⟨top, rfl⟩
    | false =>
      refine hsweep rfl _ top (fun idx hidx => ?_) hshape
      rw [← shape_length hshape]
      exact List.mem_range.mp hidx
  obtain ⟨left, hleft⟩ := hrun
  exact ⟨left.index, Option.map_eq_some_iff.mpr ⟨left, hleft, rfl⟩⟩

/-- One pass ends exactly if nothing endless is below any record it starts from. -/
theorem tree_pass_ends_iff (hclosed : index.Closed) (skip_orphans : Bool) :
    (∃ fuel result, tree_metrics.compute_tree_metrics fuel skip_orphans index = some result) ↔
      ∀ idx, index.starts skip_orphans idx → Acc (Pushes index.next_level) idx := by
  constructor
  · rintro ⟨fuel, result, h⟩ idx ⟨hlt, hstart⟩
    obtain ⟨left, hrun, -⟩ := Option.map_eq_some_iff.mp h
    obtain ⟨top, htop, hrest⟩ := Option.bind_eq_some_iff.mp hrun
    have hroot : Marks index index.traversal top ∧
        ∀ root_idx, index.frs_to_idx_opt ROOT_FRS = some root_idx → Acc (Pushes index.next_level) root_idx := by
      rw [TreeTraversal.traverse_from_root] at htop
      split at htop
      next hnone =>
        cases htop
        exact ⟨Marks.refl _, fun root_idx hroot => by rw [hnone] at hroot; cases hroot⟩
      next root_idx' hsome =>
        obtain ⟨agg, hvisit⟩ := map_snd_some htop
        refine ⟨marks_preprocess hvisit, fun root_idx hroot => ?_⟩
        rw [hsome] at hroot
        cases hroot
        exact acc_of_preprocess hvisit rfl
    obtain ⟨hmarks, hroot⟩ := hroot
    obtain ⟨hshape, hlen, hseen⟩ := hmarks rfl
    cases skip_orphans with
    | true => exact hroot idx (hstart.resolve_left Bool.true_eq_false.mp)
    | false =>
      have hall : ∀ i, top.seen[i]? = some true → Acc (Pushes index.next_level) i := by
        intro i hi
        refine (hseen i hi).resolve_left fun hmark => ?_
        cases List.eq_of_mem_replicate (List.mem_of_getElem? hmark)
      have hsweep : top.sweep_orphans fuel = some left := hrest
      refine acc_of_sweep hshape (fun i hi => ?_) hall hsweep idx ?_
      · rw [hlen, MftIndex.traversal, List.length_replicate, ← shape_length hshape]
        exact List.mem_range.mp hi
      · exact List.mem_range.mpr (shape_length hshape ▸ hlt)
  · intro hacc
    obtain ⟨enough, hends⟩ := tree_pass_ends hclosed hacc
    obtain ⟨result, hresult⟩ := hends enough (Nat.le_refl _) index rfl
    exact ⟨enough, result, hresult⟩

end seen

end uffs.mft
