import Mathlib.Algebra.Order.BigOperators.Group.List
import Uffs.Mft.ParseOrder
import Uffs.Mft.Rebuild
import Uffs.Mft.TreeEnds

open uffs.lib.arena uffs.bloom

namespace uffs.mft

/-! Directory entries and names say the same: every name is an entry of its parent, under its number. -/

/-- Names, newest first, as directory entries of the file; the names count from the oldest. -/
def name_entries (child_frs : UInt64) : Nat → List (List UInt8 × UInt64) → List (UInt64 × UInt64 × UInt16)
  | 0, _ => []
  | _ + 1, [] => []
  | left + 1, (_, parent_frs) :: links =>
    (if parent_frs ≠ NO_ENTRY.toUInt64 ∧ parent_frs ≠ child_frs then [(parent_frs, child_frs, UInt16.ofNat (min left 65535))]
      else []) ++ name_entries child_frs left links

/-- Entries of one directory among those of many. -/
def entries_in (frs : UInt64) (entries : List (UInt64 × UInt64 × UInt16)) : List (UInt64 × UInt16) :=
  (entries.filter (·.1 = frs)).map Prod.snd

/-- The directories list a file as often as it has names in them, and under their numbers. -/
structure Entered (table : FileTable) : Prop where
  counted : ∀ frs, (table frs).Counted
  present : ∀ frs, (table frs).children ≠ [] → (table frs).present = true
  entries : ∀ frs child_frs, ((table frs).children.filter (·.1 = child_frs)).Perm
    (entries_in frs (name_entries child_frs (table child_frs).links.length (table child_frs).links))

theorem entries_in_append (frs : UInt64) (one two : List (UInt64 × UInt64 × UInt16)) :
    entries_in frs (one ++ two) = entries_in frs one ++ entries_in frs two := by
  rw [entries_in, entries_in, entries_in, List.filter_append, List.map_append]

/-- Entries of a file are for this file, and never its own directory. -/
theorem mem_name_entries {child_frs : UInt64} {left : Nat} {links : List (List UInt8 × UInt64)} {entry : UInt64 × UInt64 × UInt16}
    (h : entry ∈ name_entries child_frs left links) :
    entry.2.1 = child_frs ∧ entry.1 ≠ child_frs ∧ entry.1 ≠ NO_ENTRY.toUInt64 ∧ entry.1 ∈ links.map Prod.snd := by
  induction links generalizing left with
  | nil => cases left <;> cases h
  | cons link links ih =>
    cases left with
    | zero => cases h
    | succ left =>
      cases List.mem_append.mp h with
      | inl hhere =>
        split at hhere
        next hparent =>
          rw [List.mem_singleton.mp hhere]
          exact ⟨rfl, hparent.2, hparent.1, List.mem_cons_self⟩
        next => cases hhere
      | inr hrest =>
        obtain ⟨hchild, hne, hno, hmem⟩ := ih hrest
        exact ⟨hchild, hne, hno, List.mem_cons_of_mem _ hmem⟩

variable {table : FileTable}

/-- What is read of the names is the same. -/
theorem Entered.congr {table' : FileTable} (h : Entered table) (hcounted : ∀ frs, (table' frs).Counted)
    (hlinks : ∀ frs, (table' frs).links = (table frs).links) (hchildren : ∀ frs, (table' frs).children = (table frs).children)
    (hpresent : ∀ frs, (table frs).present = true → (table' frs).present = true) : Entered table' where
  counted := hcounted
  present frs hne := hpresent frs (h.present frs (hchildren frs ▸ hne))
  entries frs child_frs := by
    rw [hchildren, hlinks]
    exact h.entries frs child_frs

theorem Entered.store_attribute (h : Entered table) (frs_base : UInt64) (is_directory : Bool)
    (attr : Attribute) : Entered (table.store_attribute frs_base is_directory attr) := by
  have hcounted : ∀ frs, (table.store_attribute frs_base is_directory attr frs).Counted := by
    intro frs
    rw [FileTable.store_attribute_apply]
    split
    · exact (h.counted frs).absorb is_directory attr
    · split
      · exact ⟨(h.counted frs).names, (h.counted frs).streams, (h.counted frs).total⟩
      · exact h.counted frs
  have hother : attr.link = none → Entered (table.store_attribute frs_base is_directory attr) := by
    intro hnone
    have hentry : attr.entry_parent frs_base = none := by
      cases attr with
      | file_name attr => cases hnone
      | _ => rfl
    refine h.congr hcounted (fun frs => ?_) (fun frs => ?_) fun frs hpresent => ?_
    all_goals rw [FileTable.store_attribute_apply, hentry, if_neg (fun h : none = some frs => nomatch h)]
    all_goals split
    · rw [absorb_links, hnone]; rfl
    · rfl
    · cases attr <;> rfl
    · rfl
    · cases attr <;> exact hpresent
    · exact hpresent
  cases hlink : attr.link with
  | none => exact hother hlink
  | some link =>
    obtain ⟨name, parent_frs⟩ := link
    have hentry : attr.entry_parent frs_base =
        if parent_frs ≠ frs_base ∧ parent_frs ≠ NO_ENTRY.toUInt64 then some parent_frs else none := by
      cases attr with
      | file_name attr =>
        cases hlink
        rfl
      | _ => cases hlink
    have hlinks : ∀ frs, (table.store_attribute frs_base is_directory attr frs).links =
        if frs = frs_base then (name, parent_frs) :: (table frs).links else (table frs).links := by
      intro frs
      rw [FileTable.store_attribute_apply]
      split
      · rw [absorb_links, hlink]
        rfl
      · split <;> rfl
    have hchildren : ∀ frs, (table.store_attribute frs_base is_directory attr frs).children =
        if frs ≠ frs_base ∧ attr.entry_parent frs_base = some frs then
          (frs_base, (table frs_base).record.name_count) :: (table frs).children else (table frs).children := by
      intro frs
      rw [FileTable.store_attribute_apply]
      by_cases hbase : frs = frs_base
      · rw [if_pos hbase, if_neg fun h => h.1 hbase]
        cases attr <;> rfl
      · rw [if_neg hbase]
        by_cases hparent : attr.entry_parent frs_base = some frs
        · rw [if_pos hparent, if_pos ⟨hbase, hparent⟩]
          rfl
        · rw [if_neg hparent, if_neg fun h => hparent h.2]
    refine ⟨hcounted, fun frs hne => ?_, fun frs child_frs => ?_⟩
    · have hpresent := (store_attribute_entries table frs frs_base is_directory attr).2
      rw [hpresent]
      rw [hchildren] at hne
      split at hne
      next hparent => rw [decide_eq_true hparent.2, Bool.or_true]
      next => rw [h.present frs hne, Bool.true_or]
    · rw [hchildren, hlinks]
      have hold := h.entries frs child_frs
      by_cases hbase : child_frs = frs_base
      · subst hbase
        rw [if_pos rfl, List.length_cons, name_entries, entries_in_append]
        have hnumber : (table child_frs).record.name_count = UInt16.ofNat (min (table child_frs).links.length 65535) := by
          refine UInt16.toNat.inj ?_
          rw [(h.counted child_frs).names, UInt16.toNat_ofNat']
          omega
        by_cases hparent : frs ≠ child_frs ∧ attr.entry_parent child_frs = some frs
        · rw [if_pos hparent]
          rw [hentry] at hparent
          obtain ⟨hne, hsome⟩ := hparent
          split at hsome
          next hvalid =>
            obtain rfl := Option.some.inj hsome
            rw [if_pos ⟨hvalid.2, hvalid.1⟩, List.filter_cons_of_pos (by simp), hnumber]
            have hone : entries_in parent_frs [(parent_frs, child_frs, UInt16.ofNat (min (table child_frs).links.length 65535))] =
                [(child_frs, UInt16.ofNat (min (table child_frs).links.length 65535))] := by
              simp [entries_in]
            rw [hone]
            exact hold.cons _
          next => cases hsome
        · rw [if_neg hparent]
          have hnone : entries_in frs (if parent_frs ≠ NO_ENTRY.toUInt64 ∧ parent_frs ≠ child_frs then
              [(parent_frs, child_frs, UInt16.ofNat (min (table child_frs).links.length 65535))] else []) = [] := by
            split
            next hvalid =>
              have hne : parent_frs ≠ frs := by
                rintro rfl
                exact hparent ⟨hvalid.2, by rw [hentry, if_pos ⟨hvalid.2, hvalid.1⟩]⟩
              simp [entries_in, hne]
            next => rfl
          rw [hnone]
          exact hold
      · rw [if_neg hbase]
        split
        · rw [List.filter_cons_of_neg (by simpa using Ne.symm hbase)]
          exact hold
        · exact hold

theorem Entered.absent : Entered FileView.absent where
  counted := FileView.counted_absent
  present _ hne := absurd rfl hne
  entries _ _ := List.Perm.refl _

theorem Entered.store_segment (h : Entered table) (segment : Segment) :
    Entered (table.store_segment segment) := by
  have hloop : ∀ (attributes : List Attribute) (table : FileTable), Entered table →
      Entered (attributes.foldl (FileTable.store_attribute segment.base segment.is_directory) table) := by
    intro attributes
    induction attributes with
    | nil => exact fun _ h => h
    | cons attr attributes ih => exact fun table h => ih _ (h.store_attribute _ _ attr)
  have hopened : Entered ((table.ensure segment.base).modify segment.base fun rec => rec.stamp segment.stamp) := by
    have hfields : ∀ frs, ((table.ensure segment.base).modify segment.base fun rec => rec.stamp segment.stamp) frs =
        if frs = segment.base then { table frs with present := true, record := (table frs).record.stamp segment.stamp }
        else table frs := by
      intro frs
      rw [FileTable.modify, Function.update_apply]
      split
      next heq => rw [FileTable.ensure, Function.update_self, heq]
      next hne => rw [FileTable.ensure, Function.update_of_ne hne]
    refine h.congr (fun frs => ?_) (fun frs => ?_) (fun frs => ?_) fun frs hpresent => ?_
    all_goals rw [hfields]
    all_goals split
    · cases segment.stamp <;> exact ⟨(h.counted frs).names, (h.counted frs).streams, (h.counted frs).total⟩
    · exact h.counted frs
    · rfl
    · rfl
    · rfl
    · rfl
    · rfl
    · exact hpresent
  have hstored := hloop segment.attributes _ hopened
  refine hstored.congr (counted_store_segment h.counted segment) (fun frs => ?_) (fun frs => ?_) fun frs hpresent => ?_
  all_goals rw [FileTable.store_segment, FileTable.modify, Function.update_apply]
  all_goals split
  next heq => rw [heq]
  · rfl
  next heq => rw [heq]
  · rfl
  next heq => exact heq ▸ hpresent
  · exact hpresent

/-- Every parsed volume. -/
theorem entered_parsed (segments : List Segment) : Entered (segments.foldl FileTable.store_segment FileView.absent) := by
  have hrun : ∀ (segments : List Segment) (table : FileTable), Entered table → Entered (segments.foldl FileTable.store_segment table) := by
    intro segments
    induction segments with
    | nil => exact fun _ h => h
    | cons segment segments ih => exact fun table h => ih _ (h.store_segment segment)
  exact hrun segments _ .absent

section rebuild

variable {index : MftIndex}

/-- The names of a chain, as entries. -/
theorem name_edges_chain {entry : UInt32} {ids : List Nat} (h : Chain link_cell NO_ENTRY index.links entry ids)
    (child_frs : UInt64) (left : Nat) (hleft : left ≤ 65536) (link : LinkInfo) (hnext : link.next_entry = entry) :
    index.name_edges child_frs left link = name_entries child_frs left ((index.get_name_bytes link.name, link.parent_frs) ::
      (contents link_cell NO_ENTRY index.links entry).map fun (name, parent_frs) => (index.get_name_bytes name, parent_frs)) := by
  induction h generalizing left link with
  | nil =>
    cases left with
    | zero => rfl
    | succ left =>
      have hmin : min left 65535 = left := by omega
      rw [MftIndex.name_edges, if_pos hnext, Chain.nil.contents_eq, name_entries, hmin]
      cases left <;> rfl
  | @cons entry item ids hentry hitem hrest ih =>
    cases left with
    | zero => rfl
    | succ left =>
      have hmin : min left 65535 = left := by omega
      have hcontents : contents link_cell NO_ENTRY index.links entry =
          link_cell.payload item :: contents link_cell NO_ENTRY index.links (link_cell.next item) := by
        rw [(Chain.cons item hentry hitem hrest).contents_eq, hrest.contents_eq, List.filterMap_cons, hitem]
        rfl
      rw [MftIndex.name_edges, hnext, hitem, hcontents, name_entries, hmin]
      refine congrArg₂ _ rfl ?_
      rw [if_neg hentry]
      exact ih left (by omega) item rfl

theorem name_edges_view (hwf : Wf index) {i : Nat} {rec : FileRecord} (hrec : index.records[i]? = some rec)
    (hcount : rec.name_count.toNat = min (index.view_record rec).links.length 65535) :
    index.name_edges rec.frs rec.name_count.toNat rec.first_name =
      name_entries rec.frs rec.name_count.toNat (index.view_record rec).links := by
  obtain ⟨ids, hchain⟩ := hwf.links.chain hrec
  cases hvalid : rec.first_name.name.is_valid with
  | true =>
    rw [name_edges_chain hchain rec.frs rec.name_count.toNat (by omega) rec.first_name rfl]
    rw [MftIndex.view_record, MftIndex.link_refs, if_pos hvalid]
    rfl
  | false =>
    have hnext := hwf.unnamed rec (List.mem_of_getElem? hrec) hvalid
    have hlinks : (index.view_record rec).links = [] := by
      rw [MftIndex.view_record, MftIndex.link_refs, if_neg (Bool.eq_false_iff.mp hvalid), hnext]
      exact congrArg _ (@Chain.nil _ _ link_cell NO_ENTRY index.links).contents_eq
    have hzero : rec.name_count.toNat = 0 := by rw [hcount, hlinks]; rfl
    rw [hzero]
    rfl

/-- The entries of all names, record by record. -/
def MftIndex.entries_of_names (self : MftIndex) : List (UInt64 × UInt64 × UInt16) :=
  self.records.flatMap fun rec => name_entries rec.frs rec.name_count.toNat (self.view_record rec).links

theorem collect_eq (hwf : Wf index) (hentered : Entered index.view) :
    index.collect_parent_child_edges = index.entries_of_names := by
  rw [MftIndex.collect_parent_child_edges, MftIndex.entries_of_names, List.flatMap, List.flatMap]
  refine congrArg List.flatten (List.map_congr_left fun rec hmem => ?_)
  obtain ⟨i, hrec⟩ := List.mem_iff_getElem?.mp hmem
  have hview := view_of_mapped (hwf.found hrec) hrec
  have hcount := (hentered.counted rec.frs).names
  rw [hview] at hcount
  exact name_edges_view hwf hrec hcount

theorem add_child_entry_eq {parent_frs : UInt64} {i : Nat} {parent : FileRecord} (hmap : index.frs_to_idx_opt parent_frs = some i)
    (hrec : index.records[i]? = some parent) (child_frs : UInt64) (name_index : UInt16) :
    index.add_child_entry parent_frs child_frs name_index = MftIndex.modify_record
      { index with children := index.children ++
        [{ next_entry := parent.first_child, child_frs := child_frs, name_index := name_index }] }
      i fun rec => { rec with first_child := len_to_u32 index.children.length } := by
  rw [add_child_entry_steps, ensure_parent_old hmap, MftIndex.put_entry, hrec]

theorem add_entries_stores (hwf : Wf index) (entries : List (UInt64 × UInt64 × UInt16))
    (hmapped : ∀ entry ∈ entries, ∃ i, index.frs_to_idx_opt entry.1 = some i)
    (hroom : index.children.length + entries.length ≤ NO_ENTRY.toNat) {next : MftIndex}
    (hnext : next = entries.foldl (fun index (parent_frs, child_frs, name_index) =>
      index.add_child_entry parent_frs child_frs name_index) index) :
    Wf next ∧ (∀ frs, next.frs_to_idx_opt frs = index.frs_to_idx_opt frs) ∧ ∀ frs, next.view frs =
      { index.view frs with children := (entries_in frs entries).reverse ++ (index.view frs).children } := by
  induction entries generalizing index with
  | nil => exact hnext ▸ ⟨hwf, fun _ => rfl, fun _ => rfl⟩
  | cons entry entries ih =>
    obtain ⟨parent_frs, child_frs, name_index⟩ := entry
    obtain ⟨i, hmap⟩ := hmapped _ List.mem_cons_self
    obtain ⟨parent, hparent, _⟩ := hwf.mapped hmap
    rw [List.length_cons] at hroom
    have hstep := hwf.push_entry_stores hmap hparent (by omega) child_frs name_index
    rw [List.foldl_cons] at hnext
    dsimp only at hnext
    rw [add_child_entry_eq hmap hparent] at hnext
    obtain ⟨hwf', hopt, hview⟩ := ih hstep.wf
      (fun entry hentry => (hmapped entry (List.mem_cons_of_mem _ hentry)).imp fun i hi => hstep.kept hi)
      (by simp only [MftIndex.modify_record, List.length_append, List.length_singleton]; omega) hnext
    refine ⟨hwf', hopt, fun frs => ?_⟩
    rw [hview, hstep.view, Function.update_apply]
    split
    next heq =>
      subst heq
      have hcons : entries_in frs ((frs, child_frs, name_index) :: entries) = (child_frs, name_index) :: entries_in frs entries := by
        simp [entries_in]
      rw [hcons]
      simp
    next hne =>
      have hskip : entries_in frs ((parent_frs, child_frs, name_index) :: entries) = entries_in frs entries := by
        simp [entries_in, Ne.symm hne]
      rw [hskip]

theorem clear_children_get (index : MftIndex) (i : Nat) :
    index.clear_children.records[i]? = index.records[i]?.map FileRecord.clear_children :=
  List.getElem?_map

theorem Wf.clear_children (hwf : Wf index) : Wf index.clear_children where
  mapped hmap := by
    obtain ⟨rec, hrec, hfrs⟩ := hwf.mapped hmap
    refine ⟨rec.clear_children, ?_, hfrs⟩
    rw [clear_children_get, hrec]
    rfl
  found hrec := by
    rw [clear_children_get] at hrec
    obtain ⟨old, hold, heq⟩ := Option.map_eq_some_iff.mp hrec
    have hfound := hwf.found hold
    rw [← heq]
    exact hfound
  links := by
    rw [MftIndex.clear_children, List.map_map]
    exact hwf.links
  streams := by
    rw [MftIndex.clear_children, List.map_map]
    exact hwf.streams
  internals := by
    rw [MftIndex.clear_children, List.map_map]
    exact hwf.internals
  children := by
    refine ⟨List.replicate index.records.length [], ?_, ?_⟩
    · rw [MftIndex.clear_children, List.map_map, List.forall₂_iff_get]
      refine ⟨by simp, fun i hi hi' => ?_⟩
      simp only [List.get_eq_getElem, List.getElem_map, List.getElem_replicate]
      exact .nil
    · rw [List.flatten_replicate_nil]
      exact List.Perm.refl _
  unnamed := by
    intro record hrec
    obtain ⟨rec, hmem, rfl⟩ := List.mem_map.mp hrec
    exact hwf.unnamed rec hmem
  first_names := by
    intro record hrec
    obtain ⟨rec, hmem, rfl⟩ := List.mem_map.mp hrec
    exact hwf.first_names rec hmem
  link_names := hwf.link_names
  stream_names := hwf.stream_names

theorem clear_children_view (index : MftIndex) (frs : UInt64) :
    index.clear_children.view frs = { index.view frs with children := [] } := by
  have hopt : index.clear_children.frs_to_idx_opt frs = index.frs_to_idx_opt frs := rfl
  have hempty : ∀ entry, contents child_cell NO_ENTRY ([] : List ChildInfo) entry = [] := fun _ => rfl
  cases hidx : index.frs_to_idx_opt frs with
  | none => rw [view_of_unmapped (hopt.trans hidx), view_of_unmapped hidx]; rfl
  | some i =>
    cases hrec : index.records[i]? with
    | none =>
      have hnone : index.clear_children.records[i]? = none := by rw [clear_children_get, hrec]; rfl
      simp only [MftIndex.view, hopt, hidx, Option.bind_eq_bind, Option.bind_some, hnone, hrec]
      rfl
    | some rec =>
      have hsome : index.clear_children.records[i]? = some rec.clear_children := by
        rw [clear_children_get, hrec]
        rfl
      rw [view_of_mapped (hopt.trans hidx) hsome, view_of_mapped hidx hrec]
      exact congrArg (FileView.mk _ _ _ _ _) (hempty _)

/-- What parsing leaves, as far as the metrics are concerned. -/
structure Built (index : MftIndex) : Prop where
  wf : Wf index
  entered : Entered index.view
  unified : ∀ rec ∈ index.records, rec.is_unified = true
  room : index.entries_of_names.length ≤ NO_ENTRY.toNat

theorem mem_entries_of_names (hwf : Wf index) {entry : UInt64 × UInt64 × UInt16} (h : entry ∈ index.entries_of_names) :
    entry.1 ≠ entry.2.1 ∧ entry.1 ≠ NO_ENTRY.toUInt64 ∧ entry.1 ∈ (index.view entry.2.1).links.map Prod.snd := by
  obtain ⟨rec, hmem, hentry⟩ := List.mem_flatMap.mp h
  obtain ⟨i, hrec⟩ := List.mem_iff_getElem?.mp hmem
  obtain ⟨hchild, hne, hno, hparent⟩ := mem_name_entries hentry
  rw [hchild, view_of_mapped (hwf.found hrec) hrec]
  exact ⟨hne, hno, hparent⟩

/-- A name makes an entry of its parent. -/
theorem Entered.of_name (h : Entered table) {frs child_frs : UInt64}
    (hname : frs ∈ (table child_frs).links.map Prod.snd) (hne : frs ≠ child_frs) (hno : frs ≠ NO_ENTRY.toUInt64) :
    ∃ number, (child_frs, number) ∈ (table frs).children := by
  have hlisted : ∀ links : List (List UInt8 × UInt64), frs ∈ links.map Prod.snd →
      ∃ number, (child_frs, number) ∈ entries_in frs (name_entries child_frs links.length links) := by
    intro links
    induction links with
    | nil => exact fun h => nomatch h
    | cons link links ih =>
      obtain ⟨name, parent_frs⟩ := link
      intro hmem
      rw [List.length_cons, name_entries, entries_in_append]
      cases List.mem_cons.mp hmem with
      | inl heq =>
        rw [show parent_frs = frs from heq.symm, if_pos ⟨hno, hne⟩]
        exact ⟨UInt16.ofNat (min links.length 65535), List.mem_append_left _ (by simp [entries_in])⟩
      | inr hrest =>
        obtain ⟨number, hnumber⟩ := ih hrest
        exact ⟨number, List.mem_append_right _ hnumber⟩
  obtain ⟨number, hnumber⟩ := hlisted _ hname
  exact ⟨number, (List.mem_filter.mp ((h.entries frs child_frs).mem_iff.mpr hnumber)).1⟩

/-- The parent of every name is known. -/
theorem Built.mapped (h : Built index) : ∀ entry ∈ index.entries_of_names, ∃ i, index.frs_to_idx_opt entry.1 = some i := by
  intro entry hentry
  obtain ⟨hne, hno, hname⟩ := mem_entries_of_names h.wf hentry
  obtain ⟨number, hchild⟩ := h.entered.of_name hname hne hno
  have hpresent := h.entered.present entry.1 (List.ne_nil_of_mem hchild)
  cases hidx : index.frs_to_idx_opt entry.1 with
  | none =>
    rw [view_of_unmapped hidx] at hpresent
    cases hpresent
  | some i => exact ⟨i, rfl⟩

/-- Entries made anew from the names. -/
theorem Built.rebuild (h : Built index) :
    Wf index.rebuild_children_from_names ∧
      (∀ frs, index.rebuild_children_from_names.frs_to_idx_opt frs = index.frs_to_idx_opt frs) ∧
      ∀ frs, index.rebuild_children_from_names.view frs =
        { index.view frs with children := (entries_in frs index.entries_of_names).reverse } := by
  have hmapped : ∀ entry ∈ index.entries_of_names, ∃ i, index.clear_children.frs_to_idx_opt entry.1 = some i := h.mapped
  have hroom : index.clear_children.children.length + index.entries_of_names.length ≤ NO_ENTRY.toNat :=
    (Nat.zero_add _).trans_le h.room
  obtain ⟨hwf, hopt, hview⟩ := add_entries_stores h.wf.clear_children index.entries_of_names hmapped hroom rfl
  rw [MftIndex.rebuild_children_from_names, collect_eq h.wf h.entered]
  refine ⟨hwf, hopt, fun frs => (hview frs).trans ?_⟩
  rw [clear_children_view, List.append_nil]

theorem Built.rebuild_rebuild (h : Built index) :
    index.rebuild_children_from_names.rebuild_children_from_names = index.rebuild_children_from_names :=
  rebuild_rebuild_mapped fun entry hentry => h.mapped entry (collect_eq h.wf h.entered ▸ hentry)

/-- Records stay where they are, with all but their entries. -/
theorem Built.rebuild_record (h : Built index) {i : Nat} {rec : FileRecord}
    (hrec : index.rebuild_children_from_names.records[i]? = some rec) :
    ∃ old, index.records[i]? = some old ∧ rec.blank = old.blank ∧ rec.frs = old.frs := by
  obtain ⟨hwf, hopt, hview⟩ := h.rebuild
  have hfound := hwf.found hrec
  have hidx := (hopt rec.frs).symm.trans hfound
  obtain ⟨old, hold, hfrs⟩ := h.wf.mapped hidx
  have hsame := hview rec.frs
  rw [view_of_mapped hfound hrec, view_of_mapped hidx hold] at hsame
  exact ⟨old, hold, congrArg FileView.record hsame, hfrs.symm⟩

end rebuild

section parsed

/-- The unified mark is set with the record and never taken back. -/
theorem unified_store_segment (h : ∀ frs, (table frs).record.is_unified = true) (segment : Segment)
    (frs : UInt64) : (table.store_segment segment frs).record.is_unified = true := by
  have hkeep : ∀ flags : UInt8, ((flags ||| 0b1000) &&& 0b100000 != 0) = (flags &&& 0b100000 != 0) ∧
      ((flags ||| 0b10000) &&& 0b100000 != 0) = (flags &&& 0b100000 != 0) := by
    intro flags
    have hbits : (flags ||| 0b1000) &&& 0b100000 = flags &&& 0b100000 ∧ (flags ||| 0b10000) &&& 0b100000 = flags &&& 0b100000 := by
      constructor
      all_goals
        refine UInt8.toBitVec_inj.mp ?_
        simp only [UInt8.toBitVec_and, UInt8.toBitVec_or]
        rw [BitVec.and_comm, BitVec.and_or_distrib_left]
        rw [BitVec.and_comm]
        exact BitVec.or_zero
    rw [hbits.1, hbits.2]
    exact ⟨rfl, rfl⟩
  refine @FileTable.store_segment_keeps (fun view => view.record.is_unified = true) table segment ?_ ?_ ?_ ?_ h frs
  · intro view stamp h
    cases stamp <;> exact h
  · intro view attr _ h
    cases attr with
    | index_i30 size flags =>
      have hflags : (view.record.add_i30 size flags).forensic_flags = view.record.forensic_flags ∨
          (view.record.add_i30 size flags).forensic_flags = view.record.forensic_flags ||| 0b10000 := by
        rw [FileRecord.add_i30]
        split
        · exact .inl rfl
        · exact .inr rfl
      rw [FileView.absorb, FileRecord.is_unified]
      cases hflags with
      | inl hsame => exact hsame ▸ h
      | inr hset => rw [hset, (hkeep _).2]; exact h
    | default_data size flags =>
      have hflags : (view.record.add_default_data size flags).forensic_flags = view.record.forensic_flags ||| 0b1000 := by
        rw [FileRecord.add_default_data]
        dsimp only
        split <;> rfl
      rw [FileView.absorb, FileRecord.is_unified, hflags, (hkeep _).1]
      exact h
    | _ => exact h
  · intro view is_directory h
    cases is_directory <;> exact h
  · exact fun view child_frs name_index h => h

theorem unified_parsed (segments : List Segment) (frs : UInt64) :
    (segments.foldl FileTable.store_segment FileView.absent frs).record.is_unified = true := by
  have hrun : ∀ (segments : List Segment) (table : FileTable), (∀ frs, (table frs).record.is_unified = true) →
      ∀ frs, (segments.foldl FileTable.store_segment table frs).record.is_unified = true := by
    intro segments
    induction segments with
    | nil => exact fun _ h => h
    | cons segment segments ih => exact fun table h => ih _ (unified_store_segment h segment)
  refine hrun segments _ (fun frs => ?_) frs
  have hflags : (FileView.absent frs).record.forensic_flags = 0b100000 := rfl
  rw [FileRecord.is_unified, hflags]
  rfl

/-- The files of a list bring no more than all segments together. -/
theorem sum_brought_le {β : Type} (part : Attribute → Option β) (segments : List Segment) {files : List UInt64}
    (hnodup : files.Nodup) :
    (files.map fun frs => (brought part frs segments).length).sum ≤
      (segments.map fun segment => (segment.attributes.filterMap part).length).sum := by
  induction segments with
  | nil =>
    have hzero : (files.map fun frs => (brought part frs []).length) = files.map fun _ => 0 := rfl
    rw [hzero]
    simp
  | cons segment segments ih =>
    have hcons : ∀ frs, (brought part frs (segment :: segments)).length =
        (if frs = segment.base then (segment.attributes.filterMap part).length else 0) + (brought part frs segments).length := by
      intro frs
      rw [brought, brought, own_segments, own_segments, List.filter_cons]
      by_cases hbase : frs = segment.base
      · rw [if_pos hbase, if_pos (decide_eq_true hbase.symm), List.flatMap_cons, List.length_append]
      · rw [if_neg hbase, if_neg (by simpa using Ne.symm hbase), Nat.zero_add]
    have hone : ∀ files : List UInt64, files.Nodup →
        (files.map fun frs => if frs = segment.base then (segment.attributes.filterMap part).length else 0).sum ≤
          (segment.attributes.filterMap part).length := by
      intro files
      induction files with
      | nil => exact fun _ => Nat.zero_le _
      | cons frs files ih =>
        intro hnodup
        obtain ⟨hnot, hnodup⟩ := List.nodup_cons.mp hnodup
        rw [List.map_cons, List.sum_cons]
        split
        next heq =>
          have hzero : (files.map fun frs => if frs = segment.base then (segment.attributes.filterMap part).length else 0).sum = 0 := by
            refine List.sum_eq_zero fun n hn => ?_
            obtain ⟨other, hother, rfl⟩ := List.mem_map.mp hn
            refine if_neg fun hsame => hnot ?_
            rw [heq, ← hsame]
            exact hother
          rw [hzero]
          exact Nat.le_refl _
        next =>
          rw [Nat.zero_add]
          exact ih hnodup
    have hsplit : (files.map fun frs => (brought part frs (segment :: segments)).length).sum =
        (files.map fun frs => if frs = segment.base then (segment.attributes.filterMap part).length else 0).sum +
          (files.map fun frs => (brought part frs segments).length).sum := by
      rw [← List.sum_map_add]
      exact congrArg List.sum (List.map_congr_left fun frs _ => hcons frs)
    rw [hsplit, List.map_cons, List.sum_cons]
    exact Nat.add_le_add (hone files hnodup) ih

theorem name_entries_length_le (child_frs : UInt64) (left : Nat) (links : List (List UInt8 × UInt64)) :
    (name_entries child_frs left links).length ≤ links.length := by
  induction links generalizing left with
  | nil => cases left <;> exact Nat.le_refl _
  | cons link links ih =>
    cases left with
    | zero => exact Nat.zero_le _
    | succ left =>
      obtain ⟨name, parent_frs⟩ := link
      rw [name_entries, List.length_append, List.length_cons]
      have hrest := ih left
      split
      · rw [List.length_singleton]
        omega
      · rw [List.length_nil]
        omega

theorem built_parsed (env : Env) {buffers : List Buffer} (hfits : ∀ arena, total_size buffers arena ≤ arena.limit) :
    Built (parse_all env buffers MftIndex.new) := by
  obtain ⟨hwf, hview⟩ := parse_all_stores env Wf.empty (.new hfits)
  rw [show MftIndex.new.view = FileView.absent from funext view_empty] at hview
  have hrecord : ∀ rec ∈ (parse_all env buffers MftIndex.new).records,
      (parse_all env buffers MftIndex.new).view rec.frs = (parse_all env buffers MftIndex.new).view_record rec := by
    intro rec hmem
    obtain ⟨i, hrec⟩ := List.mem_iff_getElem?.mp hmem
    exact view_of_mapped (hwf.found hrec) hrec
  refine ⟨hwf, ?_, fun rec hmem => ?_, ?_⟩
  · rw [hview]
    exact entered_parsed _
  · have hunified := unified_parsed (buffers.filterMap Buffer.segment?) rec.frs
    rw [← hview, hrecord rec hmem] at hunified
    exact hunified
  · have hnodup : ((parse_all env buffers MftIndex.new).records.map FileRecord.frs).Nodup := by
      rw [List.nodup_iff_getElem?_ne_getElem?]
      intro i j hij hj heq
      rw [List.length_map] at hj
      rw [List.getElem?_map, List.getElem?_map, List.getElem?_eq_getElem hj,
        List.getElem?_eq_getElem (hij.trans hj), Option.map_some, Option.map_some] at heq
      have hi' := hwf.found (List.getElem?_eq_getElem (hij.trans hj))
      have hj' := hwf.found (List.getElem?_eq_getElem hj)
      rw [Option.some.inj heq, hj'] at hi'
      exact absurd (Option.some.inj hi') (by omega)
    have hlinks := sum_brought_le Attribute.link (buffers.filterMap Buffer.segment?) hnodup
    have hsize : ((buffers.filterMap Buffer.segment?).map fun segment => (segment.attributes.filterMap Attribute.link).length).sum ≤
        total_size buffers .children := by
      rw [total_size]
      refine List.sum_le_sum fun segment _ => ?_
      rw [Segment.size]
      refine le_trans ?_ (Nat.le_add_left _ _)
      induction segment.attributes with
      | nil => exact Nat.le_refl _
      | cons attr attributes ih =>
        rw [List.filterMap_cons, List.map_cons, List.sum_cons]
        cases attr with
        | file_name attr =>
          have hone : (Attribute.file_name attr).size .children = 1 := rfl
          rw [hone]
          dsimp only [Attribute.link]
          rw [List.length_cons]
          omega
        | _ => exact le_trans ih (Nat.le_add_left _ _)
    have hnames : (parse_all env buffers MftIndex.new).entries_of_names.length ≤
        (((parse_all env buffers MftIndex.new).records.map FileRecord.frs).map fun frs =>
          (brought Attribute.link frs (buffers.filterMap Buffer.segment?)).length).sum := by
      rw [MftIndex.entries_of_names, List.length_flatMap, List.map_map]
      refine List.sum_le_sum fun rec hmem => ?_
      refine le_trans (name_entries_length_le _ _ _) ?_
      have hrun := run_links FileView.absent rec.frs (buffers.filterMap Buffer.segment?)
      rw [← hview, hrecord rec hmem] at hrun
      rw [hrun, List.length_append, List.length_reverse]
      exact Nat.le_refl _
    exact le_trans hnames (le_trans hlinks (le_trans hsize (hfits .children)))

end parsed

end uffs.mft
