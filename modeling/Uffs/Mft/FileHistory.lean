import Uffs.Mft.Parsed

namespace uffs.mft

/-! What one attribute does, file by file: its own file absorbs it, the parent of a name gets an
entry, every other file stays as it is. -/

/-- The parent that gets a directory entry for a name of the file `frs_base`. -/
def Attribute.entry_parent (frs_base : UInt64) : Attribute → Option UInt64
  | .file_name attr =>
    if attr.parent_frs ≠ frs_base ∧ attr.parent_frs ≠ NO_ENTRY.toUInt64 then some attr.parent_frs else none
  | _ => none

/-- No name makes a file an entry of itself. -/
theorem entry_parent_ne (frs_base : UInt64) (attr : Attribute) : attr.entry_parent frs_base ≠ some frs_base := by
  cases attr with
  | file_name attr =>
    rw [Attribute.entry_parent]
    split
    next hentry => exact fun h => hentry.1 (Option.some.inj h)
    next => exact fun h => nomatch h
  | _ => exact fun h => nomatch h

/-- An attribute in its own file. -/
def FileView.absorb (is_directory : Bool) (self : FileView) (attr : Attribute) : FileView :=
  match attr with
  | .standard_information info =>
    { self with record := { self.record with stdinfo := if is_directory then info.set_directory else info } }
  | .file_name attr =>
    { self with
      links := (attr.name.stored, attr.parent_frs) :: self.links
      record := (self.record.name_times attr).count_name }
  | .index_i30 size flags => { self with record := self.record.add_i30 size flags }
  | .default_data size flags => { self with record := self.record.add_default_data size flags }
  | .named_data name size flags =>
    { self with streams := self.streams ++ [(name.stored, size, flags)], record := self.record.count_stream }
  | .internal size flags reparse_tag =>
    { self with internals := self.internals ++ [(size, flags)], record := self.record.add_internal size reparse_tag }

/-- An entry in its directory. -/
def FileView.enter (self : FileView) (child_frs : UInt64) (name_index : UInt16) : FileView :=
  { self with present := true, children := (child_frs, name_index) :: self.children }

/-- A segment in its own file. -/
def FileView.absorb_segment (self : FileView) (segment : Segment) : FileView :=
  let opened := { self with present := true, record := self.record.stamp segment.stamp }
  let absorbed := segment.attributes.foldl (FileView.absorb segment.is_directory) opened
  { absorbed with record := absorbed.record.mark_directory segment.is_directory }

variable (table : FileTable)

theorem FileTable.store_child_apply (frs_base parent_frs frs : UInt64) :
    table.store_child frs_base parent_frs frs =
      if frs = parent_frs ∧ parent_frs ≠ frs_base ∧ parent_frs ≠ NO_ENTRY.toUInt64 then
        (table frs).enter frs_base (table frs_base).record.name_count
      else table frs := by
  rw [FileTable.store_child]
  by_cases hentry : parent_frs ≠ frs_base ∧ parent_frs ≠ NO_ENTRY.toUInt64
  · rw [if_pos hentry, FileTable.push_child, FileTable.ensure]
    by_cases hfrs : frs = parent_frs
    · subst hfrs
      rw [if_pos ⟨rfl, hentry⟩, Function.update_self, Function.update_self]
      rfl
    · rw [if_neg fun h => hfrs h.1, Function.update_of_ne hfrs, Function.update_of_ne hfrs]
  · rw [if_neg hentry, if_neg fun h => hentry h.2]

/-- An attribute, file by file. -/
theorem FileTable.store_attribute_apply (frs_base : UInt64) (is_directory : Bool) (attr : Attribute) (frs : UInt64) :
    table.store_attribute frs_base is_directory attr frs =
      if frs = frs_base then (table frs).absorb is_directory attr
      else if attr.entry_parent frs_base = some frs then (table frs).enter frs_base (table frs_base).record.name_count
      else table frs := by
  have hown : ∀ attr : Attribute, attr.entry_parent frs_base = none →
      Function.update table frs_base ((table frs_base).absorb is_directory attr) frs =
        if frs = frs_base then (table frs).absorb is_directory attr
        else if attr.entry_parent frs_base = some frs then (table frs).enter frs_base (table frs_base).record.name_count
        else table frs := by
    intro attr hnone
    rw [hnone, if_neg (Option.some_ne_none _).symm, Function.update_apply]
    split
    next heq => rw [heq]
    next => rfl
  cases attr with
  | file_name attr =>
    rw [FileTable.store_attribute, FileTable.store_file_name]
    rw [FileTable.modify, Function.update_apply, FileTable.store_child_apply, FileTable.store_child_apply]
    have hbase : ¬ (frs_base = attr.parent_frs ∧ attr.parent_frs ≠ frs_base ∧ attr.parent_frs ≠ NO_ENTRY.toUInt64) :=
      fun h => h.2.1 h.1.symm
    rw [if_neg hbase, FileTable.modify, Function.update_self, FileTable.push_link, Function.update_self]
    by_cases hfrs : frs = frs_base
    · subst hfrs
      rw [if_pos rfl, if_pos rfl]
      rfl
    · rw [if_neg hfrs, if_neg hfrs, Function.update_of_ne hfrs, Function.update_of_ne hfrs, Attribute.entry_parent]
      by_cases hparent : frs = attr.parent_frs
      · subst hparent
        by_cases hentry : attr.parent_frs ≠ frs_base ∧ attr.parent_frs ≠ NO_ENTRY.toUInt64
        · rw [if_pos ⟨rfl, hentry⟩, if_pos hentry, if_pos rfl]
          rfl
        · rw [if_neg fun h => hentry h.2, if_neg hentry, if_neg (Option.some_ne_none _).symm]
      · rw [if_neg fun h => hparent h.1, if_neg]
        split
        · exact fun h => hparent (Option.some.inj h).symm
        · rintro ⟨⟩
  | standard_information info => exact hown (.standard_information info) rfl
  | index_i30 size flags => exact hown (.index_i30 size flags) rfl
  | default_data size flags => exact hown (.default_data size flags) rfl
  | named_data name size flags => exact hown (.named_data name size flags) rfl
  | internal size flags reparse_tag => exact hown (.internal size flags reparse_tag) rfl

/-- The attribute loop in the file it belongs to. -/
theorem FileTable.store_attributes_own (frs_base : UInt64) (is_directory : Bool) (attributes : List Attribute) :
    attributes.foldl (FileTable.store_attribute frs_base is_directory) table frs_base =
      attributes.foldl (FileView.absorb is_directory) (table frs_base) := by
  induction attributes generalizing table with
  | nil => rfl
  | cons attr attributes ih =>
    rw [List.foldl_cons, List.foldl_cons, ih, FileTable.store_attribute_apply, if_pos rfl]

theorem FileTable.store_segment_own (segment : Segment) :
    table.store_segment segment segment.base = (table segment.base).absorb_segment segment := by
  rw [FileTable.store_segment, FileTable.modify, Function.update_self, FileTable.store_attributes_own, FileTable.modify, Function.update_self,
    FileTable.ensure, Function.update_self]
  rfl

/-- What a file has of its own, without its directory entries. -/
def FileView.own (self : FileView) : FileView := { self with present := false, children := [] }

/-- Segments of other files do not touch what a file has of its own. -/
theorem FileTable.store_segment_elsewhere (segment : Segment) {frs : UInt64} (hne : frs ≠ segment.base) :
    (table.store_segment segment frs).own = (table frs).own := by
  have hloop : ∀ (attributes : List Attribute) (table : FileTable),
      (attributes.foldl (FileTable.store_attribute segment.base segment.is_directory) table frs).own = (table frs).own := by
    intro attributes
    induction attributes with
    | nil => exact fun _ => rfl
    | cons attr attributes ih =>
      intro table
      rw [List.foldl_cons, ih, FileTable.store_attribute_apply, if_neg hne]
      split <;> rfl
  rw [FileTable.store_segment, FileTable.modify, Function.update_of_ne hne, hloop, FileTable.modify,
    Function.update_of_ne hne, FileTable.ensure, Function.update_of_ne hne]

/-- Whatever holds of every file, and what an attribute, an entry or a stamp keeps, holds after a segment. -/
theorem FileTable.store_segment_keeps {P : FileView → Prop} {table : FileTable} {segment : Segment}
    (hopen : ∀ view stamp, P view → P { view with present := true, record := view.record.stamp stamp })
    (habsorb : ∀ view, ∀ attr ∈ segment.attributes, P view → P (view.absorb segment.is_directory attr))
    (hmark : ∀ view is_directory, P view → P { view with record := view.record.mark_directory is_directory })
    (henter : ∀ view child_frs name_index, P view → P (view.enter child_frs name_index))
    (h : ∀ frs, P (table frs)) (frs : UInt64) : P (table.store_segment segment frs) := by
  have hloop : ∀ (attributes : List Attribute) (table : FileTable), attributes ⊆ segment.attributes →
      (∀ frs, P (table frs)) →
      ∀ frs, P (attributes.foldl (FileTable.store_attribute segment.base segment.is_directory) table frs) := by
    intro attributes
    induction attributes with
    | nil => exact fun table _ h => h
    | cons attr attributes ih =>
      intro table hsub h
      refine ih _ (fun other hmem => hsub (List.mem_cons_of_mem _ hmem)) fun frs => ?_
      rw [FileTable.store_attribute_apply]
      split
      · exact habsorb _ attr (hsub List.mem_cons_self) (h frs)
      · split
        · exact henter _ _ _ (h frs)
        · exact h frs
  have hopened : ∀ frs, P (((table.ensure segment.base).modify segment.base fun rec => rec.stamp segment.stamp) frs) := by
    intro frs
    rw [FileTable.modify, Function.update_apply]
    split
    · rw [FileTable.ensure, Function.update_self]
      exact hopen (table segment.base) segment.stamp (h segment.base)
    next hne =>
      rw [FileTable.ensure, Function.update_of_ne hne]
      exact h frs
  have hstored := hloop segment.attributes _ (fun _ hmem => hmem) hopened
  rw [FileTable.store_segment, FileTable.modify, Function.update_apply]
  split
  · exact hmark _ _ (hstored segment.base)
  · exact hstored frs

end uffs.mft
