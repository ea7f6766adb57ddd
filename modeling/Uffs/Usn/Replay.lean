import Uffs.Usn.PollCut

open uffs.mft uffs.text uffs.bloom uffs.compact

namespace uffs.usn

/-- What a reader takes from a row besides its name and its parent. -/
structure Columns where
  size : UInt64 := 0
  created : Int64 := 0
  modified : Int64 := 0
  accessed : Int64 := 0
  flags : UInt32 := 0
  descendants : UInt32 := 0
  treesize : UInt64 := 0
deriving DecidableEq, Inhabited

def columns_of (row : CompactRecord) : Columns where
  size := row.size
  created := row.created
  modified := row.modified
  accessed := row.accessed
  flags := row.flags
  descendants := row.descendants
  treesize := row.treesize

/-- The slot of a record number: the record number it carries, what a live row shows, the columns. -/
structure Cell where
  frs : UInt64
  seen : Option Seen
  columns : Columns
deriving DecidableEq

def cell_of (drive : DriveCompactIndex) (row : CompactRecord) : Cell where
  frs := row.frs
  seen := if row.name_len = 0 then none else some (seen drive row)
  columns := columns_of row

/-- A mapped record number always has a cell in a well-placed index. -/
def cell (drive : DriveCompactIndex) (frs : UInt64) : Option Cell :=
  if slot_of drive frs = NO_ENTRY then none else drive.records[(slot_of drive frs).toNat]?.map (cell_of drive)

/-- The live view with the columns. -/
def live_view (drive : DriveCompactIndex) (frs : UInt64) : Option (Seen × Columns) :=
  (cell drive frs).bind fun c => c.seen.map fun s => (s, c.columns)

/-- The columns of a row after a change has written it: a create takes the backfilled metadata or
zeros and resets the tree metrics, a rename takes the backfilled metadata or keeps what is there. -/
def carry (old : Columns) (change : FileChange) : Columns :=
  if change.created then
    let m := change.md.getD {}
    { size := m.size, created := m.created, modified := m.modified, accessed := m.accessed, flags := m.flags }
  else
    match change.md with
    | none => old
    | some m => { old with size := m.size, created := m.created, modified := m.modified, accessed := m.accessed, flags := m.flags }

/-- The record number in a slot appended for `frs`. -/
def fresh_frs (frs : UInt64) : UInt64 := pack_file_reference frs 0 &&& FRS_MASK

/-- One change on the cell of its record number. -/
def rewrite (change : FileChange) (parent : Option UInt64) (entry : Option Cell) : Option Cell :=
  if change.deleted then none
  else if change.filename = [] then entry
  else if change.created then
    some { frs := (entry.map Cell.frs).getD (fresh_frs change.frs)
           seen := some (stored_name change.filename, parent)
           columns := carry {} change }
  else if change.renamed then
    entry.map fun c => { c with seen := some (stored_name change.filename, parent), columns := carry c.columns change }
  else entry

/-- A volume as its cells. -/
abbrev Cells := UInt64 → Option Cell

def replay_step (cells : Cells) (change : FileChange) : Cells := fun f =>
  if f = change.frs then rewrite change ((cells change.parent_frs).map Cell.frs) (cells f) else cells f

/-- The changes in the given order, on the cells alone. -/
def replay (cells : Cells) (changes : List FileChange) : Cells := changes.foldl replay_step cells

variable {change : FileChange}

theorem carry_created (h : change.created = true) (old old' : Columns) :
    carry old change = carry old' change := by
  simp only [carry, h, if_true]

section Step

variable {env : Env} {patch : Patch} {drive : DriveCompactIndex}

theorem cell_of_get {f : UInt64} (hf : slot_of drive f ≠ NO_ENTRY) {row : CompactRecord}
    (hget : drive.records[(slot_of drive f).toNat]? = some row) : cell drive f = some (cell_of drive row) := by
  rw [cell, if_neg hf, hget, Option.map_some]

theorem Placed.get (h : Placed drive) {f : UInt64} (hf : slot_of drive f ≠ NO_ENTRY) :
    ∃ row, drive.records[(slot_of drive f).toNat]? = some row :=
  h.sighted.get hf

theorem Placed.cell_eq_none_iff (h : Placed drive) {f : UInt64} : cell drive f = none ↔ slot_of drive f = NO_ENTRY := by
  constructor
  · intro hcell
    by_contra hf
    obtain ⟨row, hget⟩ := h.get hf
    rw [cell_of_get hf hget] at hcell
    cases hcell
  · intro hf
    rw [cell, if_pos hf]

/-- The record number in the parent slot of a staged change. -/
theorem Placed.parent_label (h : Placed drive) (f : UInt64) :
    (if slot_of drive f = NO_ENTRY then none else drive.records[(slot_of drive f).toNat]?.map CompactRecord.frs) =
      (cell drive f).map Cell.frs := by
  rw [cell]
  split_ifs with hslot
  · rfl
  · obtain ⟨row, hget⟩ := h.get hslot
    rw [hget, Option.map_some, Option.map_some, Option.map_some, cell_of]

theorem Placed.cell_other (h : Placed patch.drive) {f : UInt64} (hf : f ≠ change.frs) :
    cell (apply_change env patch change).drive f = cell patch.drive f := by
  have hslot := (apply_change_effect env patch change).slot_of_other hf
  by_cases hmapped : slot_of patch.drive f = NO_ENTRY
  · rw [cell, cell, if_pos hmapped, if_pos (hslot.trans hmapped)]
  · obtain ⟨row, hget, hget', hseen⟩ := h.sighted.row_other hf hmapped
    rw [cell_of_get hmapped hget, cell_of_get (hslot ▸ hmapped) hget', cell_of, cell_of]
    split_ifs with hdead
    · rfl
    · rw [hseen hdead]

/-- The columns and the record number of the slot a change has written. -/
theorem apply_change_columns (env : Env) (hwrites : Writes patch.drive change)
    (hroom : patch.drive.records.length < UInt32.size) {row' : CompactRecord}
    (hget' : (apply_change env patch change).drive.records[(slot_of (apply_change env patch change).drive change.frs).toNat]? = some row') :
    (slot_of patch.drive change.frs = NO_ENTRY → change.created = true ∧ row'.frs = fresh_frs change.frs ∧ columns_of row' = carry {} change) ∧
      ∀ row, slot_of patch.drive change.frs ≠ NO_ENTRY → patch.drive.records[(slot_of patch.drive change.frs).toNat]? = some row →
        row'.frs = row.frs ∧ columns_of row' = carry (columns_of row) change := by
  obtain ⟨hkind, hname, hhow⟩ := hwrites
  have hempty : ¬ change.filename.isEmpty = true := by simpa using hname
  have hstaged := stage_create_staged env patch.drive change
  constructor
  · intro hslot
    have hcreated : change.created = true := by
      rcases hhow with hcreated | ⟨-, hmapped⟩
      · exact hcreated
      · exact absurd hslot hmapped
    have hdrive := apply_change_append_drive env hkind hcreated hname hslot
    have hnew : slot_of (apply_change env patch change).drive change.frs = len_to_u32 patch.drive.records.length := by
      rw [hdrive, ← hstaged.records]
      exact (slot_of_map_frs rfl _).trans (if_pos rfl)
    rw [hnew, len_to_u32_toNat hroom, hdrive] at hget'
    rw [List.getElem?_concat_length] at hget'
    cases hget'
    refine ⟨hcreated, rfl, ?_⟩
    simp only [carry, hcreated, if_true]
    rfl
  · intro row hslot hget
    have hlt := (List.getElem?_eq_some_iff.mp hget).1
    have hgetStaged : (stage_create env patch.drive change).1.records[(slot_of patch.drive change.frs).toNat]? = some row := by
      rw [hstaged.records]
      exact hget
    cases hcreated : change.created with
    | true =>
      have hdrive : (apply_change env patch change).drive =
          { (stage_create env patch.drive change).1 with
            records := (stage_create env patch.drive change).1.records.set (slot_of patch.drive change.frs).toNat
              (overwrite_slot (stage_create env patch.drive change).2 row) } := by
        rw [apply_change]
        simp only [hkind, hcreated, Bool.false_eq_true, if_false, if_true]
        rw [apply_create, if_neg hempty]
        dsimp only
        rw [if_neg hslot, hgetStaged]
      have hsame : slot_of (apply_change env patch change).drive change.frs = slot_of patch.drive change.frs := by
        rw [hdrive]
        exact slot_of_of_map hstaged.map _
      rw [hsame, hdrive] at hget'
      rw [List.getElem?_set_self (by rw [hstaged.records]; exact hlt)] at hget'
      cases hget'
      refine ⟨rfl, ?_⟩
      simp only [carry, hcreated, if_true]
      rfl
    | false =>
      have hrenamed : change.renamed = true := by
        rcases hhow with hcreated' | ⟨hrenamed, -⟩
        · rw [hcreated] at hcreated'
          cases hcreated'
        · exact hrenamed
      have hguard : ¬ (decide (slot_of patch.drive change.frs = NO_ENTRY) || change.filename.isEmpty) = true := by
        simp [hslot, hname]
      have hdrive : (apply_change env patch change).drive =
          { (stage_create env patch.drive change).1 with
            records := (stage_create env patch.drive change).1.records.set (slot_of patch.drive change.frs).toNat
              (renamed_record (stage_create env patch.drive change).2 change.md row) } := by
        rw [apply_change]
        simp only [hkind, hcreated, hrenamed, Bool.false_eq_true, if_false, if_true]
        rw [apply_rename, if_neg hguard]
        dsimp only
        rw [hgetStaged]
      have hsame : slot_of (apply_change env patch change).drive change.frs = slot_of patch.drive change.frs := by
        rw [hdrive]
        exact slot_of_of_map hstaged.map _
      rw [hsame, hdrive] at hget'
      dsimp only at hget'
      rw [List.getElem?_set_self (by rw [hstaged.records]; exact hlt)] at hget'
      cases hget'
      simp only [renamed_record, carry, hcreated, Bool.false_eq_true, if_false]
      cases change.md with
      | none => exact ⟨rfl, rfl⟩
      | some m => exact ⟨rfl, rfl⟩

section

variable (h : Placed patch.drive) (hblob : patch.drive.names.length < UInt32.size)
  (hroom : (apply_change env patch change).drive.records.length < NO_ENTRY.toNat)

include h hblob hroom

/-- One change, as the cell of its record number sees it. -/
theorem Placed.cell_self :
    cell (apply_change env patch change).drive change.frs =
      rewrite change ((cell patch.drive change.parent_frs).map Cell.frs) (cell patch.drive change.frs) := by
  have hplaced := h.step hroom
  by_cases hkind : change.deleted = true
  · rw [rewrite, if_pos hkind]
    exact hplaced.cell_eq_none_iff.mpr (slot_of_deleted h.get hkind)
  · have hkind' : change.deleted = false := by simpa using hkind
    by_cases hwrites : Writes patch.drive change
    · -- the row that is written is the one whose columns are known
      have hlen : patch.drive.records.length < UInt32.size := by
        have := foldl_apply_change_length_le env [change] patch
        have hsize : UInt32.size = 4294967296 := rfl
        have hmax := NO_ENTRY_toNat
        rw [List.foldl_cons, List.foldl_nil] at this
        omega
      obtain ⟨row', hslot', hget', hfresh⟩ := exists_written h.get hwrites hroom
      have hseen := hfresh.seen_eq h.sighted hblob fun i row hget => (apply_change_effect env patch change).frs_kept hget
      rw [h.parent_label] at hseen
      obtain ⟨hnew, hold⟩ := apply_change_columns env hwrites hlen hget'
      rw [cell_of_get hslot' hget', cell_of, if_neg hfresh.live, hseen, rewrite, if_neg hkind, if_neg hwrites.2.1]
      by_cases hslot : slot_of patch.drive change.frs = NO_ENTRY
      · obtain ⟨hcreated, hfrs, hcolumns⟩ := hnew hslot
        rw [if_pos hcreated, h.cell_eq_none_iff.mpr hslot, hfrs, hcolumns]
        rfl
      · obtain ⟨row, hget⟩ := h.get hslot
        obtain ⟨hfrs, hcolumns⟩ := hold row hslot hget
        rw [cell_of_get hslot hget, hfrs, hcolumns]
        split_ifs with hcreated hrenamed
        · rw [carry_created hcreated (columns_of row) {}]
          rfl
        · rfl
        · rcases hwrites.2.2 with hcreated' | ⟨hrenamed', -⟩
          · exact absurd hcreated' hcreated
          · exact absurd hrenamed' hrenamed
    · have hskip : (apply_change env patch change).drive = patch.drive := by
        rw [apply_change_skip env hkind' hwrites]
        rfl
      rw [hskip, rewrite, if_neg hkind]
      split_ifs with hname hcreated hrenamed
      · rfl
      · exact absurd ⟨hkind', hname, Or.inl hcreated⟩ hwrites
      · have hslot : slot_of patch.drive change.frs = NO_ENTRY := by
          by_contra hslot
          exact hwrites ⟨hkind', hname, Or.inr ⟨hrenamed, hslot⟩⟩
        rw [h.cell_eq_none_iff.mpr hslot]
        rfl
      · rfl

theorem Placed.cell_step : cell (apply_change env patch change).drive = replay_step (cell patch.drive) change := by
  funext f
  rw [replay_step]
  split_ifs with hf
  · rw [hf]
    exact h.cell_self hblob hroom
  · exact h.cell_other hf

end

/-- The mutation loop is the replay on the cells. -/
theorem Placed.run_cells {changes : List FileChange} {patch : Patch} (h : Placed patch.drive)
    (hfits : Fits (changes.foldl (apply_change env) patch).drive) :
    Placed (changes.foldl (apply_change env) patch).drive ∧
      cell (changes.foldl (apply_change env) patch).drive = replay (cell patch.drive) changes := by
  induction changes generalizing patch with
  | nil => exact ⟨h, rfl⟩
  | cons change changes ih =>
    rw [List.foldl_cons] at hfits ⊢
    have hafter := hfits.before
    have hbefore : Fits patch.drive := @Fits.before patch [change] env hafter
    obtain ⟨hplaced, hcells⟩ := ih (h.step hafter.records) hfits
    refine ⟨hplaced, ?_⟩
    rw [hcells, h.cell_step hbefore.names hafter.records]
    rfl

end Step

theorem columns_of_core {a b : CompactRecord} (h : a.core = b.core) : columns_of a = columns_of b := by
  have hcolumns : ∀ row : CompactRecord, columns_of row = columns_of row.core := fun _ => rfl
  rw [hcolumns a, h, ← hcolumns b]

theorem cell_of_rebuilt {start result : DriveCompactIndex} {path_changes : List PathChange} {tombstones : List UInt32}
    (h : Rebuilt start result path_changes tombstones) : cell result = cell start := by
  funext f
  have hslot := slot_of_of_map h.map f
  rw [cell, cell, hslot]
  split_ifs with hf
  · rfl
  · cases hget : start.records[(slot_of start f).toNat]? with
    | none =>
      have hlen := h.core.length_eq
      rw [List.getElem?_eq_none (by rw [hlen]; exact List.getElem?_eq_none_iff.mp hget)]
      rfl
    | some row =>
      obtain ⟨row', hget', hcore⟩ := SameCore.exists_core h.core.symm hget
      rw [hget', Option.map_some, Option.map_some, cell_of, cell_of, name_len_of_core hcore, seen_of_rebuilt h hcore,
        columns_of_core hcore, CompactRecord.frs, CompactRecord.frs, file_ref_of_core hcore]

theorem Placed.of_rebuilt {start result : DriveCompactIndex} {path_changes : List PathChange} {tombstones : List UInt32}
    (hplaced : Placed start) (h : Rebuilt start result path_changes tombstones) : Placed result :=
  (hplaced.sighted.of_rebuilt h).placed

variable {changes : List FileChange} {cells : Cells} {f : UInt64}

/-- A whole patch is the replay of its batch in parent-first order. -/
theorem Placed.applied_cells {env : Env} {drive result : DriveCompactIndex} (h : Placed drive)
    (happlied : Applied env drive changes result) (hfits : Fits result) :
    Placed result ∧ cell result = replay (cell drive) (order_parent_first changes) := by
  have hfits' : Fits (mutated env drive changes).drive := by
    constructor
    · rw [← happlied.length_eq]
      exact hfits.records
    · rw [← happlied.names]
      exact hfits.names
  obtain ⟨hplaced, hcells⟩ := @Placed.run_cells env (order_parent_first changes) { drive := drive } h hfits'
  exact ⟨hplaced.of_rebuilt happlied, (cell_of_rebuilt happlied).trans hcells⟩

theorem Placed.patch_cells {env : Env} {drive : DriveCompactIndex} (h : Placed drive)
    (hfits : Fits (apply_usn_patch env drive changes).1) :
    Placed (apply_usn_patch env drive changes).1 ∧
      cell (apply_usn_patch env drive changes).1 = replay (cell drive) (order_parent_first changes) :=
  h.applied_cells (apply_usn_patch_rebuilt env drive changes) hfits

theorem Reachable.placed {env : Env} {letter : Char} {fold : CaseFold} {index : MftIndex} (hwf : WellFormed index)
    {drive : DriveCompactIndex} (hreach : Reachable env (build_compact_index env letter fold index) Roomy drive) : Placed drive :=
  (Reachable.sighted hwf hreach (show OwnSlots drive [] from by
    rintro f ⟨record, hmem, -⟩
    cases hmem)).placed

/-- Which record numbers have a slot, and the record number each slot carries. -/
abbrev Labels := UInt64 → Option UInt64

def labels_of (cells : Cells) : Labels := fun f => (cells f).map Cell.frs

def relabel (labels : Labels) (change : FileChange) : Labels := fun f =>
  if f = change.frs then
    if change.deleted then none
    else if change.created && !change.filename.isEmpty then some ((labels f).getD (fresh_frs f))
    else labels f
  else labels f

/-- The change does something: a delete, a named create, a named rename of a mapped record number. -/
def takes_effect (labels : Labels) (change : FileChange) : Bool :=
  change.deleted || !change.filename.isEmpty && (change.created || change.renamed && (labels change.frs).isSome)

/-- The last change of a record number that takes effect when the changes are applied in this
order, and what its parent resolves to at that point. -/
def last_effect (labels : Labels) : List FileChange → UInt64 → Option (FileChange × Option UInt64)
  | [], _ => none
  | change :: rest, f =>
    (last_effect (relabel labels change) rest f).or
      (if change.frs = f && takes_effect labels change then some (change, labels change.parent_frs) else none)

/-- The metadata that the changes of a record number carry, from `old` on. -/
def carried (changes : List FileChange) (f : UInt64) (old : Columns) : Columns :=
  (changes.filter fun change => change.frs = f && !change.deleted && !change.filename.isEmpty && (change.created || change.renamed)).foldl
    carry old

/-- Replaying a change relabels its cell alone. -/
theorem labels_of_replay_step (cells : Cells) (change : FileChange) :
    labels_of (replay_step cells change) = relabel (labels_of cells) change := by
  funext f
  rw [labels_of, replay_step, relabel]
  split_ifs with hf hdeleted hcreated
  · rw [rewrite, if_pos hdeleted]
    rfl
  · rw [Bool.and_eq_true, Bool.not_eq_true'] at hcreated
    have hname : change.filename ≠ [] := by simpa using hcreated.2
    rw [rewrite, if_neg hdeleted, if_neg hname, if_pos hcreated.1, hf]
    rfl
  · rw [rewrite, if_neg hdeleted, labels_of]
    split_ifs with hname hmade hrenamed
    · rfl
    · exact absurd (by simp [hmade, hname]) hcreated
    · cases cells f <;> rfl
    · rfl
  · rfl

/-- A change without effect leaves the cell as it is. -/
theorem rewrite_of_no_effect (h : takes_effect (labels_of cells) change = false)
    (parent : Option UInt64) : rewrite change parent (cells change.frs) = cells change.frs := by
  rw [takes_effect, Bool.or_eq_false_iff, Bool.and_eq_false_iff] at h
  obtain ⟨hdeleted, heffect⟩ := h
  rw [rewrite]
  split_ifs with hkind hname hcreated hrenamed
  · rw [hdeleted] at hkind
    cases hkind
  · rfl
  · rcases heffect with hempty | hhow
    · simp [hname] at hempty
    · simp [hcreated] at hhow
  · rcases heffect with hempty | hhow
    · simp [hname] at hempty
    · -- a rename without a slot
      have hnone : cells change.frs = none := by simpa [hcreated, hrenamed, labels_of] using hhow
      rw [hnone]
      rfl
  · rfl

/-- A change with an effect that is no delete writes its name, its parent and its metadata. -/
theorem rewrite_of_effect (h : takes_effect (labels_of cells) change = true)
    (hdeleted : change.deleted = false) (parent : Option UInt64) :
    ∃ c, rewrite change parent (cells change.frs) = some c ∧ c.seen = some (stored_name change.filename, parent) ∧
      c.columns = carry ((cells change.frs).elim {} Cell.columns) change := by
  rw [takes_effect, hdeleted, Bool.false_or, Bool.and_eq_true, Bool.or_eq_true, Bool.and_eq_true] at h
  obtain ⟨hnamed, hhow⟩ := h
  have hname : change.filename ≠ [] := by simpa using hnamed
  have hkind : ¬ change.deleted = true := by simp [hdeleted]
  rw [rewrite, if_neg hkind, if_neg hname]
  split_ifs with hcreated hrenamed
  · exact ⟨_, rfl, rfl, carry_created hcreated _ _⟩
  · obtain ⟨-, hmapped⟩ := hhow.resolve_left hcreated
    obtain ⟨c, hc⟩ : ∃ c, cells change.frs = some c := by
      apply Option.isSome_iff_exists.mp
      simpa [labels_of] using hmapped
    rw [hc]
    exact ⟨_, rfl, rfl, rfl⟩
  · exact absurd (hhow.resolve_left hcreated).1 hrenamed

/-- A record number that no change affects keeps its cell. -/
theorem replay_of_no_effect (h : last_effect (labels_of cells) changes f = none) : replay cells changes f = cells f := by
  induction changes generalizing cells with
  | nil => rfl
  | cons change rest ih =>
    rw [last_effect, Option.or_eq_none_iff, ← labels_of_replay_step] at h
    obtain ⟨hrest, hfirst⟩ := h
    refine (ih hrest).trans ?_
    rw [replay_step]
    split_ifs with hf
    · subst hf
      apply rewrite_of_no_effect
      simpa using hfirst
    · rfl

/-- A change that is carried: it writes if it takes effect at all. -/
theorem carried_cons (change : FileChange) (rest : List FileChange) (f : UInt64) (old : Columns) :
    carried (change :: rest) f old =
      if change.frs = f && !change.deleted && !change.filename.isEmpty && (change.created || change.renamed)
      then carried rest f (carry old change) else carried rest f old := by
  rw [carried, List.filter_cons]
  split_ifs <;> rfl

variable {parent : Option UInt64}

/-- Where a record number without a slot ends up written, a create has set all of its columns. -/
theorem carried_of_unmapped {labels : Labels} (hnone : labels f = none) {write : FileChange}
    (h : last_effect labels changes f = some (write, parent)) (hdeleted : write.deleted = false) (old old' : Columns) :
    carried changes f old = carried changes f old' := by
  induction changes generalizing labels old old' with
  | nil => cases h
  | cons change rest ih =>
    rw [carried_cons, carried_cons]
    rw [last_effect] at h
    by_cases hf : change.frs = f
    · by_cases hcreate : change.created = true ∧ change.filename ≠ [] ∧ change.deleted = false
      · obtain ⟨hcreated, hname, hkind⟩ := hcreate
        rw [carry_created hcreated old old']
        have hempty : change.filename.isEmpty = false := by simpa using hname
        simp only [hf, hcreated, hempty, hkind, decide_true, Bool.not_false, Bool.and_self, Bool.true_or, if_true]
      · have hlabel : relabel labels change f = none := by
          rw [relabel, if_pos hf.symm]
          split_ifs with hkind hmade
          · rfl
          · rw [Bool.and_eq_true, Bool.not_eq_true'] at hmade
            exact absurd ⟨hmade.1, by simpa using hmade.2, by simpa using hkind⟩ hcreate
          · exact hnone
        cases hrest : last_effect (relabel labels change) rest f with
        | some effect =>
          rw [hrest, Option.some_or] at h
          cases h
          split_ifs
          · exact ih hlabel hrest _ _
          · exact ih hlabel hrest _ _
        | none =>
          rw [hrest, Option.none_or] at h
          split_ifs at h with hthis
          cases h
          -- the write has to be a create, since the number has no slot
          simp only [takes_effect, hf, decide_true, Bool.true_and, hdeleted, Bool.false_or, hnone, Option.isSome_none, Bool.and_false,
            Bool.or_false, Bool.and_eq_true, Bool.not_eq_true'] at hthis
          exact absurd ⟨hthis.2, by simpa using hthis.1, hdeleted⟩ hcreate
    · have hlabel : relabel labels change f = none := by rw [relabel, if_neg (Ne.symm hf), hnone]
      simp only [hf, decide_false, Bool.false_and, Bool.false_eq_true, if_false, Option.or_none] at h ⊢
      exact ih hlabel h _ _

/-- A mapped record number that no change affects carries nothing. -/
theorem carried_of_no_effect {labels : Labels} (hsome : (labels f).isSome = true) (h : last_effect labels changes f = none)
    (old : Columns) : carried changes f old = old := by
  induction changes generalizing labels with
  | nil => rfl
  | cons change rest ih =>
    rw [last_effect, Option.or_eq_none_iff] at h
    obtain ⟨hrest, hfirst⟩ := h
    by_cases hf : change.frs = f
    · have heffect : takes_effect labels change = false := by simpa [hf] using hfirst
      simp only [takes_effect, hf, hsome, Bool.and_true, Bool.or_eq_false_iff, Bool.and_eq_false_iff] at heffect
      obtain ⟨hdeleted, hidle⟩ := heffect
      have hlabel : relabel labels change f = labels f := by
        rw [relabel, if_pos hf.symm, if_neg (by simp [hdeleted]), if_neg]
        rintro hmade
        rw [Bool.and_eq_true] at hmade
        rcases hidle with hempty | hhow
        · rw [hempty] at hmade
          cases hmade.2
        · rw [hhow.1] at hmade
          cases hmade.1
      have hnot : ¬ (change.frs = f && !change.deleted && !change.filename.isEmpty && (change.created || change.renamed)) = true := by
        rcases hidle with hempty | hhow
        · simp [hempty]
        · simp [hhow]
      rw [carried_cons, if_neg hnot]
      exact ih (hlabel ▸ hsome) hrest
    · have hlabel : relabel labels change f = labels f := by rw [relabel, if_neg (Ne.symm hf)]
      rw [carried_cons]
      simp only [hf, decide_false, Bool.false_and, Bool.false_eq_true, if_false]
      exact ih (hlabel ▸ hsome) hrest

/-- The columns after a change and those it carries, where the record number ends up written. -/
theorem carried_step {rest : List FileChange} {last : FileChange}
    (h : last_effect (labels_of (replay_step cells change)) rest f = some (last, parent)) (hlast : last.deleted = false) :
    carried rest f ((replay_step cells change f).elim {} Cell.columns) =
      carried (change :: rest) f ((cells f).elim {} Cell.columns) := by
  have hunmapped : ∀ old old' : Columns, replay_step cells change f = none → carried rest f old = carried rest f old' := by
    intro old old' hnone
    exact carried_of_unmapped (by rw [labels_of, hnone]; rfl) h hlast old old'
  rw [carried_cons]
  by_cases hf : change.frs = f
  · subst hf
    cases hdeleted : change.deleted with
    | true =>
      have hnone : replay_step cells change change.frs = none := by rw [replay_step, if_pos rfl, rewrite, if_pos hdeleted]
      simp only [Bool.not_true, Bool.and_false, Bool.false_and, Bool.false_eq_true, if_false]
      exact hunmapped _ _ hnone
    | false =>
      have hstep : replay_step cells change change.frs = rewrite change ((cells change.parent_frs).map Cell.frs) (cells change.frs) := by
        rw [replay_step, if_pos rfl]
      cases heffect : takes_effect (labels_of cells) change with
      | true =>
        obtain ⟨c, hc, -, hcolumns⟩ := rewrite_of_effect heffect hdeleted ((cells change.parent_frs).map Cell.frs)
        have hwrites : (!change.filename.isEmpty && (change.created || change.renamed)) = true := by
          rw [takes_effect, hdeleted, Bool.false_or, Bool.and_eq_true, Bool.or_eq_true, Bool.and_eq_true] at heffect
          rw [Bool.and_eq_true, Bool.or_eq_true]
          exact ⟨heffect.1, heffect.2.imp_right And.left⟩
        rw [Bool.and_assoc, hwrites, if_pos (by simp), hstep, hc, Option.elim_some, hcolumns]
      | false =>
        have hsame := hstep.trans (rewrite_of_no_effect heffect _)
        rw [hsame]
        split_ifs with hcond
        · -- a rename of a number without a slot
          have hnone : cells change.frs = none := by
            rw [takes_effect, hdeleted, Bool.false_or] at heffect
            simp only [decide_true, Bool.not_false, Bool.and_self, Bool.true_and, Bool.and_eq_true] at hcond
            rw [hcond.1, Bool.true_and, Bool.or_eq_false_iff] at heffect
            rw [heffect.1, Bool.false_or] at hcond
            simpa [hcond.2, labels_of] using heffect.2
          exact hunmapped _ _ (hsame.trans hnone)
        · rfl
  · rw [replay_step, if_neg (Ne.symm hf)]
    simp only [hf, decide_false, Bool.false_and, Bool.false_eq_true, if_false]

/-- The last change that takes effect decides what is seen, and the metadata is what was carried. -/
theorem replay_of_effect {last : FileChange} (h : last_effect (labels_of cells) changes f = some (last, parent)) :
    (last.deleted = true → replay cells changes f = none) ∧
      (last.deleted = false → ∃ c, replay cells changes f = some c ∧ c.seen = some (stored_name last.filename, parent) ∧
        c.columns = carried changes f ((cells f).elim {} Cell.columns)) := by
  induction changes generalizing cells with
  | nil => cases h
  | cons change rest ih =>
    have hrun : replay cells (change :: rest) f = replay (replay_step cells change) rest f := rfl
    rw [last_effect, ← labels_of_replay_step] at h
    rw [hrun]
    cases hrest : last_effect (labels_of (replay_step cells change)) rest f with
    | some effect =>
      rw [hrest, Option.some_or] at h
      cases h
      obtain ⟨hgone, hwritten⟩ := ih hrest
      refine ⟨hgone, ?_⟩
      intro hlast
      obtain ⟨c, hc, hseen, hcolumns⟩ := hwritten hlast
      exact ⟨c, hc, hseen, hcolumns.trans (carried_step hrest hlast)⟩
    | none =>
      rw [hrest, Option.none_or] at h
      split_ifs at h with hthis
      cases h
      rw [Bool.and_eq_true, decide_eq_true_eq] at hthis
      obtain ⟨rfl, heffect⟩ := hthis
      rw [replay_of_no_effect hrest, replay_step, if_pos rfl]
      constructor
      · intro hdeleted
        rw [rewrite, if_pos hdeleted]
      · intro hdeleted
        obtain ⟨c, hc, hseen, hcolumns⟩ := rewrite_of_effect heffect hdeleted ((cells last.parent_frs).map Cell.frs)
        have hmapped : (labels_of (replay_step cells last) last.frs).isSome = true := by
          rw [labels_of, replay_step, if_pos rfl, hc]
          rfl
        have hwrites : (!last.filename.isEmpty && (last.created || last.renamed)) = true := by
          rw [takes_effect, hdeleted, Bool.false_or, Bool.and_eq_true, Bool.or_eq_true, Bool.and_eq_true] at heffect
          rw [Bool.and_eq_true, Bool.or_eq_true]
          exact ⟨heffect.1, heffect.2.imp_right And.left⟩
        refine ⟨c, hc, hseen, hcolumns.trans ?_⟩
        rw [carried_cons, Bool.and_assoc, hwrites, hdeleted, if_pos (by simp), carried_of_no_effect hmapped hrest]

end uffs.usn
