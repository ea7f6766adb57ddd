import Uffs.Usn.Apply

open uffs.text

namespace uffs.usn

/-- A record of the change journal, as far as the aggregation reads it. -/
structure UsnRecord where
  frs : UInt64
  parent_frs : UInt64
  reason : UInt32
  filename : Str
deriving DecidableEq

namespace reason

def DATA_EXTEND : UInt32 := 0x00000002

def DATA_TRUNCATION : UInt32 := 0x00000004

def FILE_CREATE : UInt32 := 0x00000100

def FILE_DELETE : UInt32 := 0x00000200

def RENAME_NEW_NAME : UInt32 := 0x00002000

def BASIC_INFO_CHANGE : UInt32 := 0x00008000

def HARD_LINK_CHANGE : UInt32 := 0x00010000

end reason

inductive ChangeType where
  | Created
  | Deleted
  | Renamed
  | SizeChanged
  | MetadataChanged
  | Other
deriving DecidableEq

def UsnRecord.change_type (self : UsnRecord) : ChangeType :=
  if self.reason &&& reason.FILE_DELETE ≠ 0 then ChangeType.Deleted
  else if self.reason &&& reason.FILE_CREATE ≠ 0 then ChangeType.Created
  else if self.reason &&& reason.RENAME_NEW_NAME ≠ 0 then ChangeType.Renamed
  else if self.reason &&& (reason.DATA_EXTEND ||| reason.DATA_TRUNCATION) ≠ 0 then ChangeType.SizeChanged
  else if self.reason &&& reason.BASIC_INFO_CHANGE ≠ 0 then ChangeType.MetadataChanged
  else ChangeType.Other

/-- The net flags of a file after one more event. -/
@[grind] def note_event (entry : FileChange) : ChangeType → FileChange
  | .Created => { entry with created := true, deleted := false, renamed := false }
  | .Deleted => { entry with deleted := true, created := false, renamed := false }
  | .Renamed => { entry with renamed := true, deleted := false }
  | .SizeChanged => { entry with size_changed := true }
  | .MetadataChanged => { entry with metadata_changed := true }
  | .Other => entry

/-- One record into its file's entry: the parent always, the name unless it is empty. -/
@[grind] def note_record (entry : FileChange) (record : UsnRecord) : FileChange :=
  note_event { entry with
    parent_frs := record.parent_frs
    filename := if record.filename.isEmpty then entry.filename else record.filename } record.change_type

/-- `FileChange { frs, ..Default::default() }`. -/
def empty_change (frs : UInt64) : FileChange := { frs := frs, parent_frs := 0, filename := [] }

/-- `changes.entry(frs).or_insert_with(..)` and the update of the entry. The map is a list of
changes with distinct record numbers; its iteration order is any permutation of it. -/
@[grind] def note_change (changes : List FileChange) (record : UsnRecord) : List FileChange :=
  match changes with
  | [] => [note_record (empty_change record.frs) record]
  | change :: rest =>
    if change.frs = record.frs then note_record change record :: rest else change :: note_change rest record

def aggregate_changes (records : List UsnRecord) : List FileChange := records.foldl note_change []

/-- The change of a record number in a batch. -/
def change_of (changes : List FileChange) (frs : UInt64) : Option FileChange := changes.find? (·.frs == frs)

section

variable (entry : FileChange) (record : UsnRecord)

include entry record

@[simp] theorem note_record_frs : (note_record entry record).frs = entry.frs := by
  rw [note_record]
  cases record.change_type <;> rfl

@[simp] theorem note_record_md : (note_record entry record).md = entry.md := by
  rw [note_record]
  cases record.change_type <;> rfl

@[simp] theorem note_record_parent_frs : (note_record entry record).parent_frs = record.parent_frs := by
  rw [note_record]
  cases record.change_type <;> rfl

@[simp] theorem note_record_filename :
    (note_record entry record).filename = if record.filename.isEmpty then entry.filename else record.filename := by
  rw [note_record]
  cases record.change_type <;> rfl

end

theorem change_of_note_change (changes : List FileChange) (record : UsnRecord) (frs : UInt64) :
    change_of (note_change changes record) frs =
      if frs = record.frs then some (note_record ((change_of changes frs).getD (empty_change frs)) record)
      else change_of changes frs := by
  induction changes with
  | nil =>
    by_cases hfrs : frs = record.frs
    · simp [note_change, change_of, hfrs, empty_change]
    · have hne : ¬ record.frs = frs := fun h => hfrs h.symm
      simp [note_change, change_of, hfrs, hne, empty_change]
  | cons change rest ih =>
    rw [note_change]
    by_cases hhead : change.frs = record.frs
    · rw [if_pos hhead]
      by_cases hfrs : frs = record.frs
      · simp [change_of, hfrs, hhead]
      · have hne : ¬ change.frs = frs := fun h => hfrs (h.symm.trans hhead)
        simp [change_of, hfrs, hne]
    · rw [if_neg hhead]
      by_cases hchange : change.frs = frs
      · have hne : ¬ frs = record.frs := fun h => hhead (hchange.trans h)
        simp [change_of, hchange, hne]
      · have hskip : ∀ list : List FileChange, change_of (change :: list) frs = change_of list frs := by
          intro list
          simp [change_of, hchange]
        rw [hskip, hskip, ih]

/-- The net change of one file over a stretch of the journal. -/
@[grind] def net_change (records : List UsnRecord) (frs : UInt64) : Option FileChange :=
  records.foldl (fun entry record => if frs = record.frs then some (note_record (entry.getD (empty_change frs)) record) else entry) none

/-- Every file is aggregated by itself. -/
theorem change_of_aggregate_changes (records : List UsnRecord) (frs : UInt64) :
    change_of (aggregate_changes records) frs = net_change records frs := by
  have hrun : ∀ changes, change_of (records.foldl note_change changes) frs = records.foldl
      (fun entry record => if frs = record.frs then some (note_record (entry.getD (empty_change frs)) record) else entry)
      (change_of changes frs) := by
    induction records with
    | nil => exact fun changes => rfl
    | cons record records ih =>
      intro changes
      rw [List.foldl_cons, List.foldl_cons, ih, change_of_note_change]
  exact hrun []

theorem note_change_frs (changes : List FileChange) (record : UsnRecord) {frs : UInt64} :
    frs ∈ (note_change changes record).map FileChange.frs ↔ frs = record.frs ∨ frs ∈ changes.map FileChange.frs := by
  induction changes with
  | nil => simp [note_change, empty_change]
  | cons change rest ih =>
    rw [note_change]
    split_ifs with hhead
    · simp only [List.map_cons, List.mem_cons, note_record_frs, hhead]
      tauto
    · simp only [List.map_cons, List.mem_cons, ih]
      tauto

theorem note_change_nodup {changes : List FileChange} (h : (changes.map FileChange.frs).Nodup) (record : UsnRecord) :
    ((note_change changes record).map FileChange.frs).Nodup := by
  induction changes with
  | nil => simp [note_change]
  | cons change rest ih =>
    rw [List.map_cons, List.nodup_cons] at h
    rw [note_change]
    split_ifs with hhead
    · rw [List.map_cons, note_record_frs, List.nodup_cons]
      exact h
    · rw [List.map_cons, List.nodup_cons, note_change_frs]
      exact ⟨by simp [hhead, h.1], ih h.2⟩

/-- A batch has at most one change for each file. -/
theorem aggregate_changes_nodup (records : List UsnRecord) : ((aggregate_changes records).map FileChange.frs).Nodup := by
  have hrun : ∀ changes : List FileChange, (changes.map FileChange.frs).Nodup →
      ((records.foldl note_change changes).map FileChange.frs).Nodup := by
    induction records with
    | nil => exact fun changes h => h
    | cons record records ih =>
      intro changes h
      exact ih _ (note_change_nodup h record)
  exact hrun [] List.nodup_nil

theorem change_of_eq_some {changes : List FileChange} (hnodup : (changes.map FileChange.frs).Nodup) {frs : UInt64}
    {change : FileChange} : change_of changes frs = some change ↔ change ∈ changes ∧ change.frs = frs := by
  constructor
  · intro h
    exact ⟨List.mem_of_find?_eq_some h, by simpa using List.find?_some h⟩
  · rintro ⟨hmem, rfl⟩
    cases hfind : change_of changes change.frs with
    | none =>
      have := List.find?_eq_none.mp hfind change hmem
      simp at this
    | some other =>
      have hother : other.frs = change.frs := by simpa using List.find?_some hfind
      rw [List.inj_on_of_nodup_map hnodup (List.mem_of_find?_eq_some hfind) hmem hother]

/-- Lookups do not depend on the iteration order of the map. -/
theorem change_of_perm {changes batch : List FileChange} (hperm : batch.Perm changes)
    (hnodup : (changes.map FileChange.frs).Nodup) (frs : UInt64) : change_of batch frs = change_of changes frs := by
  have hnodup' : (batch.map FileChange.frs).Nodup := (hperm.map _).nodup_iff.mpr hnodup
  apply Option.ext
  intro change
  rw [change_of_eq_some hnodup', change_of_eq_some hnodup, hperm.mem_iff]

/-- A batch read off a stretch of the journal, in some iteration order of the map. -/
def BatchOf (records : List UsnRecord) (batch : List FileChange) : Prop := batch.Perm (aggregate_changes records)

theorem BatchOf.nodup {records : List UsnRecord} {batch : List FileChange} (h : BatchOf records batch) :
    (batch.map FileChange.frs).Nodup :=
  (h.map _).nodup_iff.mpr (aggregate_changes_nodup records)

theorem BatchOf.change_of_eq {records : List UsnRecord} {batch : List FileChange} (h : BatchOf records batch) (frs : UInt64) :
    change_of batch frs = net_change records frs :=
  (change_of_perm h (aggregate_changes_nodup records) frs).trans (change_of_aggregate_changes records frs)

end uffs.usn
