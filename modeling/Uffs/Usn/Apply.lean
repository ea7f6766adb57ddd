import Uffs.Compact.PathLen

open uffs.mft uffs.text uffs.bloom uffs.compact

namespace uffs.usn

/-- Metadata backfilled by a targeted MFT read. -/
structure RecordMeta where
  size : UInt64 := 0
  allocated : UInt64 := 0
  created : Int64 := 0
  modified : Int64 := 0
  accessed : Int64 := 0
  flags : UInt32 := 0
deriving DecidableEq, Inhabited

/-- Net change of one file in a journal batch. -/
structure FileChange where
  frs : UInt64
  parent_frs : UInt64
  filename : Str
  created : Bool := false
  deleted : Bool := false
  renamed : Bool := false
  size_changed : Bool := false
  metadata_changed : Bool := false
  md : Option RecordMeta := none
deriving DecidableEq

structure PatchStats where
  deleted : Nat := 0
  created : Nat := 0
  renamed : Nat := 0
  skipped : Nat := 0
deriving DecidableEq

/-- State of the mutation loop: the drive, the counters and the two change sets. -/
structure Patch where
  drive : DriveCompactIndex
  stats : PatchStats := {}
  path_changes : List PathChange := []
  tombstones : List UInt32 := []

/-- Slot of a record number, `NO_ENTRY` when it is not mapped. -/
def slot_of (drive : DriveCompactIndex) (frs : UInt64) : UInt32 :=
  drive.frs_to_compact[frs_to_usize frs]?.getD NO_ENTRY

structure StagedCreate where
  name_offset : UInt32
  name_len : UInt16
  name_first_byte : UInt8
  extension_id : UInt16
  parent_idx : UInt32
  md : RecordMeta

/-- Append a file name to the names blob. -/
def append_name (drive : DriveCompactIndex) (filename : Str) : DriveCompactIndex :=
  { drive with names := drive.names ++ as_bytes filename }

/-- Intern the extension, append the name, resolve the parent. -/
def stage_create (env : Env) (drive : DriveCompactIndex) (change : FileChange) : DriveCompactIndex × StagedCreate :=
  let (interned, extension_id) := drive.intern_extension env change.filename
  (append_name interned change.filename,
    { name_offset := len_to_u32 interned.names.length
      name_len := len_to_u16 (as_bytes change.filename).length
      name_first_byte := (as_bytes change.filename).head?.getD 0
      extension_id := extension_id
      parent_idx := slot_of interned change.parent_frs
      md := change.md.getD {} })

/-- A reused slot takes the new file's identity; its file reference stays. -/
def overwrite_slot (staged : StagedCreate) (rec : CompactRecord) : CompactRecord :=
  { rec with
    name_offset := staged.name_offset
    name_len := staged.name_len
    name_first_byte := staged.name_first_byte
    extension_id := staged.extension_id
    parent_idx := staged.parent_idx
    size := staged.md.size
    allocated := staged.md.allocated
    created := staged.md.created
    modified := staged.md.modified
    accessed := staged.md.accessed
    flags := staged.md.flags
    treesize := 0
    tree_allocated := 0
    descendants := 0
    path_len := 0 }

/-- The record appended for a file that has no slot yet. -/
def new_record (frs : UInt64) (staged : StagedCreate) : CompactRecord where
  size := staged.md.size
  allocated := staged.md.allocated
  created := staged.md.created
  modified := staged.md.modified
  accessed := staged.md.accessed
  file_ref := pack_file_reference frs 0
  name_offset := staged.name_offset
  flags := staged.md.flags
  parent_idx := staged.parent_idx
  name_len := staged.name_len
  extension_id := staged.extension_id
  name_first_byte := staged.name_first_byte

/-- `resize(needed, u32::MAX)` when the map is too short for `frs`, then store. -/
def map_frs (frs_to_compact : List UInt32) (frs : UInt64) (slot : UInt32) : List UInt32 :=
  let f := frs_to_usize frs
  (frs_to_compact ++ List.replicate (f + 1 - frs_to_compact.length) NO_ENTRY).set f slot

def skip (patch : Patch) : Patch :=
  { patch with stats := { patch.stats with skipped := patch.stats.skipped + 1 } }

def apply_delete (patch : Patch) (frs : UInt64) (compact_idx : UInt32) : Patch :=
  if compact_idx = NO_ENTRY then skip patch
  else
    match patch.drive.records[compact_idx.toNat]? with
    | none => patch
    | some rec =>
      { drive := { patch.drive with
          records := patch.drive.records.set compact_idx.toNat { rec with name_len := 0, parent_idx := NO_ENTRY }
          frs_to_compact := patch.drive.frs_to_compact.set (frs_to_usize frs) NO_ENTRY }
        stats := { patch.stats with deleted := patch.stats.deleted + 1 }
        path_changes := patch.path_changes
        tombstones := patch.tombstones ++ [compact_idx] }

def apply_create (env : Env) (patch : Patch) (change : FileChange) (compact_idx : UInt32) : Patch :=
  if change.filename.isEmpty then skip patch
  else
    let (drive, staged) := stage_create env patch.drive change
    if compact_idx = NO_ENTRY then
      let new_compact_idx := len_to_u32 drive.records.length
      { drive := { drive with
          records := drive.records ++ [new_record change.frs staged]
          frs_to_compact := map_frs drive.frs_to_compact change.frs new_compact_idx }
        stats := { patch.stats with created := patch.stats.created + 1 }
        path_changes := patch.path_changes ++ [{ idx := new_compact_idx, subtree := false }]
        tombstones := patch.tombstones }
    else
      match drive.records[compact_idx.toNat]? with
      | none => { patch with drive := drive }
      | some rec =>
        { drive := { drive with records := drive.records.set compact_idx.toNat (overwrite_slot staged rec) }
          stats := { patch.stats with created := patch.stats.created + 1 }
          path_changes := patch.path_changes ++ [{ idx := compact_idx, subtree := false }]
          tombstones := patch.tombstones ++ [compact_idx] }

/-- Backfilled metadata replaces the stored one; a USN-only rename keeps it. -/
def apply_md (md : Option RecordMeta) (rec : CompactRecord) : CompactRecord :=
  match md with
  | none => rec
  | some m =>
    { rec with
      size := m.size
      allocated := m.allocated
      created := m.created
      modified := m.modified
      accessed := m.accessed
      flags := m.flags }

/-- The row a rename leaves in the slot. -/
def renamed_record (staged : StagedCreate) (md : Option RecordMeta) (rec : CompactRecord) : CompactRecord :=
  apply_md md { rec with
    name_offset := staged.name_offset
    name_len := staged.name_len
    extension_id := staged.extension_id
    name_first_byte := staged.name_first_byte
    parent_idx := staged.parent_idx }

def apply_rename (env : Env) (patch : Patch) (change : FileChange) (compact_idx : UInt32) : Patch :=
  if compact_idx = NO_ENTRY || change.filename.isEmpty then skip patch
  else
    let (drive, staged) := stage_create env patch.drive change
    match drive.records[compact_idx.toNat]? with
    | none => { patch with drive := drive }
    | some rec =>
      let renamed := renamed_record staged change.md rec
      { drive := { drive with records := drive.records.set compact_idx.toNat renamed }
        stats := { patch.stats with renamed := patch.stats.renamed + 1 }
        path_changes := patch.path_changes ++ [{ idx := compact_idx, subtree := renamed.is_directory }]
        tombstones := patch.tombstones ++ [compact_idx] }

/-- One change: delete before create before rename. -/
def apply_change (env : Env) (patch : Patch) (change : FileChange) : Patch :=
  let compact_idx := slot_of patch.drive change.frs
  if change.deleted then apply_delete patch change.frs compact_idx
  else if change.created then apply_create env patch change compact_idx
  else if change.renamed then apply_rename env patch change compact_idx
  else skip patch

end uffs.usn
