import Uffs.Usn.Patch

open uffs.lib uffs.mft uffs.text uffs.bloom uffs.compact

namespace uffs.usn

/-- What the mutation loop never touches: the tables, the overlay, the filters. -/
structure SameTables (before after : DriveCompactIndex) : Prop where
  letter : after.letter = before.letter
  trigram : after.trigram = before.trigram
  children : after.children = before.children
  ext_index : after.ext_index = before.ext_index
  fold : after.fold = before.fold
  source_epoch : after.source_epoch = before.source_epoch
  bloom : after.bloom = before.bloom
  path_trie : after.path_trie = before.path_trie
  delta : after.delta = before.delta

theorem SameTables.refl (drive : DriveCompactIndex) : SameTables drive drive :=
  ⟨rfl, rfl, rfl, rfl, rfl, rfl, rfl, rfl, rfl⟩

theorem SameTables.trans {a b c : DriveCompactIndex} (hab : SameTables a b) (hbc : SameTables b c) :
    SameTables a c :=
  ⟨hbc.letter.trans hab.letter, hbc.trigram.trans hab.trigram, hbc.children.trans hab.children,
    hbc.ext_index.trans hab.ext_index, hbc.fold.trans hab.fold, hbc.source_epoch.trans hab.source_epoch,
    hbc.bloom.trans hab.bloom, hbc.path_trie.trans hab.path_trie, hbc.delta.trans hab.delta⟩

/-- A row that a create or a rename writes: named by its own bytes at the end of the blob. -/
structure Fresh (change : FileChange) (drive drive' : DriveCompactIndex) (rec : CompactRecord) : Prop where
  names : drive'.names = drive.names ++ as_bytes change.filename
  live : rec.Live
  inRange : rec.InRange drive'.names
  parent : rec.parent_idx = slot_of drive change.parent_frs
  name_offset : rec.name_offset = len_to_u32 drive.names.length
  name_len : rec.name_len = len_to_u16 (as_bytes change.filename).length

/-- Everything one change can do to the loop state. -/
inductive Effect (change : FileChange) (before after : Patch) : Prop where
  /-- A skipped change, or one whose slot is out of range. -/
  | idle (hrecords : after.drive.records = before.drive.records)
      (hmap : after.drive.frs_to_compact = before.drive.frs_to_compact)
      (hpath : after.path_changes = before.path_changes)
      (htombstones : after.tombstones = before.tombstones)
      (hdeleted : change.deleted = true → ∀ rec,
        before.drive.records[(slot_of before.drive change.frs).toNat]? = some rec →
          slot_of before.drive change.frs = NO_ENTRY)
  /-- The slot loses its name and its parent, the record number its slot. -/
  | deleted (rec : CompactRecord) (hkind : change.deleted = true)
      (hslot : slot_of before.drive change.frs ≠ NO_ENTRY)
      (hget : before.drive.records[(slot_of before.drive change.frs).toNat]? = some rec)
      (hrecords : after.drive.records = before.drive.records.set (slot_of before.drive change.frs).toNat
        { rec with name_len := 0, parent_idx := NO_ENTRY })
      (hmap : after.drive.frs_to_compact =
        before.drive.frs_to_compact.set (frs_to_usize change.frs) NO_ENTRY)
      (hpath : after.path_changes = before.path_changes)
      (htombstones : after.tombstones = before.tombstones ++ [slot_of before.drive change.frs])
      (hnames : after.drive.names = before.drive.names)
  /-- A record number without a slot gets a new one at the end. -/
  | appended (rec : CompactRecord) (hkind : change.deleted = false)
      (hslot : slot_of before.drive change.frs = NO_ENTRY)
      (hfresh : Fresh change before.drive after.drive rec)
      (hfile : rec.file_ref = pack_file_reference change.frs 0)
      (hrecords : after.drive.records = before.drive.records ++ [rec])
      (hmap : after.drive.frs_to_compact =
        map_frs before.drive.frs_to_compact change.frs (len_to_u32 before.drive.records.length))
      (hpath : after.path_changes =
        before.path_changes ++ [{ idx := len_to_u32 before.drive.records.length, subtree := false }])
      (htombstones : after.tombstones = before.tombstones)
  /-- The mapped slot is rewritten in place; its file reference stays. -/
  | rewritten (rec rec' : CompactRecord) (subtree : Bool) (hkind : change.deleted = false)
      (hslot : slot_of before.drive change.frs ≠ NO_ENTRY)
      (hget : before.drive.records[(slot_of before.drive change.frs).toNat]? = some rec)
      (hfresh : Fresh change before.drive after.drive rec')
      (hfile : rec'.file_ref = rec.file_ref)
      (hcreate : change.created = true → subtree = false ∧ rec'.path_len = 0)
      (hrename : change.created = false → subtree = rec'.is_directory ∧ rec'.path_len = rec.path_len)
      (hrecords : after.drive.records =
        before.drive.records.set (slot_of before.drive change.frs).toNat rec')
      (hmap : after.drive.frs_to_compact = before.drive.frs_to_compact)
      (hpath : after.path_changes =
        before.path_changes ++ [{ idx := slot_of before.drive change.frs, subtree := subtree }])
      (htombstones : after.tombstones = before.tombstones ++ [slot_of before.drive change.frs])

theorem intern_extension_frame (env : Env) (drive : DriveCompactIndex) (filename : Str) :
    SameTables drive (drive.intern_extension env filename).1 ∧
      (drive.intern_extension env filename).1.records = drive.records ∧
      (drive.intern_extension env filename).1.names = drive.names ∧
      (drive.intern_extension env filename).1.frs_to_compact = drive.frs_to_compact := by
  unfold DriveCompactIndex.intern_extension
  split
  · exact ⟨SameTables.refl drive, rfl, rfl, rfl⟩
  · split
    · exact ⟨SameTables.refl drive, rfl, rfl, rfl⟩
    · split
      · exact ⟨⟨rfl, rfl, rfl, rfl, rfl, rfl, rfl, rfl, rfl⟩, rfl, rfl, rfl⟩
      · exact ⟨SameTables.refl drive, rfl, rfl, rfl⟩

/-- Staging appends the name and nothing else that a row can see. -/
structure Staged (env : Env) (drive : DriveCompactIndex) (change : FileChange) : Prop where
  tables : SameTables drive (stage_create env drive change).1
  records : (stage_create env drive change).1.records = drive.records
  names : (stage_create env drive change).1.names = drive.names ++ as_bytes change.filename
  map : (stage_create env drive change).1.frs_to_compact = drive.frs_to_compact
  parent : (stage_create env drive change).2.parent_idx = slot_of drive change.parent_frs
  name_offset : (stage_create env drive change).2.name_offset = len_to_u32 drive.names.length
  name_len : (stage_create env drive change).2.name_len = len_to_u16 (as_bytes change.filename).length

theorem stage_create_staged (env : Env) (drive : DriveCompactIndex) (change : FileChange) :
    Staged env drive change := by
  obtain ⟨htables, hrecords, hnames, hmap⟩ := intern_extension_frame env drive change.filename
  refine ⟨?_, hrecords, ?_, hmap, ?_, ?_, rfl⟩
  · exact htables.trans ⟨rfl, rfl, rfl, rfl, rfl, rfl, rfl, rfl, rfl⟩
  · simp only [stage_create, append_name, hnames]
  · simp only [stage_create, slot_of, hmap]
  · simp only [stage_create, hnames]

variable {change : FileChange}

/-- A row that carries the staged name is live and in range. -/
theorem Staged.fresh {env : Env} {drive drive' : DriveCompactIndex} {rec : CompactRecord} (hstaged : Staged env drive change)
    (hname : change.filename ≠ []) (hnames : drive'.names = (stage_create env drive change).1.names)
    (hparent : rec.parent_idx = (stage_create env drive change).2.parent_idx)
    (hoffset : rec.name_offset = (stage_create env drive change).2.name_offset)
    (hlen : rec.name_len = (stage_create env drive change).2.name_len) : Fresh change drive drive' rec := by
  have hnamesEq := hnames.trans hstaged.names
  have hoffsetEq := hoffset.trans hstaged.name_offset
  have hlenEq := hlen.trans hstaged.name_len
  refine ⟨hnamesEq, ?_, ?_, hparent.trans hstaged.parent, hoffsetEq, hlenEq⟩
  · unfold CompactRecord.Live
    rw [hlenEq]
    apply len_to_u16_ne_zero
    simpa [as_bytes_eq_nil] using hname
  · unfold CompactRecord.InRange
    rw [hnamesEq, hoffsetEq, hlenEq, List.length_append, len_to_u16_toNat_eq_min]
    have hstart := len_to_u32_toNat_le drive.names.length
    omega

/-- The name of a fresh row reads back while the blob and the name fit their fields. -/
theorem Fresh.name_range {drive drive' : DriveCompactIndex} {rec : CompactRecord} (h : Fresh change drive drive' rec)
    (hblob : drive.names.length < UInt32.size) (hname : (as_bytes change.filename).length < UInt16.size) :
    rec.name_range drive'.names = some (as_bytes change.filename) := by
  unfold CompactRecord.name_range
  rw [h.names, h.name_offset, h.name_len, len_to_u32_toNat hblob, len_to_u16_toNat hname]
  exact slice?_append_right _ _

variable {patch : Patch}

theorem apply_delete_effect (hkind : change.deleted = true) :
    Effect change patch (apply_delete patch change.frs (slot_of patch.drive change.frs)) := by
  unfold apply_delete
  split
  next hslot => exact Effect.idle rfl rfl rfl rfl fun _ _ _ => hslot
  next hslot =>
    split
    next hget =>
      refine Effect.idle rfl rfl rfl rfl fun _ rec hsome => ?_
      rw [hget] at hsome
      cases hsome
    next rec hget => exact Effect.deleted rec hkind hslot hget rfl rfl rfl rfl rfl

theorem apply_create_effect {env : Env} (hkind : change.deleted = false) (hcreated : change.created = true) :
    Effect change patch (apply_create env patch change (slot_of patch.drive change.frs)) := by
  have hstaged := stage_create_staged env patch.drive change
  have hnot : ∀ {P : Prop}, change.deleted = true → P := fun h => by rw [hkind] at h; cases h
  unfold apply_create
  split
  next => exact Effect.idle rfl rfl rfl rfl fun h => hnot h
  next hname =>
    have hname' : change.filename ≠ [] := by simpa using hname
    dsimp only
    split
    next hslot =>
      rw [hstaged.records, hstaged.map]
      refine Effect.appended (new_record change.frs (stage_create env patch.drive change).2) hkind hslot ?_ rfl rfl
        rfl rfl rfl
      exact hstaged.fresh hname' rfl rfl rfl rfl
    next hslot =>
      split
      next => exact Effect.idle hstaged.records hstaged.map rfl rfl fun h => hnot h
      next rec hget =>
        rw [hstaged.records] at hget
        refine Effect.rewritten rec (overwrite_slot (stage_create env patch.drive change).2 rec) false hkind hslot
          hget ?_ rfl (fun _ => ⟨rfl, rfl⟩) (fun h => ?_) ?_ hstaged.map rfl rfl
        · exact hstaged.fresh hname' rfl rfl rfl rfl
        · rw [hcreated] at h
          cases h
        · simp only [hstaged.records]

/-- The drive after the create of a named file whose record number has no slot. -/
theorem apply_change_append_drive (env : Env) {change : FileChange} (hkind : change.deleted = false)
    (hcreated : change.created = true) (hname : change.filename ≠ [])
    (hslot : slot_of patch.drive change.frs = NO_ENTRY) :
    (apply_change env patch change).drive =
      { (stage_create env patch.drive change).1 with
        records := patch.drive.records ++ [new_record change.frs (stage_create env patch.drive change).2]
        frs_to_compact := map_frs (stage_create env patch.drive change).1.frs_to_compact change.frs
          (len_to_u32 (stage_create env patch.drive change).1.records.length) } := by
  have hstaged := stage_create_staged env patch.drive change
  have hempty : ¬ change.filename.isEmpty = true := by simpa using hname
  have hnotDeleted : ¬ change.deleted = true := by simp [hkind]
  rw [apply_change, if_neg hnotDeleted, if_pos hcreated, apply_create, if_neg hempty]
  dsimp only
  rw [if_pos hslot]
  simp only [hstaged.records]

/-- It has one more row. -/
theorem apply_change_append (env : Env) {change : FileChange} (hkind : change.deleted = false)
    (hcreated : change.created = true) (hname : change.filename ≠ [])
    (hslot : slot_of patch.drive change.frs = NO_ENTRY) :
    ∃ rec, Fresh change patch.drive (apply_change env patch change).drive rec ∧
      (apply_change env patch change).drive.records = patch.drive.records ++ [rec] := by
  have hdrive := apply_change_append_drive env hkind hcreated hname hslot
  refine ⟨new_record change.frs (stage_create env patch.drive change).2, ?_, by rw [hdrive]⟩
  rw [hdrive]
  exact (stage_create_staged env patch.drive change).fresh hname rfl rfl rfl rfl

theorem apply_md_frame (md : Option RecordMeta) (rec : CompactRecord) :
    (apply_md md rec).name_offset = rec.name_offset ∧ (apply_md md rec).name_len = rec.name_len ∧
      (apply_md md rec).parent_idx = rec.parent_idx ∧ (apply_md md rec).file_ref = rec.file_ref ∧
      (apply_md md rec).path_len = rec.path_len := by
  cases md with
  | none => exact ⟨rfl, rfl, rfl, rfl, rfl⟩
  | some m => exact ⟨rfl, rfl, rfl, rfl, rfl⟩

theorem apply_rename_effect {env : Env} (hkind : change.deleted = false) (hcreated : change.created = false) :
    Effect change patch (apply_rename env patch change (slot_of patch.drive change.frs)) := by
  have hstaged := stage_create_staged env patch.drive change
  have hnot : ∀ {P : Prop}, change.deleted = true → P := fun h => by rw [hkind] at h; cases h
  unfold apply_rename
  split
  next => exact Effect.idle rfl rfl rfl rfl fun h => hnot h
  next hguard =>
    have hslot : slot_of patch.drive change.frs ≠ NO_ENTRY := fun h => hguard (by simp [h])
    have hname : change.filename ≠ [] := fun h => hguard (by simp [h])
    dsimp only
    split
    next => exact Effect.idle hstaged.records hstaged.map rfl rfl fun h => hnot h
    next rec hget =>
      rw [hstaged.records] at hget
      obtain ⟨hoffset, hlen, hparent, hfile, hpath⟩ := apply_md_frame change.md
        { rec with
          name_offset := (stage_create env patch.drive change).2.name_offset
          name_len := (stage_create env patch.drive change).2.name_len
          extension_id := (stage_create env patch.drive change).2.extension_id
          name_first_byte := (stage_create env patch.drive change).2.name_first_byte
          parent_idx := (stage_create env patch.drive change).2.parent_idx }
      refine Effect.rewritten rec (renamed_record (stage_create env patch.drive change).2 change.md rec)
        (renamed_record (stage_create env patch.drive change).2 change.md rec).is_directory hkind hslot hget
        ?_ hfile (fun h => ?_) (fun _ => ⟨rfl, hpath⟩) ?_ hstaged.map rfl rfl
      · exact hstaged.fresh hname rfl hparent hoffset hlen
      · rw [hcreated] at h
        cases h
      · simp only [hstaged.records]

/-- One step of the mutation loop has one of the effects. -/
theorem apply_change_effect (env : Env) (patch : Patch) (change : FileChange) :
    Effect change patch (apply_change env patch change) := by
  unfold apply_change
  cases hdeleted : change.deleted with
  | true => exact apply_delete_effect hdeleted
  | false =>
    simp only [Bool.false_eq_true, if_false]
    cases hcreated : change.created with
    | true => exact apply_create_effect hdeleted hcreated
    | false =>
      simp only [Bool.false_eq_true, if_false]
      split
      · exact apply_rename_effect hdeleted hcreated
      · refine Effect.idle rfl rfl rfl rfl fun h => ?_
        rw [hdeleted] at h
        cases h

/-- No change touches the tables, and names are only appended. -/
theorem apply_change_frame (env : Env) (patch : Patch) (change : FileChange) :
    SameTables patch.drive (apply_change env patch change).drive ∧
      ∃ tail, (apply_change env patch change).drive.names = patch.drive.names ++ tail := by
  have hstaged := stage_create_staged env patch.drive change
  have hsame : ∀ (drive : DriveCompactIndex), drive = patch.drive →
      SameTables patch.drive drive ∧ ∃ tail, drive.names = patch.drive.names ++ tail :=
    fun drive h => h ▸ ⟨SameTables.refl _, [], (List.append_nil _).symm⟩
  unfold apply_change
  dsimp only
  split
  · unfold apply_delete
    split
    · exact hsame _ rfl
    · split
      · exact hsame _ rfl
      · exact ⟨⟨rfl, rfl, rfl, rfl, rfl, rfl, rfl, rfl, rfl⟩, [], (List.append_nil _).symm⟩
  · split
    · unfold apply_create
      split
      · exact hsame _ rfl
      · dsimp only
        split
        · exact ⟨hstaged.tables.trans ⟨rfl, rfl, rfl, rfl, rfl, rfl, rfl, rfl, rfl⟩, _, hstaged.names⟩
        · split
          · exact ⟨hstaged.tables, _, hstaged.names⟩
          · exact ⟨hstaged.tables.trans ⟨rfl, rfl, rfl, rfl, rfl, rfl, rfl, rfl, rfl⟩, _, hstaged.names⟩
    · split
      · unfold apply_rename
        split
        · exact hsame _ rfl
        · dsimp only
          split
          · exact ⟨hstaged.tables, _, hstaged.names⟩
          · exact ⟨hstaged.tables.trans ⟨rfl, rfl, rfl, rfl, rfl, rfl, rfl, rfl, rfl⟩, _, hstaged.names⟩
      · exact hsame _ rfl

end uffs.usn
