import Uffs.Usn.FrsMap
import Uffs.Usn.Journal
import Uffs.Usn.OverlayRun

open uffs.lib uffs.mft uffs.text uffs.bloom uffs.compact

namespace uffs.usn

/-- Name and parent record number of a row, as a reader of the index sees them. -/
abbrev Seen := List UInt8 × Option UInt64

/-- The record number in the parent slot of a row. -/
def parent_frs_of (records : List CompactRecord) (row : CompactRecord) : Option UInt64 :=
  if row.parent_idx = NO_ENTRY then none else records[row.parent_idx.toNat]?.map CompactRecord.frs

def seen (drive : DriveCompactIndex) (row : CompactRecord) : Seen :=
  (row.name_bytes drive.names, parent_frs_of drive.records row)

/-- What the slot of a record number shows: `none` without a slot, `some none` with a nameless one. -/
def look (drive : DriveCompactIndex) (frs : UInt64) : Option (Option Seen) :=
  if slot_of drive frs = NO_ENTRY then none
  else some (drive.records[(slot_of drive frs).toNat]?.bind fun row => if row.name_len = 0 then none else some (seen drive row))

/-- The live view: name and parent of a record number, `none` when it is absent. -/
def view (drive : DriveCompactIndex) (frs : UInt64) : Option Seen := (look drive frs).join

/-- A name as far as its 16-bit length field keeps it. -/
def stored_name (filename : Str) : List UInt8 := (as_bytes filename).take 65535

/-- What one change does to the slot of its record number, given what its parent resolves to. -/
def settle (change : FileChange) (parent : Option UInt64) (entry : Option (Option Seen)) : Option (Option Seen) :=
  if change.deleted then none
  else if change.filename = [] then entry
  else if change.created then some (some (stored_name change.filename, parent))
  else if change.renamed then entry.map fun _ => some (stored_name change.filename, parent)
  else entry

/-- What a record number resolves to as a parent. -/
def resolved (drive : DriveCompactIndex) (frs : UInt64) : Option UInt64 :=
  if slot_of drive frs = NO_ENTRY then none else some frs

/-- What the view rests on: slots exist and are not shared, names lie in the blob, and the record
numbers in `touched` own their slots. -/
structure Sighted (touched : UInt64 → Prop) (drive : DriveCompactIndex) : Prop where
  linked : Linked drive.records drive.frs_to_compact
  distinct : ∀ f g, slot_of drive f ≠ NO_ENTRY → slot_of drive f = slot_of drive g → f = g
  fits : ∀ row ∈ drive.records, RowFits drive.names row
  owned : ∀ f, touched f → slot_of drive f ≠ NO_ENTRY →
    ∃ row, drive.records[(slot_of drive f).toNat]? = some row ∧ row.frs = f

/-- The part of it that no record number has to own. -/
structure Placed (drive : DriveCompactIndex) : Prop where
  linked : Linked drive.records drive.frs_to_compact
  distinct : ∀ f g, slot_of drive f ≠ NO_ENTRY → slot_of drive f = slot_of drive g → f = g
  fits : ∀ row ∈ drive.records, RowFits drive.names row

variable {drive : DriveCompactIndex} {f : UInt64} {row : CompactRecord} {touched : UInt64 → Prop}

theorem Sighted.placed (h : Sighted touched drive) : Placed drive :=
  ⟨h.linked, h.distinct, h.fits⟩

theorem Placed.sighted (h : Placed drive) : Sighted (fun _ => False) drive :=
  ⟨h.linked, h.distinct, h.fits, nofun⟩

theorem Sighted.get (h : Sighted touched drive) (hf : slot_of drive f ≠ NO_ENTRY) :
    ∃ row, drive.records[(slot_of drive f).toNat]? = some row :=
  ⟨_, List.getElem?_eq_getElem ((h.linked.slot_of f).resolve_left hf)⟩

theorem look_eq_none_iff : look drive f = none ↔ slot_of drive f = NO_ENTRY := by
  rw [look]
  split_ifs with h
  · exact ⟨fun _ => h, fun _ => rfl⟩
  · exact ⟨nofun, fun h' => absurd h' h⟩

section

variable (hf : slot_of drive f ≠ NO_ENTRY) (hget : drive.records[(slot_of drive f).toNat]? = some row)

include hf hget

theorem look_of_get : look drive f = some (if row.name_len = 0 then none else some (seen drive row)) := by
  rw [look, if_neg hf, hget, Option.bind_some]

theorem look_of_live (hlive : row.Live) : look drive f = some (some (seen drive row)) := by
  rw [look_of_get hf hget, if_neg hlive]

end

/-- The parent slot of a touched record number carries it. -/
theorem Sighted.label (h : Sighted touched drive) (hf : touched f) :
    (if slot_of drive f = NO_ENTRY then none else drive.records[(slot_of drive f).toNat]?.map CompactRecord.frs) = resolved drive f := by
  rw [resolved]
  split_ifs with hslot
  · rfl
  · obtain ⟨row, hget, hfrs⟩ := h.owned f hf hslot
    rw [hget, Option.map_some, hfrs]

variable {patch : Patch} {change : FileChange} {changes : List FileChange}

/-- The name of a fresh row reads back up to the width of its length field. -/
theorem Fresh.name_bytes {drive drive' : DriveCompactIndex} (h : Fresh change drive drive' row)
    (hblob : drive.names.length < UInt32.size) : row.name_bytes drive'.names = stored_name change.filename := by
  rw [CompactRecord.name_bytes, CompactRecord.name_range, h.names, h.name_offset, h.name_len, len_to_u32_toNat hblob,
    len_to_u16_toNat_eq_min, stored_name]
  have hsplit := List.take_append_drop 65535 (as_bytes change.filename)
  have hlen : min (as_bytes change.filename).length 65535 = ((as_bytes change.filename).take 65535).length := by
    rw [List.length_take, Nat.min_comm]
  have hread := slice?_append_right drive.names ((as_bytes change.filename).take 65535)
  rw [hlen]
  nth_rewrite 1 [← hsplit]
  rw [← List.append_assoc, slice?_append (by rw [List.length_append]), hread, Option.getD_some]

/-- Rows keep their record numbers. -/
theorem Effect.frs_kept {before after : Patch} (heffect : Effect change before after) {i : Nat}
    (hget : before.drive.records[i]? = some row) : ∃ row', after.drive.records[i]? = some row' ∧ row'.frs = row.frs := by
  have hlt := (List.getElem?_eq_some_iff.mp hget).1
  have hset : ∀ (slot : Nat) (old new : CompactRecord), before.drive.records[slot]? = some old → new.file_ref = old.file_ref →
      after.drive.records = before.drive.records.set slot new → ∃ row', after.drive.records[i]? = some row' ∧ row'.frs = row.frs := by
    intro slot old new hold hfile hrecords
    rw [hrecords]
    by_cases heq : slot = i
    · subst heq
      cases hold.symm.trans hget
      exact ⟨new, List.getElem?_set_self hlt, by rw [CompactRecord.frs, CompactRecord.frs, hfile]⟩
    · exact ⟨row, by rw [List.getElem?_set_ne heq, hget], rfl⟩
  cases heffect with
  | idle hrecords => exact ⟨row, by rw [hrecords, hget], rfl⟩
  | deleted rec _ _ hrec hrecords => exact hset _ rec { rec with name_len := 0, parent_idx := NO_ENTRY } hrec rfl hrecords
  | appended rec _ _ _ _ hrecords => exact ⟨row, by rw [hrecords, List.getElem?_append_left hlt, hget], rfl⟩
  | rewritten rec rec' _ _ _ hrec _ hfile _ _ hrecords => exact hset _ rec rec' hrec hfile hrecords

/-- A new slot lies behind all mapped ones. -/
theorem Effect.distinct {before after : Patch} (heffect : Effect change before after)
    (hroom : after.drive.records.length < NO_ENTRY.toNat) (hlinked : Linked before.drive.records before.drive.frs_to_compact)
    (h : ∀ f g, slot_of before.drive f ≠ NO_ENTRY → slot_of before.drive f = slot_of before.drive g → f = g) :
    ∀ f g, slot_of after.drive f ≠ NO_ENTRY → slot_of after.drive f = slot_of after.drive g → f = g := by
  have hsize : UInt32.size = 4294967296 := rfl
  have hmax := NO_ENTRY_toNat
  intro f g hf heq
  cases heffect with
  | idle _ hmap =>
    rw [slot_of_of_map hmap] at hf heq
    rw [slot_of_of_map hmap] at heq
    exact h f g hf heq
  | deleted rec _ _ _ _ hmap =>
    rw [slot_of_unmap hmap] at hf heq
    rw [slot_of_unmap hmap] at heq
    split_ifs at hf heq with hfc hgc hgc
    · exact absurd rfl hf
    · exact absurd rfl hf
    · exact absurd heq hf
    · exact h f g hf heq
  | appended rec _ _ _ _ hrecords hmap =>
    rw [hrecords, List.length_append, List.length_singleton] at hroom
    have hnew := len_to_u32_toNat (show before.drive.records.length < UInt32.size by omega)
    have hbehind : ∀ f, slot_of before.drive f ≠ NO_ENTRY → slot_of before.drive f ≠ len_to_u32 before.drive.records.length := by
      intro f hf heq
      have hlt := (hlinked.slot_of f).resolve_left hf
      rw [heq, hnew] at hlt
      omega
    rw [slot_of_map_frs hmap] at hf heq
    rw [slot_of_map_frs hmap] at heq
    split_ifs at hf heq with hfc hgc hgc
    · rw [hfc, hgc]
    · exact absurd heq.symm (hbehind g (heq ▸ hf))
    · exact absurd heq (hbehind f hf)
    · exact h f g hf heq
  | rewritten _ _ _ _ _ _ _ _ _ _ _ hmap =>
    rw [slot_of_of_map hmap] at hf heq
    rw [slot_of_of_map hmap] at heq
    exact h f g hf heq

/-- A row that stays shows the same name and parent. -/
theorem seen_kept {env : Env}
    (hlinked : Linked patch.drive.records patch.drive.frs_to_compact) (hmem : row ∈ patch.drive.records)
    (hfits : RowFits patch.drive.names row) (hlive : row.Live) :
    seen (apply_change env patch change).drive row = seen patch.drive row := by
  obtain ⟨-, tail, hnames⟩ := apply_change_frame env patch change
  have hname : row.name_bytes (apply_change env patch change).drive.names = row.name_bytes patch.drive.names := by
    rw [CompactRecord.name_bytes, CompactRecord.name_bytes, hnames, CompactRecord.name_range_append (hfits hlive)]
  have hparent : parent_frs_of (apply_change env patch change).drive.records row = parent_frs_of patch.drive.records row := by
    rw [parent_frs_of, parent_frs_of]
    split_ifs with hroot
    · rfl
    · have hlt := (hlinked.parents row hmem).resolve_left hroot
      obtain ⟨row', hrow', hfrs⟩ := (apply_change_effect env patch change).frs_kept (List.getElem?_eq_getElem hlt)
      rw [hrow', List.getElem?_eq_getElem hlt, Option.map_some, Option.map_some, hfrs]
  rw [seen, seen, hname, hparent]

/-- The change writes a row: a named create, or a named rename of a mapped record number. -/
def Writes (drive : DriveCompactIndex) (change : FileChange) : Prop :=
  change.deleted = false ∧ change.filename ≠ [] ∧
    (change.created = true ∨ change.renamed = true ∧ slot_of drive change.frs ≠ NO_ENTRY)

theorem apply_change_skip (env : Env) (hkind : change.deleted = false)
    (h : ¬ Writes patch.drive change) : apply_change env patch change = skip patch := by
  have hempty : ∀ {name : Str}, name.isEmpty = true ↔ name = [] := List.isEmpty_iff
  rw [apply_change]
  simp only [hkind, Bool.false_eq_true, if_false]
  cases hcreated : change.created with
  | true =>
    have hname : change.filename = [] := by
      by_contra hne
      exact h ⟨hkind, hne, Or.inl hcreated⟩
    rw [if_pos rfl, apply_create, if_pos (hempty.mpr hname)]
  | false =>
    simp only [Bool.false_eq_true, if_false]
    split_ifs with hrenamed
    · rw [apply_rename, if_pos]
      by_contra hguard
      simp only [Bool.or_eq_true, decide_eq_true_eq, hempty, not_or] at hguard
      exact h ⟨hkind, hguard.2, Or.inr ⟨hrenamed, hguard.1⟩⟩
    · rfl

/-- A change that writes is not idle: its row is queued for the tables. -/
theorem apply_change_writes (env : Env) (h : Writes patch.drive change)
    (hget : slot_of patch.drive change.frs ≠ NO_ENTRY →
      ∃ row, patch.drive.records[(slot_of patch.drive change.frs).toNat]? = some row) :
    (apply_change env patch change).path_changes ≠ patch.path_changes := by
  obtain ⟨hkind, hname, hwrites⟩ := h
  have hempty : ¬ change.filename.isEmpty = true := by simpa using hname
  have hstaged := stage_create_staged env patch.drive change
  have hne : ∀ item : PathChange, patch.path_changes ++ [item] ≠ patch.path_changes := by
    intro item heq
    simpa using congrArg List.length heq
  rw [apply_change]
  simp only [hkind, Bool.false_eq_true, if_false]
  by_cases hslot : slot_of patch.drive change.frs = NO_ENTRY
  · have hcreated : change.created = true := by
      rcases hwrites with hcreated | ⟨-, hmapped⟩
      · exact hcreated
      · exact absurd hslot hmapped
    rw [if_pos hcreated, apply_create, if_neg hempty]
    dsimp only
    rw [if_pos hslot]
    exact hne _
  · obtain ⟨row, hrow⟩ := hget hslot
    rw [← hstaged.records] at hrow
    cases hcreated : change.created with
    | true =>
      rw [if_pos rfl, apply_create, if_neg hempty]
      dsimp only
      rw [if_neg hslot, hrow]
      exact hne _
    | false =>
      have hrenamed : change.renamed = true := by
        rcases hwrites with h' | h'
        · rw [hcreated] at h'
          cases h'
        · exact h'.1
      simp only [Bool.false_eq_true, if_false, hrenamed, if_true]
      rw [apply_rename, if_neg (by simp [hslot, hname])]
      dsimp only
      rw [hrow]
      exact hne _

theorem settle_of_not_writes (hkind : change.deleted = false) (h : ¬ Writes drive change)
    (parent : Option UInt64) : settle change parent (look drive change.frs) = look drive change.frs := by
  rw [settle]
  simp only [hkind, Bool.false_eq_true, if_false]
  split_ifs with hname hcreated hrenamed
  · rfl
  · exact absurd ⟨hkind, hname, Or.inl hcreated⟩ h
  · have hslot : slot_of drive change.frs = NO_ENTRY := by
      by_contra hslot
      exact h ⟨hkind, hname, Or.inr ⟨hrenamed, hslot⟩⟩
    rw [look_eq_none_iff.mpr hslot, Option.map_none]
  · rfl

theorem settle_of_writes (h : Writes drive change) (parent : Option UInt64) :
    settle change parent (look drive change.frs) = some (some (stored_name change.filename, parent)) := by
  obtain ⟨hkind, hname, hwrites⟩ := h
  rw [settle]
  simp only [hkind, hname, Bool.false_eq_true, if_false]
  split_ifs with hcreated hrenamed
  · rfl
  · obtain ⟨-, hslot⟩ := hwrites.resolve_left (by simp [hcreated])
    cases hlook : look drive change.frs with
    | none => exact absurd (look_eq_none_iff.mp hlook) hslot
    | some entry => rw [Option.map_some]
  · obtain ⟨hrenamed', -⟩ := hwrites.resolve_left (by simp [hcreated])
    exact absurd hrenamed' hrenamed

section Step

variable {env : Env}

/-- A change leaves the slots of the other record numbers as they are. -/
theorem Sighted.get_other (h : Sighted touched patch.drive) {f : UInt64} (hf : f ≠ change.frs)
    (hslot : slot_of patch.drive f ≠ NO_ENTRY) :
    (apply_change env patch change).drive.records[(slot_of patch.drive f).toNat]? =
      patch.drive.records[(slot_of patch.drive f).toNat]? := by
  have hlt := (h.linked.slot_of f).resolve_left hslot
  have hother : slot_of patch.drive change.frs ≠ NO_ENTRY → (slot_of patch.drive change.frs).toNat ≠ (slot_of patch.drive f).toNat :=
    fun _ heq => hf (h.distinct f change.frs hslot (UInt32.toNat.inj heq.symm))
  cases apply_change_effect env patch change with
  | idle hrecords => rw [hrecords]
  | deleted rec _ hmapped _ hrecords => rw [hrecords, List.getElem?_set_ne (hother hmapped)]
  | appended rec _ _ _ _ hrecords => rw [hrecords, List.getElem?_append_left hlt]
  | rewritten rec rec' _ _ hmapped _ _ _ _ _ hrecords => rw [hrecords, List.getElem?_set_ne (hother hmapped)]

/-- Their rows stay, and show what they showed. -/
theorem Sighted.row_other (h : Sighted touched patch.drive) {f : UInt64} (hf : f ≠ change.frs)
    (hmapped : slot_of patch.drive f ≠ NO_ENTRY) :
    ∃ row, patch.drive.records[(slot_of patch.drive f).toNat]? = some row ∧
      (apply_change env patch change).drive.records[(slot_of (apply_change env patch change).drive f).toNat]? = some row ∧
      (row.Live → seen (apply_change env patch change).drive row = seen patch.drive row) := by
  obtain ⟨row, hget⟩ := h.get hmapped
  have hmem := List.mem_of_getElem? hget
  refine ⟨row, hget, ?_, fun hlive => seen_kept h.linked hmem (h.fits row hmem) hlive⟩
  rw [(apply_change_effect env patch change).slot_of_other hf, h.get_other hf hmapped, hget]

theorem Sighted.look_other (h : Sighted touched patch.drive) {f : UInt64} (hf : f ≠ change.frs) :
    look (apply_change env patch change).drive f = look patch.drive f := by
  have hslot := (apply_change_effect env patch change).slot_of_other hf
  by_cases hmapped : slot_of patch.drive f = NO_ENTRY
  · rw [look_eq_none_iff.mpr hmapped, look_eq_none_iff.mpr (hslot.trans hmapped)]
  · obtain ⟨row, hget, hget', hseen⟩ := h.row_other hf hmapped
    rw [look_of_get hmapped hget, look_of_get (hslot ▸ hmapped) hget']
    split_ifs with hdead
    · rfl
    · rw [hseen hdead]

/-- What a written row shows. -/
theorem Fresh.seen_eq {drive' : DriveCompactIndex} {row : CompactRecord} (hfresh : Fresh change patch.drive drive' row)
    (h : Sighted touched patch.drive) (hblob : patch.drive.names.length < UInt32.size)
    (hkept : ∀ (i : Nat) (row : CompactRecord), patch.drive.records[i]? = some row → ∃ row', drive'.records[i]? = some row' ∧ row'.frs = row.frs) :
    seen drive' row = (stored_name change.filename, if slot_of patch.drive change.parent_frs = NO_ENTRY then none else
      patch.drive.records[(slot_of patch.drive change.parent_frs).toNat]?.map CompactRecord.frs) := by
  rw [seen, hfresh.name_bytes hblob, parent_frs_of, hfresh.parent]
  split_ifs with hslot
  · rfl
  · obtain ⟨parent, hget⟩ := h.get hslot
    obtain ⟨parent', hget', hfrs⟩ := hkept _ parent hget
    rw [hget, hget', Option.map_some, Option.map_some, hfrs]

section written

variable (hget : slot_of patch.drive change.frs ≠ NO_ENTRY →
  ∃ row, patch.drive.records[(slot_of patch.drive change.frs).toNat]? = some row)

include hget

/-- A record number whose file is deleted has no slot. -/
theorem slot_of_deleted (hkind : change.deleted = true) : slot_of (apply_change env patch change).drive change.frs = NO_ENTRY := by
  cases apply_change_effect env patch change with
  | idle _ hmap _ _ hdeleted =>
    rw [slot_of_of_map hmap]
    by_contra hslot
    obtain ⟨row, hrow⟩ := hget hslot
    exact hslot (hdeleted hkind row hrow)
  | deleted rec _ _ _ _ hmap => rw [slot_of_unmap hmap, if_pos rfl]
  | appended rec hnot => simp [hkind] at hnot
  | rewritten rec rec' _ hnot => simp [hkind] at hnot

/-- The row of a record number that is written. -/
theorem exists_written (hwrites : Writes patch.drive change)
    (hroom : (apply_change env patch change).drive.records.length < NO_ENTRY.toNat) :
    ∃ row, slot_of (apply_change env patch change).drive change.frs ≠ NO_ENTRY ∧
      (apply_change env patch change).drive.records[(slot_of (apply_change env patch change).drive change.frs).toNat]? = some row ∧
        Fresh change patch.drive (apply_change env patch change).drive row := by
  have hsize : UInt32.size = 4294967296 := rfl
  have hmax := NO_ENTRY_toNat
  have hqueued := apply_change_writes env hwrites hget
  cases apply_change_effect env patch change with
  | idle _ _ hpath => exact absurd hpath hqueued
  | deleted rec hdeleted => simp [hwrites.1] at hdeleted
  | appended rec _ _ hfresh _ hrecords hmap =>
    rw [hrecords, List.length_append, List.length_singleton] at hroom
    have hnew : slot_of (apply_change env patch change).drive change.frs = len_to_u32 patch.drive.records.length := by
      rw [slot_of_map_frs hmap, if_pos rfl]
    refine ⟨rec, ?_, ?_, hfresh⟩
    · rw [hnew]
      exact len_to_u32_ne_no_entry (by omega)
    · rw [hnew, len_to_u32_toNat (by omega), hrecords]
      exact List.getElem?_concat_length
  | rewritten rec rec' _ _ hslot hrow hfresh _ _ _ hrecords hmap =>
    refine ⟨rec', ?_, ?_, hfresh⟩
    · rw [slot_of_of_map hmap]
      exact hslot
    · rw [slot_of_of_map hmap, hrecords]
      exact List.getElem?_set_self (List.getElem?_eq_some_iff.mp hrow).1

end written

/-- One change, as the view sees it. -/
theorem Sighted.look_self (h : Sighted touched patch.drive) (hblob : patch.drive.names.length < UInt32.size)
    (hroom : (apply_change env patch change).drive.records.length < NO_ENTRY.toNat) (hparent : touched change.parent_frs) :
    look (apply_change env patch change).drive change.frs =
      settle change (resolved patch.drive change.parent_frs) (look patch.drive change.frs) := by
  by_cases hkind : change.deleted = true
  · rw [settle, if_pos hkind]
    exact look_eq_none_iff.mpr (slot_of_deleted h.get hkind)
  · have hkind' : change.deleted = false := by simpa using hkind
    by_cases hwrites : Writes patch.drive change
    · obtain ⟨row, hslot, hget, hfresh⟩ := exists_written h.get hwrites hroom
      rw [settle_of_writes hwrites, look_of_live hslot hget hfresh.live,
        hfresh.seen_eq h hblob fun i row hget => (apply_change_effect env patch change).frs_kept hget, h.label hparent]
    · rw [settle_of_not_writes hkind' hwrites, apply_change_skip env hkind' hwrites]
      rfl

/-- A change keeps the slots apart and the names in the blob. -/
theorem Placed.step (h : Placed patch.drive) (hroom : (apply_change env patch change).drive.records.length < NO_ENTRY.toNat) :
    Placed (apply_change env patch change).drive := by
  have heffect := apply_change_effect env patch change
  have hsize : UInt32.size = 4294967296 := rfl
  have hmax := NO_ENTRY_toNat
  have hlinked := heffect.linked h.linked (by omega)
  obtain ⟨-, tail, hnames⟩ := apply_change_frame env patch change
  have hold : ∀ row ∈ patch.drive.records, RowFits (apply_change env patch change).drive.names row := by
    intro row hmem
    rw [hnames]
    exact (h.fits row hmem).append tail
  refine ⟨hlinked, ?_, ?_⟩
  · exact heffect.distinct hroom h.linked h.distinct
  · intro row hmem
    cases heffect with
    | idle hrecords =>
      rw [hrecords] at hmem
      exact hold row hmem
    | deleted rec _ _ _ hrecords =>
      rw [hrecords] at hmem
      rcases List.mem_or_eq_of_mem_set hmem with hmem | rfl
      · exact hold row hmem
      · exact fun hlive => absurd rfl hlive
    | appended rec _ _ hfresh _ hrecords =>
      rw [hrecords] at hmem
      rcases List.mem_append.mp hmem with hmem | hmem
      · exact hold row hmem
      · rw [List.mem_singleton.mp hmem]
        exact fun _ => hfresh.inRange
    | rewritten rec rec' _ _ _ _ hfresh _ _ _ hrecords =>
      rw [hrecords] at hmem
      rcases List.mem_or_eq_of_mem_set hmem with hmem | rfl
      · exact hold row hmem
      · exact fun _ => hfresh.inRange

/-- A change keeps what the view rests on. -/
theorem Sighted.step (h : Sighted touched patch.drive) (hjournal : change.FromJournal)
    (hroom : (apply_change env patch change).drive.records.length < NO_ENTRY.toNat) :
    Sighted touched (apply_change env patch change).drive := by
  have heffect := apply_change_effect env patch change
  have hsize : UInt32.size = 4294967296 := rfl
  have hmax := NO_ENTRY_toNat
  obtain ⟨hlinked, hdistinct, hfits⟩ := h.placed.step hroom
  refine ⟨hlinked, hdistinct, hfits, ?_⟩
  · intro f htouched hf
    by_cases hfc : f = change.frs
    · subst hfc
      by_cases hslot : slot_of patch.drive change.frs = NO_ENTRY
      · cases heffect with
        | idle _ hmap => exact absurd ((slot_of_of_map hmap _).trans hslot) hf
        | deleted rec _ hmapped => exact absurd hslot hmapped
        | appended rec _ _ _ hfile hrecords hmap =>
          rw [hrecords, List.length_append, List.length_singleton] at hroom
          rw [slot_of_map_frs hmap, if_pos rfl, len_to_u32_toNat (by omega), hrecords]
          refine ⟨rec, List.getElem?_concat_length, ?_⟩
          rw [CompactRecord.frs, hfile]
          exact frs_pack_file_reference 0 hjournal
        | rewritten rec rec' _ _ hmapped => exact absurd hslot hmapped
      · obtain ⟨row, hget, hfrs⟩ := h.owned _ htouched hslot
        obtain ⟨row', hget', hfrs'⟩ := heffect.frs_kept hget
        cases heffect with
        | idle _ hmap => exact ⟨row', by rw [slot_of_of_map hmap, hget'], hfrs'.trans hfrs⟩
        | deleted rec _ _ _ _ hmap => exact absurd (by rw [slot_of_unmap hmap, if_pos rfl]) hf
        | appended rec _ hnone => exact absurd hnone hslot
        | rewritten _ _ _ _ _ _ _ _ _ _ _ hmap => exact ⟨row', by rw [slot_of_of_map hmap, hget'], hfrs'.trans hfrs⟩
    · have hslot := heffect.slot_of_other hfc
      rw [hslot] at hf ⊢
      obtain ⟨row, hget, hfrs⟩ := h.owned f htouched hf
      exact ⟨row, by rw [h.get_other hfc hf, hget], hfrs⟩

theorem resolved_eq_look {drive : DriveCompactIndex} (f : UInt64) : resolved drive f = (look drive f).map fun _ => f := by
  rw [resolved, look]
  split_ifs <;> rfl

end Step

/-- Whether a record number has a slot after a change of its own. -/
def mapped_after (change : FileChange) (mapped : Bool) : Bool :=
  if change.deleted then false else if change.created && !change.filename.isEmpty then true else mapped

theorem settle_isSome (change : FileChange) (parent : Option UInt64) (entry : Option (Option Seen)) :
    (settle change parent entry).isSome = mapped_after change entry.isSome := by
  rw [settle, mapped_after]
  cases change.deleted <;> cases change.created <;> cases change.renamed <;> by_cases hname : change.filename = [] <;> simp [hname]

section Batch

variable {env : Env}

/-- A batch has room: the slots stay below the sentinel and the names below the width of an offset. -/
structure Fits (drive : DriveCompactIndex) : Prop where
  records : drive.records.length < NO_ENTRY.toNat
  names : drive.names.length < UInt32.size

theorem foldl_names_le (env : Env) (changes : List FileChange) (patch : Patch) :
    patch.drive.names.length ≤ (changes.foldl (apply_change env) patch).drive.names.length := by
  induction changes generalizing patch with
  | nil => exact Nat.le_refl _
  | cons change changes ih =>
    obtain ⟨-, tail, hnames⟩ := apply_change_frame env patch change
    apply Nat.le_trans _ (ih (apply_change env patch change))
    rw [hnames, List.length_append]
    omega

/-- Changes of the journal, about touched record numbers. -/
def Concerns (touched : UInt64 → Prop) (changes : List FileChange) : Prop :=
  ∀ change ∈ changes, change.FromJournal ∧ touched change.parent_frs

theorem Concerns.cons (h : Concerns touched (change :: changes)) :
    (change.FromJournal ∧ touched change.parent_frs) ∧ Concerns touched changes :=
  ⟨h change List.mem_cons_self, fun ch hch => h ch (List.mem_cons_of_mem _ hch)⟩

theorem Fits.before (h : Fits (changes.foldl (apply_change env) patch).drive) :
    Fits patch.drive :=
  ⟨Nat.lt_of_le_of_lt (foldl_apply_change_length_le env changes patch) h.records,
    Nat.lt_of_le_of_lt (foldl_names_le env changes patch) h.names⟩

theorem Sighted.foldl (h : Sighted touched patch.drive)
    (hconcerns : Concerns touched changes) (hfits : Fits (changes.foldl (apply_change env) patch).drive) :
    Sighted touched (changes.foldl (apply_change env) patch).drive := by
  induction changes generalizing patch with
  | nil => exact h
  | cons change changes ih =>
    rw [List.foldl_cons] at hfits ⊢
    exact ih (h.step hconcerns.cons.1.1 hfits.before.records) hconcerns.cons.2 hfits

theorem foldl_look_other (h : Sighted touched patch.drive)
    (hconcerns : Concerns touched changes) (hfits : Fits (changes.foldl (apply_change env) patch).drive) {f : UInt64}
    (hf : f ∉ changes.map FileChange.frs) : look (changes.foldl (apply_change env) patch).drive f = look patch.drive f := by
  induction changes generalizing patch with
  | nil => rfl
  | cons change changes ih =>
    rw [List.map_cons, List.mem_cons, not_or] at hf
    rw [List.foldl_cons] at hfits ⊢
    rw [ih (h.step hconcerns.cons.1.1 hfits.before.records) hconcerns.cons.2 hfits hf.2, h.look_other hf.1]

/-- A file with one change in the batch: the change settles it, with the parent as it is found then. -/
theorem foldl_look_self {first rest : List FileChange} (h : Sighted touched patch.drive)
    (hconcerns : Concerns touched (first ++ change :: rest))
    (hfits : Fits ((first ++ change :: rest).foldl (apply_change env) patch).drive)
    (hnodup : ((first ++ change :: rest).map FileChange.frs).Nodup) :
    look ((first ++ change :: rest).foldl (apply_change env) patch).drive change.frs =
      settle change (resolved (first.foldl (apply_change env) patch).drive change.parent_frs) (look patch.drive change.frs) := by
  rw [List.foldl_append, List.foldl_cons] at hfits ⊢
  have hfirst : Concerns touched first := fun ch hch => hconcerns ch (List.mem_append_left _ hch)
  have hrest : Concerns touched (change :: rest) := fun ch hch => hconcerns ch (List.mem_append_right _ hch)
  rw [List.map_append, List.map_cons, List.nodup_append] at hnodup
  obtain ⟨-, hnodup', hapart⟩ := hnodup
  rw [List.nodup_cons] at hnodup'
  have hnotFirst : change.frs ∉ first.map FileChange.frs := fun hmem => hapart _ hmem _ List.mem_cons_self rfl
  have hafter := hfits.before
  have hmid : Fits (first.foldl (apply_change env) patch).drive := @Fits.before _ [change] env hafter
  have hsighted := h.foldl hfirst hmid
  rw [foldl_look_other (hsighted.step hrest.cons.1.1 hafter.records) hrest.cons.2 hfits hnodup'.1,
    hsighted.look_self hmid.names hafter.records hrest.cons.1.2, foldl_look_other h hfirst hmid hnotFirst]

theorem resolved_eq_of_mapped {drive : DriveCompactIndex} (f : UInt64) :
    resolved drive f = if (look drive f).isSome then some f else none := by
  rw [resolved_eq_look]
  cases look drive f <;> rfl

/-- A touched record number as a parent, in the middle of a batch. -/
theorem foldl_mapped (h : Sighted touched patch.drive)
    (hconcerns : Concerns touched changes) (hfits : Fits (changes.foldl (apply_change env) patch).drive)
    (hnodup : (changes.map FileChange.frs).Nodup) (f : UInt64) :
    (look (changes.foldl (apply_change env) patch).drive f).isSome =
      match change_of changes f with
      | none => (look patch.drive f).isSome
      | some change => mapped_after change (look patch.drive f).isSome := by
  cases hfind : change_of changes f with
  | none =>
    rw [foldl_look_other h hconcerns hfits]
    intro hmem
    obtain ⟨change, hchange, rfl⟩ := List.mem_map.mp hmem
    simpa using List.find?_eq_none.mp hfind change hchange
  | some change =>
    obtain ⟨hmem, rfl⟩ := (change_of_eq_some hnodup).mp hfind
    obtain ⟨first, rest, rfl⟩ := List.append_of_mem hmem
    rw [foldl_look_self h hconcerns hfits hnodup, settle_isSome]

end Batch

end uffs.usn
