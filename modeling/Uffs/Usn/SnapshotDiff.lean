import Uffs.Compact.Diff
import Uffs.Usn.Delete
import Uffs.Usn.Replay

open uffs.mft uffs.text uffs.bloom uffs.compact

namespace uffs.usn

/-! A live index against the snapshot it started from. -/

/-- Whose record number it is: of a record that the snapshot leaves out, of a file of the snapshot, or of a file that
    was created since. -/
inductive Holder where
  | hidden
  | baseline
  | created
deriving DecidableEq

/-- The files of a volume by their record numbers. -/
abbrev Files := UInt64 → Option Holder

/-- The files that a snapshot shows. -/
def baseline_files (baseline : DriveCompactIndex) : Files := fun frs =>
  if baseline.records.any fun row => is_real row && row.frs == frs then some .baseline
  else if slot_of baseline frs = NO_ENTRY then none
  else some .hidden

def FileChange.creates (change : FileChange) : Bool := !change.deleted && change.created && !change.filename.isEmpty

/-- The files after a change: a delete frees the record number, a create gives it to a new file. -/
def follow (files : Files) (change : FileChange) : Files := fun frs =>
  if frs ≠ change.frs then files frs
  else if change.deleted then none
  else if change.creates then some .created
  else files frs

/-- What the diff of a live index has to say: the rows of the snapshot whose file is gone, the rows that stand for
    files created since, and the rows of files on both sides whose size or last write time is another one. -/
structure DiffExact (baseline current : DriveCompactIndex) (files : Files) : Prop where
  deleted : (diff_indexes baseline current).deleted =
    rows_where baseline.records fun _ row => is_real row && files row.frs != some .baseline
  added : (diff_indexes baseline current).added =
    rows_where current.records fun idx row =>
      files row.frs == some .created && slot_of current row.frs == len_to_u32 idx
  modified : (diff_indexes baseline current).modified =
    rows_where current.records fun idx row =>
      baseline.records[idx]?.any fun old =>
        is_real old && files old.frs == some .baseline && (old.size != row.size || old.modified != row.modified)

/-- No file of the snapshot and no file created since is deleted, no record number that is in use is given to a new file
    (one created since apart), and record number 0 is not used. -/
def Harmless (files : Files) (change : FileChange) : Prop :=
  if change.deleted then files change.frs = none ∨ files change.frs = some .hidden
  else change.creates = true → change.frs ≠ 0 ∧ (files change.frs = none ∨ files change.frs = some .created)

def HarmlessRun : Files → List FileChange → Prop
  | _, [] => True
  | files, change :: changes => Harmless files change ∧ HarmlessRun (follow files change) changes

section rows

/-- How the rows and the slots of a live index stand to the snapshot and to the files. -/
structure Tracked (baseline current : DriveCompactIndex) (files : Files) : Prop where
  kept : ∀ (i : Nat) (old : CompactRecord), baseline.records[i]? = some old →
    ∃ row : CompactRecord, current.records[i]? = some row ∧ row.file_ref = old.file_ref
  real : ∀ old ∈ baseline.records, is_real old = true → files old.frs = some .baseline
  unmapped : ∀ f, files f = none → slot_of current f = NO_ENTRY
  hidden : ∀ f, files f = some .hidden → ∃ row, current.records[(slot_of current f).toNat]? = some row
  created : ∀ f, files f = some .created → slot_of current f ≠ NO_ENTRY ∧ f ≠ 0
  appended : ∀ i row, baseline.records.length ≤ i → current.records[i]? = some row →
    files row.frs = some .created ∧ slot_of current row.frs = len_to_u32 i ∧
      row.file_ref = pack_file_reference row.frs 0 ∧ row.frs ≠ 0

variable {baseline current : DriveCompactIndex} {files : Files}

theorem pack_zero_of_lt {frs : UInt64} (hfrs : frs.toNat < 2 ^ 48) : pack_file_reference frs 0 = frs := by
  have hzero : pack_file_reference frs 0 = frs &&& FRS_MASK := by simp [pack_file_reference]
  have hmask := frs_pack_file_reference 0 hfrs
  rw [hzero] at hmask ⊢
  rw [← hmask, UInt64.and_assoc, UInt64.and_self]

theorem frs_toNat_lt (row : CompactRecord) : row.frs.toNat < 2 ^ 48 := row.frs_lt

theorem not_real_iff {row : CompactRecord} : is_real row = false ↔ row.file_ref = 0 := by
  simp [is_real]

/-- A row behind those of the snapshot is real, and the snapshot has no row of its file. -/
theorem Tracked.appended_real (h : Tracked baseline current files) {i : Nat} {row : CompactRecord}
    (hi : baseline.records.length ≤ i) (hget : current.records[i]? = some row) :
    is_real row = true ∧ (base_meta baseline.records row.file_ref).isSome = false := by
  obtain ⟨hfile, -, href, hne⟩ := h.appended i row hi hget
  rw [pack_zero_of_lt (frs_toNat_lt row)] at href
  refine ⟨by simp [is_real, href, hne], ?_⟩
  rw [Bool.eq_false_iff]
  intro hsome
  obtain ⟨old, hold, hreal, hsame⟩ := base_meta_isSome_iff.mp hsome
  have hfrs : old.frs = row.frs := by rw [CompactRecord.frs, CompactRecord.frs, hsame]
  have hbaseline := h.real old hold hreal
  rw [hfrs, hfile] at hbaseline
  cases hbaseline

/-- With the rows in this order the diff says what it has to. -/
theorem Tracked.diffExact (h : Tracked baseline current files) (huniform : Uniform baseline.records) :
    DiffExact baseline current files := by
  have hsame : ∀ (i : Nat) (old row : CompactRecord), baseline.records[i]? = some old → current.records[i]? = some row →
      row.file_ref = old.file_ref ∧ row.frs = old.frs ∧ is_real row = is_real old := by
    intro i old row hold hrow
    obtain ⟨row', hrow', href⟩ := h.kept i old hold
    rw [hrow] at hrow'
    obtain rfl := Option.some.inj hrow'
    exact ⟨href, by rw [CompactRecord.frs, CompactRecord.frs, href], by rw [is_real, is_real, href]⟩
  refine ⟨?_, ?_, ?_⟩
  · simp only [diff_indexes, diff_records]
    refine rows_where_congr fun i old hold => ?_
    cases hreal : is_real old with
    | false => rfl
    | true =>
      obtain ⟨row, hrow, href⟩ := h.kept i old hold
      have hpresent : (current.records.any fun other => is_real other && other.file_ref == old.file_ref) = true := by
        rw [List.any_eq_true]
        exact ⟨row, List.mem_of_getElem? hrow, by simp [(hsame i old row hold hrow).2.2, hreal, href]⟩
      simp [hpresent, h.real old (List.mem_of_getElem? hold) hreal]
  · simp only [diff_indexes, diff_records]
    refine rows_where_congr fun i row hrow => ?_
    cases hold : baseline.records[i]? with
    | none =>
      have hi := List.getElem?_eq_none_iff.mp hold
      obtain ⟨hreal, hnone⟩ := h.appended_real hi hrow
      obtain ⟨hfile, hslot, -⟩ := h.appended i row hi hrow
      simp only [hreal, ← Option.not_isSome, hnone, hfile, hslot, beq_self_eq_true, Bool.not_false, Bool.and_self]
    | some old =>
      obtain ⟨href, hfrs, hreal⟩ := hsame i old row hold hrow
      cases hold_real : is_real old with
      | false =>
        have hzero : row.frs = 0 := by rw [CompactRecord.frs, href, not_real_iff.mp hold_real]; rfl
        have hnew : files row.frs ≠ some .created := by
          intro hfile
          exact (h.created _ hfile).2 hzero
        simp [hreal, hold_real, hnew]
      | true =>
        have hsome : (base_meta baseline.records row.file_ref).isSome = true :=
          base_meta_isSome_iff.mpr ⟨old, List.mem_of_getElem? hold, hold_real, href.symm⟩
        have hfile := h.real old (List.mem_of_getElem? hold) hold_real
        rw [← hfrs] at hfile
        simp [← Option.not_isSome, hsome, hfile]
  · simp only [diff_indexes, diff_records]
    refine rows_where_congr fun i row hrow => ?_
    cases hold : baseline.records[i]? with
    | none =>
      have hi := List.getElem?_eq_none_iff.mp hold
      obtain ⟨hreal, hnone⟩ := h.appended_real hi hrow
      rw [Option.isSome_eq_false_iff, Option.isNone_iff_eq_none] at hnone
      simp [hnone]
    | some old =>
      obtain ⟨href, hfrs, hreal⟩ := hsame i old row hold hrow
      cases hold_real : is_real old with
      | false => simp [hreal, hold_real]
      | true =>
        have hfile := h.real old (List.mem_of_getElem? hold) hold_real
        simp [hreal, hold_real, hfile, href, base_meta_of_uniform huniform (List.mem_of_getElem? hold) hold_real]

/-- The snapshot itself. -/
theorem Tracked.start (baseline : DriveCompactIndex)
    (hmapped : ∀ f, slot_of baseline f ≠ NO_ENTRY → ∃ row, baseline.records[(slot_of baseline f).toNat]? = some row) :
    Tracked baseline baseline (baseline_files baseline) where
  kept := fun i old hold => ⟨old, hold, rfl⟩
  real := by
    intro old hold hreal
    rw [baseline_files, if_pos]
    rw [List.any_eq_true]
    exact ⟨old, hold, by simp [hreal]⟩
  unmapped := by
    intro f hf
    unfold baseline_files at hf
    split_ifs at hf with hreal hslot
    exact hslot
  hidden := by
    intro f hf
    unfold baseline_files at hf
    split_ifs at hf with hreal hslot
    · cases hf
    · exact hmapped f hslot
  created := by
    intro f hf
    unfold baseline_files at hf
    split_ifs at hf <;> cases hf
  appended := by
    intro i row hi hrow
    exact absurd (List.getElem?_eq_some_iff.mp hrow).1 (Nat.not_lt.mpr hi)

/-- A row and the one with its reference. -/
theorem get_of_refs {before after : List CompactRecord}
    (h : ∀ i : Nat, after[i]?.map CompactRecord.file_ref = before[i]?.map CompactRecord.file_ref) {i : Nat} {row : CompactRecord}
    (hget : after[i]? = some row) : ∃ old, before[i]? = some old ∧ row.file_ref = old.file_ref ∧ row.frs = old.frs := by
  have hrefs := h i
  rw [hget, Option.map_some] at hrefs
  obtain ⟨old, hold, href⟩ := Option.map_eq_some_iff.mp hrefs.symm
  exact ⟨old, hold, href.symm, by rw [CompactRecord.frs, CompactRecord.frs, href]⟩

/-- Rows with the same references under the same slots. -/
structure SameRefs (before after : DriveCompactIndex) : Prop where
  refs : ∀ i : Nat, after.records[i]?.map CompactRecord.file_ref = before.records[i]?.map CompactRecord.file_ref
  slots : ∀ f, slot_of after f = slot_of before f

/-- Rows of the earlier table are still there, under their references. -/
def RefsKept (before after : DriveCompactIndex) : Prop :=
  ∀ (i : Nat) (old : CompactRecord), before.records[i]? = some old →
    ∃ row : CompactRecord, after.records[i]? = some row ∧ row.file_ref = old.file_ref

theorem RefsKept.trans {a b c : DriveCompactIndex} (hab : RefsKept a b) (hbc : RefsKept b c) : RefsKept a c := by
  intro i old hold
  obtain ⟨row, hrow, href⟩ := hab i old hold
  obtain ⟨row', hrow', href'⟩ := hbc i row hrow
  exact ⟨row', hrow', href'.trans href⟩

theorem refsKept_of_sameRefs {before after : DriveCompactIndex} (h : SameRefs before after) : RefsKept before after := by
  intro i old hold
  obtain ⟨row, hrow, href, -⟩ := get_of_refs (fun i => (h.refs i).symm) hold
  exact ⟨row, hrow, href.symm⟩

theorem Tracked.of_sameRefs {after : DriveCompactIndex} (h : Tracked baseline current files)
    (hsame : SameRefs current after) : Tracked baseline after files where
  kept := RefsKept.trans h.kept (refsKept_of_sameRefs hsame)
  real := h.real
  unmapped := fun f hf => (hsame.slots f).trans (h.unmapped f hf)
  hidden := by
    intro f hf
    obtain ⟨row, hrow⟩ := h.hidden f hf
    obtain ⟨row', hrow', -⟩ := refsKept_of_sameRefs hsame _ row hrow
    exact ⟨row', by rw [hsame.slots]; exact hrow'⟩
  created := fun f hf => ⟨by rw [hsame.slots]; exact (h.created f hf).1, (h.created f hf).2⟩
  appended := by
    intro i row hi hrow
    obtain ⟨old, hold, href, hfrs⟩ := get_of_refs hsame.refs hrow
    rw [hfrs, href, hsame.slots]
    exact h.appended i old hi hold

theorem sameRefs_of_rebuilt {start result : DriveCompactIndex} {path_changes : List PathChange} {tombstones : List UInt32}
    (h : Rebuilt start result path_changes tombstones) : SameRefs start result := by
  refine ⟨fun i => ?_, slot_of_of_map h.map⟩
  have hcore := h.core.getElem? i
  have hmap : ∀ rows : List CompactRecord,
      rows[i]?.map CompactRecord.file_ref = (rows[i]?.map CompactRecord.core).map CompactRecord.file_ref := by
    intro rows
    rw [Option.map_map]
    rfl
  rw [hmap, hmap, hcore]

end rows

section step

variable {baseline : DriveCompactIndex} {files : Files} {env : Env} {patch : Patch} {change : FileChange}

/-- A change that is no delete and appends no row leaves the references and the slots alone. -/
theorem sameRefs_of_quiet (hkind : change.deleted = false)
    (hslot : change.creates = true → slot_of patch.drive change.frs ≠ NO_ENTRY) :
    SameRefs patch.drive (apply_change env patch change).drive := by
  by_cases hmapped : slot_of patch.drive change.frs = NO_ENTRY
  · have hskip : ¬Writes patch.drive change := by
      rintro ⟨-, hname, hcreated | ⟨-, hne⟩⟩
      · exact hslot (by simp [FileChange.creates, hkind, hcreated, hname]) hmapped
      · exact hne hmapped
    rw [apply_change_skip env hkind hskip]
    exact ⟨fun _ => rfl, fun _ => rfl⟩
  · cases apply_change_effect env patch change with
    | idle hrecords hmap => exact ⟨fun i => by rw [hrecords], slot_of_of_map hmap⟩
    | deleted _ hdeleted =>
      rw [hkind] at hdeleted
      cases hdeleted
    | appended _ _ hnone => exact absurd hnone hmapped
    | rewritten rec rec' _ _ _ hget _ hfile _ _ hrecords hmap =>
      refine ⟨fun i => ?_, slot_of_of_map hmap⟩
      rw [hrecords, List.getElem?_set]
      split_ifs with hi hlt
      · rw [← hi, hget, Option.map_some, Option.map_some, hfile]
      · rw [← hi, List.getElem?_eq_none (Nat.le_of_not_lt hlt)]
      · rfl

/-- No change takes a row away or gives it another reference. -/
theorem apply_change_refsKept (env : Env) (patch : Patch) (change : FileChange) :
    RefsKept patch.drive (apply_change env patch change).drive := by
  intro i old hold
  have hlt := (List.getElem?_eq_some_iff.mp hold).1
  cases apply_change_effect env patch change with
  | idle hrecords => exact ⟨old, by rw [hrecords]; exact hold, rfl⟩
  | deleted rec _ _ hget hrecords =>
    rw [hrecords]
    by_cases hi : (slot_of patch.drive change.frs).toNat = i
    · subst hi
      rw [hget] at hold
      obtain rfl := Option.some.inj hold
      exact ⟨_, List.getElem?_set_self hlt, rfl⟩
    · exact ⟨old, by rw [List.getElem?_set_ne hi]; exact hold, rfl⟩
  | appended rec _ _ _ _ hrecords =>
    rw [hrecords]
    exact ⟨old, by rw [List.getElem?_append_left hlt]; exact hold, rfl⟩
  | rewritten rec rec' _ _ _ hget _ hfile _ _ hrecords =>
    rw [hrecords]
    by_cases hi : (slot_of patch.drive change.frs).toNat = i
    · subst hi
      rw [hget] at hold
      obtain rfl := Option.some.inj hold
      exact ⟨rec', List.getElem?_set_self hlt, hfile⟩
    · exact ⟨old, by rw [List.getElem?_set_ne hi]; exact hold, rfl⟩

theorem follow_other {f : UInt64} (hf : f ≠ change.frs) : follow files change f = files f := if_pos hf

/-- Who holds another record number than this one. -/
theorem follow_elsewhere {f : UInt64} {holder other : Option Holder} (hself : follow files change change.frs = holder)
    (hf : follow files change f = other) (hne : holder ≠ other) : f ≠ change.frs ∧ files f = other := by
  have hother : f ≠ change.frs := by
    rintro rfl
    exact hne (hself.symm.trans hf)
  exact ⟨hother, (follow_other hother).symm.trans hf⟩

theorem follow_self : follow files change change.frs =
    if change.deleted then none else if change.creates then some .created else files change.frs := by
  simp [follow]

theorem Tracked.quiet (h : Tracked baseline patch.drive files) (hkind : change.deleted = false)
    (hold : change.creates = true → files change.frs = some .created) :
    Tracked baseline (apply_change env patch change).drive (follow files change) := by
  have hfiles : follow files change = files := by
    funext f
    by_cases hf : f = change.frs
    · subst hf
      rw [follow_self, hkind]
      simp only [Bool.false_eq_true, if_false]
      split_ifs with hcreates
      · exact (hold hcreates).symm
      · rfl
    · exact follow_other hf
  rw [hfiles]
  exact h.of_sameRefs (sameRefs_of_quiet hkind fun hcreates => (h.created _ (hold hcreates)).1)

theorem Tracked.append (h : Tracked baseline patch.drive files) (hjournal : change.FromJournal)
    (hcreates : change.creates = true) (hfree : files change.frs = none) (hne : change.frs ≠ 0)
    (hroom : (apply_change env patch change).drive.records.length < NO_ENTRY.toNat) :
    Tracked baseline (apply_change env patch change).drive (follow files change) := by
  simp only [FileChange.creates, Bool.and_eq_true, Bool.not_eq_true', List.isEmpty_eq_false_iff] at hcreates
  obtain ⟨⟨hkind, hcreated⟩, hname⟩ := hcreates
  have hstaged := stage_create_staged env patch.drive change
  have hdrive := apply_change_append_drive env hkind hcreated hname (h.unmapped _ hfree)
  have hrecords : (apply_change env patch change).drive.records =
      patch.drive.records ++ [new_record change.frs (stage_create env patch.drive change).2] := by rw [hdrive]
  have hmap : (apply_change env patch change).drive.frs_to_compact =
      map_frs patch.drive.frs_to_compact change.frs (len_to_u32 patch.drive.records.length) := by
    rw [hdrive, hstaged.map, hstaged.records]
  have hslot : ∀ f, slot_of (apply_change env patch change).drive f = _ := slot_of_map_frs hmap
  rw [hrecords, List.length_append, List.length_singleton] at hroom
  have hself : follow files change change.frs = some .created := by
    rw [follow_self, hkind, if_neg Bool.false_ne_true, if_pos]
    simp [FileChange.creates, hkind, hcreated, hname]
  have hold : ∀ f, (∃ holder, files f = some holder) → f ≠ change.frs := by
    rintro f ⟨holder, hf⟩ rfl
    rw [hfree] at hf
    cases hf
  have hnew : len_to_u32 patch.drive.records.length ≠ NO_ENTRY := by
    intro heq
    have hlen := len_to_u32_toNat (show patch.drive.records.length < UInt32.size by
      rw [NO_ENTRY_toNat] at hroom
      have hsize : UInt32.size = 4294967296 := rfl
      omega)
    rw [heq] at hlen
    omega
  refine ⟨?_, ?_, ?_, ?_, ?_, ?_⟩
  · exact RefsKept.trans h.kept (apply_change_refsKept env patch change)
  · intro old hbase hreal
    have hfile := h.real old hbase hreal
    rw [follow_other (hold _ ⟨_, hfile⟩)]
    exact hfile
  · intro f hfollow
    obtain ⟨hother, hf⟩ := follow_elsewhere hself hfollow nofun
    rw [hslot, if_neg hother]
    exact h.unmapped f hf
  · intro f hfollow
    obtain ⟨hother, hf⟩ := follow_elsewhere hself hfollow nofun
    obtain ⟨row, hrow⟩ := h.hidden f hf
    obtain ⟨row', hrow', -⟩ := apply_change_refsKept env patch change _ row hrow
    exact ⟨row', by rw [hslot, if_neg hother]; exact hrow'⟩
  · intro f hf
    by_cases hother : f = change.frs
    · subst hother
      exact ⟨by rw [hslot, if_pos rfl]; exact hnew, hne⟩
    · rw [follow_other hother] at hf
      exact ⟨by rw [hslot, if_neg hother]; exact (h.created f hf).1, (h.created f hf).2⟩
  · intro i row hi hrow
    rw [hrecords] at hrow
    by_cases hlast : i < patch.drive.records.length
    · rw [List.getElem?_append_left hlast] at hrow
      obtain ⟨hfile, hat, href, hzero⟩ := h.appended i row hi hrow
      have hother := hold _ ⟨_, hfile⟩
      exact ⟨by rw [follow_other hother]; exact hfile, by rw [hslot, if_neg hother]; exact hat, href, hzero⟩
    · obtain ⟨hlt, hrow⟩ := List.getElem?_eq_some_iff.mp hrow
      rw [List.length_append, List.length_singleton] at hlt
      have hi' : i = patch.drive.records.length := by omega
      subst hi'
      have hrow' : row = new_record change.frs (stage_create env patch.drive change).2 := by simpa using hrow.symm
      have hfrs : row.frs = change.frs := by
        rw [hrow']
        exact frs_pack_file_reference 0 hjournal
      rw [hfrs]
      exact ⟨hself, by rw [hslot, if_pos rfl], by rw [hrow']; rfl, hne⟩

theorem Tracked.delete (h : Tracked baseline patch.drive files) (hkind : change.deleted = true)
    (hhidden : files change.frs = none ∨ files change.frs = some .hidden) :
    Tracked baseline (apply_change env patch change).drive (follow files change) := by
  have hself : follow files change change.frs = none := by rw [follow_self, if_pos hkind]
  have hold : ∀ f holder, files f = some holder → holder ≠ .hidden → f ≠ change.frs := by
    rintro f holder hf hne rfl
    rcases hhidden with hnone | hhid
    · rw [hnone] at hf
      cases hf
    · rw [hhid] at hf
      exact hne (Option.some.inj hf).symm
  -- The row that loses its name keeps its reference; only the record number deleted loses its slot.
  have hstep : (∀ i : Nat, (apply_change env patch change).drive.records[i]?.map CompactRecord.file_ref =
      patch.drive.records[i]?.map CompactRecord.file_ref) ∧
      (∀ f, slot_of (apply_change env patch change).drive f = if f = change.frs then NO_ENTRY else slot_of patch.drive f) := by
    cases apply_change_effect env patch change with
    | idle hrecords hmap _ _ hdeleted =>
      refine ⟨fun i => by rw [hrecords], fun f => ?_⟩
      rw [slot_of_of_map hmap]
      split_ifs with hf
      · subst hf
        rcases hhidden with hnone | hhid
        · exact h.unmapped _ hnone
        · obtain ⟨row, hrow⟩ := h.hidden _ hhid
          exact hdeleted hkind row hrow
      · rfl
    | deleted rec _ _ hget hrecords hmap =>
      refine ⟨fun i => ?_, slot_of_unmap hmap⟩
      rw [hrecords, List.getElem?_set]
      split_ifs with hi hlt
      · rw [← hi, hget, Option.map_some, Option.map_some]
      · rw [← hi, List.getElem?_eq_none (Nat.le_of_not_lt hlt)]
      · rfl
    | appended _ hnot =>
      rw [hkind] at hnot
      cases hnot
    | rewritten _ _ _ hnot =>
      rw [hkind] at hnot
      cases hnot
  obtain ⟨hrefs, hslots⟩ := hstep
  refine ⟨?_, ?_, ?_, ?_, ?_, ?_⟩
  · exact RefsKept.trans h.kept (apply_change_refsKept env patch change)
  · intro old hbase hreal
    have hfile := h.real old hbase hreal
    rw [follow_other (hold _ _ hfile (by decide))]
    exact hfile
  · intro f hf
    rw [hslots]
    split_ifs with heq
    · rfl
    · rw [follow_other heq] at hf
      exact h.unmapped f hf
  · intro f hfollow
    obtain ⟨hother, hf⟩ := follow_elsewhere hself hfollow nofun
    obtain ⟨row, hrow⟩ := h.hidden f hf
    obtain ⟨row', hrow', -⟩ := apply_change_refsKept env patch change _ row hrow
    exact ⟨row', by rw [hslots, if_neg hother]; exact hrow'⟩
  · intro f hfollow
    obtain ⟨hother, hf⟩ := follow_elsewhere hself hfollow nofun
    rw [hslots, if_neg hother]
    exact h.created f hf
  · intro i row hi hrow
    obtain ⟨old, hrow_old, href, hfrs⟩ := get_of_refs hrefs hrow
    obtain ⟨hfile, hat, hpack, hzero⟩ := h.appended i old hi hrow_old
    have hother := hold _ _ hfile (by decide)
    rw [hfrs, href, follow_other hother, hslots, if_neg hother]
    exact ⟨hfile, hat, hpack, hzero⟩

/-- One harmless change keeps the order. -/
theorem Tracked.step (h : Tracked baseline patch.drive files) (hjournal : change.FromJournal)
    (hroom : (apply_change env patch change).drive.records.length < NO_ENTRY.toNat) (hharmless : Harmless files change) :
    Tracked baseline (apply_change env patch change).drive (follow files change) := by
  cases hkind : change.deleted with
  | true => exact h.delete hkind (by simpa [Harmless, hkind] using hharmless)
  | false =>
    have hcond : change.creates = true →
        change.frs ≠ 0 ∧ (files change.frs = none ∨ files change.frs = some .created) := by
      simpa [Harmless, hkind] using hharmless
    by_cases hcreates : change.creates = true
    · obtain ⟨hne, hnone | hold⟩ := hcond hcreates
      · exact h.append hjournal hcreates hnone hne hroom
      · exact h.quiet hkind fun _ => hold
    · exact h.quiet hkind fun h => absurd h hcreates

end step

section run

variable {baseline : DriveCompactIndex} {files : Files} {env : Env}

/-- The live index after some batches of the journal. -/
def live (env : Env) (drive : DriveCompactIndex) (batches : List (List FileChange)) : DriveCompactIndex :=
  batches.foldl (fun drive changes => (apply_usn_patch env drive changes).1) drive

/-- The changes of all batches, in the order they are applied. -/
def events (batches : List (List FileChange)) : List FileChange := batches.flatMap order_parent_first

theorem harmlessRun_append {files : Files} {first rest : List FileChange} :
    HarmlessRun files (first ++ rest) ↔ HarmlessRun files first ∧ HarmlessRun (first.foldl follow files) rest := by
  induction first generalizing files with
  | nil => simp [HarmlessRun]
  | cons change first ih => simp [HarmlessRun, ih, and_assoc]

theorem Tracked.foldl {changes : List FileChange} {patch : Patch} (h : Tracked baseline patch.drive files)
    (hjournal : ∀ change ∈ changes, change.FromJournal)
    (hroom : (changes.foldl (apply_change env) patch).drive.records.length < NO_ENTRY.toNat)
    (hrun : HarmlessRun files changes) :
    Tracked baseline (changes.foldl (apply_change env) patch).drive (changes.foldl follow files) := by
  induction changes generalizing patch files with
  | nil => exact h
  | cons change changes ih =>
    have hnext := Nat.lt_of_le_of_lt (foldl_apply_change_length_le env changes (apply_change env patch change)) hroom
    have hstep := h.step (hjournal change List.mem_cons_self) hnext hrun.1
    exact ih hstep (fun ch hch => hjournal ch (List.mem_cons_of_mem _ hch)) hroom hrun.2

theorem patch_length_le (env : Env) (drive : DriveCompactIndex) (changes : List FileChange) :
    drive.records.length ≤ (apply_usn_patch env drive changes).1.records.length := by
  rw [(apply_usn_patch_rebuilt env drive changes).length_eq]
  exact foldl_apply_change_length_le env (order_parent_first changes) { drive := drive }

theorem live_length_le (env : Env) (drive : DriveCompactIndex) (batches : List (List FileChange)) :
    drive.records.length ≤ (live env drive batches).records.length := by
  induction batches generalizing drive with
  | nil => exact Nat.le_refl _
  | cons changes batches ih => exact (patch_length_le env drive changes).trans (ih _)

theorem Tracked.batch {drive : DriveCompactIndex} (h : Tracked baseline drive files) {changes : List FileChange}
    (hjournal : ∀ change ∈ changes, change.FromJournal)
    (hroom : Roomy (apply_usn_patch env drive changes).1) (hrun : HarmlessRun files (order_parent_first changes)) :
    Tracked baseline (apply_usn_patch env drive changes).1 ((order_parent_first changes).foldl follow files) := by
  have hrebuilt := apply_usn_patch_rebuilt env drive changes
  refine Tracked.of_sameRefs ?_ (sameRefs_of_rebuilt hrebuilt)
  refine Tracked.foldl h (fun change hmem => ?_) ?_ hrun
  · exact hjournal change ((order_parent_first_perm changes).mem_iff.mp hmem)
  · unfold Roomy at hroom
    rw [hrebuilt.length_eq] at hroom
    exact hroom

theorem Tracked.live {drive : DriveCompactIndex} (h : Tracked baseline drive files) {batches : List (List FileChange)}
    (hjournal : ∀ changes ∈ batches, ∀ change ∈ changes, change.FromJournal)
    (hroom : Roomy (live env drive batches)) (hrun : HarmlessRun files (events batches)) :
    Tracked baseline (live env drive batches) ((events batches).foldl follow files) := by
  induction batches generalizing drive files with
  | nil => exact h
  | cons changes batches ih =>
    have hsplit : events (changes :: batches) = order_parent_first changes ++ events batches := List.flatMap_cons
    rw [hsplit, harmlessRun_append] at hrun
    rw [hsplit, List.foldl_append]
    have hnext : Roomy (apply_usn_patch env drive changes).1 :=
      Nat.lt_of_le_of_lt (live_length_le env _ batches) hroom
    exact ih (h.batch (hjournal changes List.mem_cons_self) hnext hrun.1)
      (fun chs hmem => hjournal chs (List.mem_cons_of_mem _ hmem)) hroom hrun.2

theorem foldl_refsKept (env : Env) (changes : List FileChange) (patch : Patch) :
    RefsKept patch.drive (changes.foldl (apply_change env) patch).drive := by
  induction changes generalizing patch with
  | nil => exact fun i old hold => ⟨old, hold, rfl⟩
  | cons change changes ih => exact (apply_change_refsKept env patch change).trans (ih _)

theorem live_refsKept (env : Env) (drive : DriveCompactIndex) (batches : List (List FileChange)) :
    RefsKept drive (live env drive batches) := by
  induction batches generalizing drive with
  | nil => exact fun i old hold => ⟨old, hold, rfl⟩
  | cons changes batches ih =>
    have hloop : RefsKept drive (mutated env drive changes).drive :=
      foldl_refsKept env (order_parent_first changes) { drive := drive }
    have hrebuilt := refsKept_of_sameRefs (sameRefs_of_rebuilt (apply_usn_patch_rebuilt env drive changes))
    exact (hloop.trans hrebuilt).trans (ih _)

/-- Against the snapshot that a live index started from, no row is ever reported as deleted. -/
theorem diff_live_deleted (env : Env) (baseline : DriveCompactIndex) (batches : List (List FileChange)) :
    (diff_indexes baseline (live env baseline batches)).deleted = [] := by
  simp only [diff_indexes, diff_records]
  rw [rows_where_eq_nil_iff]
  intro i old hold
  obtain ⟨row, hrow, href⟩ := live_refsKept env baseline batches i old hold
  cases hreal : is_real old with
  | false => rfl
  | true =>
    rw [Bool.true_and, Bool.not_eq_false', List.any_eq_true]
    exact ⟨row, List.mem_of_getElem? hrow, by simp [is_real, href, show old.file_ref ≠ 0 by simpa [is_real] using hreal]⟩

theorem uniform_of_sameCore {before after : List CompactRecord} (h : SameCore before after) (huniform : Uniform before) :
    Uniform after := by
  have hback : ∀ row ∈ after, ∃ old ∈ before, old.core = row.core := by
    intro row hrow
    obtain ⟨i, hget⟩ := List.getElem?_of_mem hrow
    obtain ⟨old, hold, hcore⟩ := h.exists_core hget
    exact ⟨old, List.mem_of_getElem? hold, hcore⟩
  intro a ha b hb hreal href
  obtain ⟨a', ha', hcoreA⟩ := hback a ha
  obtain ⟨b', hb', hcoreB⟩ := hback b hb
  have hrefA := file_ref_of_core hcoreA
  have hrefB := file_ref_of_core hcoreB
  have hboth := huniform a' ha' b' hb' (by rw [is_real, hrefA]; exact hreal) (by rw [hrefA, hrefB, href])
  have hcolumnsA := columns_of_core hcoreA
  have hcolumnsB := columns_of_core hcoreB
  have hsize : ∀ row : CompactRecord, row.size = (columns_of row).size := fun _ => rfl
  have hmodified : ∀ row : CompactRecord, row.modified = (columns_of row).modified := fun _ => rfl
  constructor
  · rw [hsize a, hsize b, ← hcolumnsA, ← hcolumnsB]
    exact hboth.1
  · rw [hmodified a, hmodified b, ← hcolumnsA, ← hcolumnsB]
    exact hboth.2

theorem uniform_build_iff (env : Env) (letter : Char) (fold : CaseFold) (index : MftIndex) :
    Uniform (build_compact_index env letter fold index).records ↔ OneContent index := by
  obtain ⟨hcore, -, -⟩ := build_compact_index_columns env letter fold index
  rw [← uniform_expanded_rows_iff]
  exact ⟨uniform_of_sameCore hcore.symm, uniform_of_sameCore hcore⟩

/-- An index differs from itself unless the streams of each file have its length; from there on the diff of the live
    index is exact as long as the batches are harmless, and no batch ever makes it report a delete. -/
theorem snapshot_diff_exact (env : Env) (letter : Char) (fold : CaseFold) {index : MftIndex} (hwf : WellFormed index) :
    let baseline := build_compact_index env letter fold index
    (diff_indexes baseline baseline = {} ↔ OneContent index) ∧
      ∀ batches : List (List FileChange), (∀ changes ∈ batches, ∀ change ∈ changes, change.FromJournal) →
        Roomy (live env baseline batches) →
        (OneContent index → HarmlessRun (baseline_files baseline) (events batches) →
          DiffExact baseline (live env baseline batches) ((events batches).foldl follow (baseline_files baseline))) ∧
        (diff_indexes baseline (live env baseline batches)).deleted = [] := by
  intro baseline
  have huniform := uniform_build_iff env letter fold index
  refine ⟨(diff_self_eq_empty_iff _).trans huniform, fun batches hjournal hroom => ⟨fun hone hrun => ?_, ?_⟩⟩
  · have hstart := Tracked.start baseline fun f hf => by
      obtain ⟨record, hrecord, -, -⟩ := slot_of_build_eq hwf hf
      have hlt := (List.getElem?_eq_some_iff.mp (expanded_rows_primary hrecord)).1
      have hlen := (build_compact_index_columns env letter fold index).1.length_eq
      exact ⟨_, List.getElem?_eq_getElem (by rw [hlen]; exact hlt)⟩
    exact (hstart.live hjournal hroom hrun).diffExact (huniform.mpr hone)
  · exact diff_live_deleted env baseline batches

/-- The new file `c` in the root directory. -/
def create_c : FileChange := { frs := 31, parent_frs := 5, filename := ['c'], created := true }

/-- A file with two names and a file created since: nothing is deleted, the new file is the one that is added. -/
theorem snapshot_diff_exact_create_c :
    WellFormed hard_link_mft ∧
      DiffExact (build_compact_index sample_env 'C' ⟨[]⟩ hard_link_mft)
        (live sample_env (build_compact_index sample_env 'C' ⟨[]⟩ hard_link_mft) [[create_c]])
        ((events [[create_c]]).foldl follow (baseline_files (build_compact_index sample_env 'C' ⟨[]⟩ hard_link_mft))) := by
  have hexact := snapshot_diff_exact sample_env 'C' ⟨[]⟩ hard_link_mft_wellFormed
  have hone : OneContent hard_link_mft := hexact.1.mp (by decide)
  have hevents : events [[create_c]] = [create_c] := by decide
  refine ⟨hard_link_mft_wellFormed, (hexact.2 [[create_c]] ?_ ?_).1 hone ?_⟩
  · intro changes hchanges change hchange
    obtain rfl := List.mem_singleton.mp hchanges
    obtain rfl := List.mem_singleton.mp hchange
    exact (by decide : (31 : UInt64).toNat < 2 ^ 48)
  · unfold Roomy
    decide
  · rw [hevents]
    exact ⟨fun _ => ⟨by decide, .inl (by decide)⟩, trivial⟩

/-- A file `a` of no length with a stream of five bytes. -/
def stream_mft : MftIndex where
  records := [
    { frs := 5, first_name := { name := { offset := 0, bits := 1 }, parent_frs := 5 } },
    { frs := 30, sequence_number := 1, stream_count := 2
      first_name := { name := { offset := 1, bits := 1 }, parent_frs := 5 }, first_stream := { next_entry := 0 } }]
  frs_to_idx := List.replicate 5 NO_ENTRY ++ 0 :: List.replicate 24 NO_ENTRY ++ [1]
  names := as_bytes ['.', 'a', 's']
  streams := [{ size := { length := 5 }, name := { offset := 2, bits := 1 }, flags := 32 }]

/-- The stream is reported as modified against the same index, and the file, once deleted, is not reported at all. -/
theorem snapshot_diff_not_exact :
    WellFormed stream_mft ∧
      (diff_indexes (build_compact_index sample_env 'C' ⟨[]⟩ stream_mft)
        (build_compact_index sample_env 'C' ⟨[]⟩ stream_mft)).modified = [2] ∧
      ¬DiffExact (build_compact_index sample_env 'C' ⟨[]⟩ stream_mft)
        (live sample_env (build_compact_index sample_env 'C' ⟨[]⟩ stream_mft)
          [[{ frs := 30, parent_frs := 5, filename := ['a'], deleted := true }]])
        (follow (baseline_files (build_compact_index sample_env 'C' ⟨[]⟩ stream_mft))
          { frs := 30, parent_frs := 5, filename := ['a'], deleted := true }) := by
  refine ⟨⟨mapped_of_zipIdx (by decide), by decide, by decide, by decide⟩, by decide, fun hexact => ?_⟩
  have hdeleted := hexact.deleted
  rw [diff_live_deleted] at hdeleted
  exact absurd hdeleted (by decide)

end run

end uffs.usn
