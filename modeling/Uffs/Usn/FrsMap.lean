import Uffs.Usn.Linked

open uffs.mft uffs.text uffs.bloom uffs.compact

namespace uffs.usn

/-- The journal reader masks record numbers to 48 bits. -/
def FileChange.FromJournal (self : FileChange) : Prop := self.frs.toNat < 2 ^ 48

/-- Changes that took effect, as the counters tell. -/
def PatchStats.applied (self : PatchStats) : Nat := self.deleted + self.created + self.renamed

/-- The changes of a batch that took effect, in the order of the loop. -/
def applied_changes (env : Env) : Patch → List FileChange → List FileChange
  | _, [] => []
  | patch, change :: changes =>
    let after := apply_change env patch change
    if patch.stats.applied < after.stats.applied then change :: applied_changes env after changes
    else applied_changes env after changes

/-- Runs over journal changes, with the log of the changes that took effect. -/
inductive Logged (env : Env) (start : DriveCompactIndex) (ok : DriveCompactIndex → Prop) :
    DriveCompactIndex → List FileChange → Prop where
  | start (hok : ok start) : Logged env start ok start []
  | patch {drive : DriveCompactIndex} {log : List FileChange} (hrun : Logged env start ok drive log)
      (changes : List FileChange) (hjournal : ∀ change ∈ changes, change.FromJournal)
      (hok : ok (apply_usn_patch env drive changes).1) :
      Logged env start ok (apply_usn_patch env drive changes).1
        (log ++ applied_changes env { drive := drive } (order_parent_first changes))
  | compact {drive : DriveCompactIndex} {log : List FileChange} (hrun : Logged env start ok drive log)
      (hok : ok drive.compact_base) : Logged env start ok drive.compact_base log
  | fold_save {drive : DriveCompactIndex} {log : List FileChange} (hrun : Logged env start ok drive log)
      (hok : ok drive.fold_delta_for_save) : Logged env start ok drive.fold_delta_for_save log

/-- The last change of a record number in the log. -/
def last_applied (log : List FileChange) (frs : UInt64) : Option FileChange :=
  (log.filter (·.frs == frs)).getLast?

/-- Every mapped record number has a live slot that carries it. -/
def SlotsOwned (drive : DriveCompactIndex) : Prop :=
  ∀ f, slot_of drive f ≠ NO_ENTRY →
    ∃ rec, drive.records[(slot_of drive f).toNat]? = some rec ∧ rec.Live ∧ rec.frs = f

/-- A record number whose last change is a delete has no slot. -/
def DeletesUnmapped (drive : DriveCompactIndex) (log : List FileChange) : Prop :=
  ∀ f change, last_applied log f = some change → change.deleted = true → slot_of drive f = NO_ENTRY

/-- The record map is sound: its slots are in range, live and carry the record number they are
mapped from, no two record numbers share one, and deleted record numbers have none. -/
structure MapSound (drive : DriveCompactIndex) (log : List FileChange) : Prop where
  owned : SlotsOwned drive
  injective : ∀ f g, slot_of drive f ≠ NO_ENTRY → slot_of drive f = slot_of drive g → f = g
  deleted : DeletesUnmapped drive log

theorem SlotsOwned.injective {drive : DriveCompactIndex} (h : SlotsOwned drive) {f g : UInt64}
    (hf : slot_of drive f ≠ NO_ENTRY) (heq : slot_of drive f = slot_of drive g) : f = g := by
  obtain ⟨rec, hget, -, hfrs⟩ := h f hf
  obtain ⟨rec', hget', -, hfrs'⟩ := h g (heq ▸ hf)
  rw [← heq, hget] at hget'
  obtain rfl := Option.some.inj hget'
  exact hfrs.symm.trans hfrs'

variable {before after : DriveCompactIndex} {change : FileChange}

theorem slot_of_of_map (hmap : after.frs_to_compact = before.frs_to_compact) (f : UInt64) :
    slot_of after f = slot_of before f := by
  unfold slot_of
  rw [hmap]

theorem slot_of_unmap {before after : DriveCompactIndex} {frs : UInt64}
    (hmap : after.frs_to_compact = before.frs_to_compact.set (frs_to_usize frs) NO_ENTRY) (f : UInt64) :
    slot_of after f = if f = frs then NO_ENTRY else slot_of before f := by
  unfold slot_of
  rw [hmap, List.getElem?_set]
  by_cases hf : f = frs
  · subst hf
    rw [if_pos rfl, if_pos rfl]
    split <;> rfl
  · have hne : frs_to_usize frs ≠ frs_to_usize f := fun h => hf (UInt64.toNat.inj h.symm)
    rw [if_neg hne, if_neg hf]

theorem slot_of_map_frs {frs : UInt64} {slot : UInt32} (hmap : after.frs_to_compact = map_frs before.frs_to_compact frs slot)
    (f : UInt64) : slot_of after f = if f = frs then slot else slot_of before f := by
  unfold slot_of
  rw [hmap, getElem?_map_frs]
  by_cases hf : f = frs
  · subst hf
    rw [if_pos rfl, if_pos rfl]
    rfl
  · have hne : frs_to_usize f ≠ frs_to_usize frs := fun h => hf (UInt64.toNat.inj h)
    rw [if_neg hne, if_neg hf]
    split
    · rfl
    next hlen =>
      rw [List.getElem?_eq_none (Nat.le_of_not_lt hlen)]
      split <;> rfl

/-- One change keeps every mapped slot live and owned by its record number. -/
theorem Effect.slotsOwned {before after : Patch} (heffect : Effect change before after) (hjournal : change.FromJournal)
    (hroom : after.drive.records.length < NO_ENTRY.toNat) (h : SlotsOwned before.drive) : SlotsOwned after.drive := by
  intro f hf
  cases heffect with
  | idle hrecords hmap =>
    rw [slot_of_of_map hmap] at hf ⊢
    rw [hrecords]
    exact h f hf
  | deleted rec _ hslot _ hrecords hmap =>
    rw [slot_of_unmap hmap] at hf ⊢
    split at hf
    · exact absurd rfl hf
    next hne =>
      rw [if_neg hne, hrecords]
      obtain ⟨row, hget, hrow⟩ := h f hf
      -- Only the deleted record number owned the cleared slot.
      have hother : (slot_of before.drive change.frs).toNat ≠ (slot_of before.drive f).toNat := fun heq =>
        hne (h.injective hf (UInt32.toNat.inj heq.symm))
      exact ⟨row, by rw [List.getElem?_set_ne hother]; exact hget, hrow⟩
  | appended rec _ _ hfresh hfile hrecords hmap =>
    rw [hrecords, List.length_append, List.length_singleton] at hroom
    have hsize : UInt32.size = 4294967296 := rfl
    have hmax := NO_ENTRY_toNat
    have hnew := len_to_u32_toNat (show before.drive.records.length < UInt32.size by omega)
    rw [slot_of_map_frs hmap] at hf ⊢
    rw [hrecords]
    split at hf
    next heq =>
      rw [if_pos heq, hnew]
      refine ⟨rec, List.getElem?_concat_length, hfresh.live, ?_⟩
      rw [heq, CompactRecord.frs, hfile]
      exact frs_pack_file_reference 0 hjournal
    next hne =>
      rw [if_neg hne]
      obtain ⟨row, hget, hrow⟩ := h f hf
      exact ⟨row, by rw [List.getElem?_append_left (List.getElem?_eq_some_iff.mp hget).1]; exact hget, hrow⟩
  | rewritten rec rec' _ _ hslot hget hfresh hfile _ _ hrecords hmap =>
    rw [slot_of_of_map hmap] at hf ⊢
    rw [hrecords]
    obtain ⟨row, hrow, hlive, hfrs⟩ := h f hf
    by_cases heq : (slot_of before.drive change.frs).toNat = (slot_of before.drive f).toNat
    · rw [← heq, hget] at hrow
      obtain rfl := Option.some.inj hrow
      refine ⟨rec', ?_, hfresh.live, ?_⟩
      · rw [heq, List.getElem?_set_self]
        exact heq ▸ (List.getElem?_eq_some_iff.mp hget).1
      · rw [CompactRecord.frs, hfile]
        exact hfrs
    · exact ⟨row, by rw [List.getElem?_set_ne heq]; exact hrow, hlive, hfrs⟩

theorem Effect.slot_of_other {before after : Patch} (heffect : Effect change before after) {f : UInt64} (hf : f ≠ change.frs) :
    slot_of after.drive f = slot_of before.drive f := by
  cases heffect with
  | idle _ hmap => exact slot_of_of_map hmap f
  | deleted _ _ _ _ _ hmap => rw [slot_of_unmap hmap, if_neg hf]
  | appended _ _ _ _ _ _ hmap => rw [slot_of_map_frs hmap, if_neg hf]
  | rewritten _ _ _ _ _ _ _ _ _ _ _ hmap => exact slot_of_of_map hmap f

theorem last_applied_concat (log : List FileChange) (change : FileChange) (f : UInt64) :
    last_applied (log ++ [change]) f = if change.frs = f then some change else last_applied log f := by
  unfold last_applied
  rw [List.filter_append]
  by_cases hf : change.frs = f
  · simp [hf]
  · simp [hf]

/-- A change that does not count leaves the record map alone. -/
theorem frs_to_compact_of_not_applied {env : Env} {patch : Patch}
    (h : ¬ patch.stats.applied < (apply_change env patch change).stats.applied) :
    (apply_change env patch change).drive.frs_to_compact = patch.drive.frs_to_compact := by
  have hmap := (stage_create_staged env patch.drive change).map
  revert h
  unfold apply_change
  dsimp only
  split
  · unfold apply_delete
    split
    · exact fun _ => rfl
    · split
      · exact fun _ => rfl
      · intro h
        exact absurd h (by simp only [PatchStats.applied]; omega)
  · split
    · unfold apply_create
      split
      · exact fun _ => rfl
      · dsimp only
        split
        · intro h
          exact absurd h (by simp only [PatchStats.applied]; omega)
        · split
          · exact fun _ => hmap
          · exact fun _ => hmap
    · split
      · unfold apply_rename
        split
        · exact fun _ => rfl
        · dsimp only
          split
          · exact fun _ => hmap
          · exact fun _ => hmap
      · exact fun _ => rfl

/-- A delete that counts unmaps its record number. -/
theorem slot_of_of_applied_delete {env : Env} {patch : Patch} (hdeleted : change.deleted = true)
    (h : patch.stats.applied < (apply_change env patch change).stats.applied) :
    slot_of (apply_change env patch change).drive change.frs = NO_ENTRY := by
  revert h
  rw [apply_change, if_pos hdeleted]
  unfold apply_delete
  split
  · exact fun h => absurd h (Nat.lt_irrefl _)
  · split
    · exact fun h => absurd h (Nat.lt_irrefl _)
    · intro _
      rw [@slot_of_unmap patch.drive _ _ rfl, if_pos rfl]

/-- Deleted record numbers stay unmapped through the loop. -/
theorem deletesUnmapped_foldl (env : Env) (changes : List FileChange) (patch : Patch) (log : List FileChange)
    (h : DeletesUnmapped patch.drive log) :
    DeletesUnmapped (changes.foldl (apply_change env) patch).drive (log ++ applied_changes env patch changes) := by
  induction changes generalizing patch log with
  | nil => simpa [applied_changes] using h
  | cons change changes ih =>
    have heffect := apply_change_effect env patch change
    rw [List.foldl_cons, applied_changes]
    split
    next happlied =>
      rw [List.append_cons]
      refine ih _ _ fun f last hlast hdeleted => ?_
      rw [last_applied_concat] at hlast
      split at hlast
      next heq =>
        obtain rfl := Option.some.inj hlast
        exact heq ▸ slot_of_of_applied_delete hdeleted happlied
      next hne =>
        rw [heffect.slot_of_other fun heq => hne heq.symm]
        exact h f last hlast hdeleted
    next hidle =>
      refine ih _ _ fun f last hlast hdeleted => ?_
      rw [slot_of_of_map (frs_to_compact_of_not_applied hidle)]
      exact h f last hlast hdeleted

theorem slotsOwned_of_core (hmap : after.frs_to_compact = before.frs_to_compact)
    (hcore : SameCore before.records after.records) (h : SlotsOwned before) : SlotsOwned after := by
  intro f hf
  rw [slot_of_of_map hmap] at hf ⊢
  obtain ⟨rec, hget, hlive, hfrs⟩ := h f hf
  obtain ⟨rec', hget', hrec'⟩ := SameCore.exists_core hcore.symm hget
  refine ⟨rec', hget', (live_of_core hrec').mpr hlive, ?_⟩
  rw [CompactRecord.frs, file_ref_of_core hrec']
  exact hfrs

/-- A batch keeps the map sound. -/
theorem slotsOwned_apply_usn_patch {env : Env} {drive : DriveCompactIndex} {changes : List FileChange}
    (h : SlotsOwned drive) (hjournal : ∀ change ∈ changes, change.FromJournal)
    (hroomy : Roomy (apply_usn_patch env drive changes).1) : SlotsOwned (apply_usn_patch env drive changes).1 := by
  have hrebuilt := apply_usn_patch_rebuilt env drive changes
  unfold Roomy at hroomy
  rw [hrebuilt.length_eq] at hroomy
  have hloop : SlotsOwned (mutated env drive changes).drive :=
    run_changes_induction (motive := fun patch => SlotsOwned patch.drive) hroomy h
      fun patch change hpatch hmem hspace => by
        have hchange := hjournal change ((order_parent_first_perm changes).mem_iff.mp hmem)
        exact (apply_change_effect env patch change).slotsOwned hchange hspace hpatch
  exact slotsOwned_of_core hrebuilt.map hrebuilt.core hloop

/-- What a sound first state gives: the map stays sound along every logged run. -/
theorem Logged.mapSound {env : Env} {start drive : DriveCompactIndex} {log : List FileChange}
    (hrun : Logged env start Roomy drive log) (h : SlotsOwned start) : MapSound drive log := by
  have hboth : SlotsOwned drive ∧ DeletesUnmapped drive log := by
    induction hrun with
    | start => exact ⟨h, fun f change hlast => by cases hlast⟩
    | patch hrun changes hjournal hok ih =>
      refine ⟨slotsOwned_apply_usn_patch ih.1 hjournal hok, ?_⟩
      intro f change hlast hdeleted
      rw [slot_of_of_map (apply_usn_patch_rebuilt env _ changes).map]
      exact deletesUnmapped_foldl env _ { drive := _ } _ ih.2 f change hlast hdeleted
    | compact hrun hok ih => exact ih
    | fold_save hrun hok ih =>
      cases fold_delta_for_save_eq _ with
      | inl heq => exact heq ▸ ih
      | inr heq => exact heq ▸ ih
  exact ⟨hboth.1, fun f g hf heq => hboth.1.injective hf heq, hboth.2⟩

/-- Every mapped record has a valid path and a first name. -/
def MappedNamed (index : MftIndex) : Prop :=
  ∀ (f : Nat) (idx : UInt32), index.frs_to_idx[f]? = some idx → idx ≠ NO_ENTRY →
    ∃ record, index.records[idx.toNat]? = some record ∧
      PathResolver.is_valid_idx (PathResolver.build index) idx.toNat = true ∧ record.first_name.name.length ≠ 0

/-- The first state is sound exactly when no mapped record left a nameless row. -/
theorem slotsOwned_build_iff (env : Env) (letter : Char) (fold : CaseFold) {index : MftIndex}
    (hwf : WellFormed index) :
    SlotsOwned (build_compact_index env letter fold index) ↔ MappedNamed index := by
  obtain ⟨hcore, -, hmap⟩ := build_compact_index_columns env letter fold index
  constructor
  · intro h f idx hget hidx
    obtain ⟨record, hrecord, hfrs⟩ := hwf.mapped f idx hget hidx
    refine ⟨record, hrecord, ?_⟩
    have hslot : slot_of (build_compact_index env letter fold index) record.frs = idx := by
      unfold slot_of frs_to_usize
      rw [hmap, hfrs, hget, Option.getD_some]
    obtain ⟨row, hrow, hlive, -⟩ := h record.frs (hslot ▸ hidx)
    rw [hslot] at hrow
    obtain ⟨row0, hrow0, hcore0⟩ := SameCore.exists_core hcore hrow
    rw [expanded_rows_primary hrecord] at hrow0
    rw [← live_of_core hcore0, ← Option.some.inj hrow0] at hlive
    by_cases hvalid : PathResolver.is_valid_idx (PathResolver.build index) idx.toNat = true
    · rw [if_pos hvalid] at hlive
      exact ⟨hvalid, hlive⟩
    · rw [if_neg hvalid] at hlive
      exact absurd rfl hlive
  · intro h f hf
    have hget : ∃ idx, index.frs_to_idx[frs_to_usize f]? = some idx := by
      cases hentry : index.frs_to_idx[frs_to_usize f]? with
      | none =>
        unfold slot_of at hf
        rw [hmap, hentry] at hf
        exact absurd rfl hf
      | some idx => exact ⟨idx, rfl⟩
    obtain ⟨idx, hget⟩ := hget
    have hslot : slot_of (build_compact_index env letter fold index) f = idx := by
      unfold slot_of
      rw [hmap, hget, Option.getD_some]
    rw [hslot] at hf ⊢
    obtain ⟨record, hrecord, hvalid, hnamed⟩ := h _ idx hget hf
    obtain ⟨record', hrecord', hfrs⟩ := hwf.mapped _ idx hget hf
    rw [hrecord] at hrecord'
    obtain rfl := Option.some.inj hrecord'
    have hrow := expanded_rows_primary hrecord
    rw [if_pos hvalid] at hrow
    obtain ⟨row, hrow', hcore'⟩ := SameCore.exists_core hcore.symm hrow
    refine ⟨row, hrow', (live_of_core hcore').mpr hnamed, ?_⟩
    rw [CompactRecord.frs, file_ref_of_core hcore']
    refine (frs_pack_file_reference _ (hwf.frs_lt record (List.mem_of_getElem? hrecord))).trans ?_
    exact UInt64.toNat.inj hfrs

/-- The record map is sound along every run if and only if the table maps named records with a
valid path only: a system file or an orphan keeps its entry although its row is a placeholder. -/
theorem map_sound_iff_mapped_named (env : Env) (letter : Char) (fold : CaseFold) {index : MftIndex}
    (hwf : WellFormed index) (hroom : (expanded_rows index).2.length < NO_ENTRY.toNat) :
    (∀ drive log, Logged env (build_compact_index env letter fold index) Roomy drive log → MapSound drive log) ↔
      MappedNamed index := by
  rw [← slotsOwned_build_iff env letter fold hwf]
  constructor
  · intro h
    exact (h _ [] (Logged.start (roomy_build hroom env letter fold))).owned
  · intro h drive log hrun
    exact hrun.mapSound h

theorem map_sound_iff_mapped_named_dirs :
    WellFormed dirs_mft ∧ (expanded_rows dirs_mft).2.length < NO_ENTRY.toNat ∧
      ((∀ drive log, Logged sample_env (build_compact_index sample_env 'C' ⟨[]⟩ dirs_mft) Roomy drive log →
        MapSound drive log) ↔ MappedNamed dirs_mft) :=
  ⟨dirs_mft_wellFormed, by decide,
    map_sound_iff_mapped_named sample_env 'C' ⟨[]⟩ dirs_mft_wellFormed (by decide)⟩

/-- On the volume with `$MFT` record number 0 is mapped to a row without a name from the start. -/
theorem map_not_sound_metafile :
    WellFormed metafile_mft ∧
      Logged sample_env (build_compact_index sample_env 'C' ⟨[]⟩ metafile_mft) Roomy
        (build_compact_index sample_env 'C' ⟨[]⟩ metafile_mft) [] ∧
      ¬ MapSound (build_compact_index sample_env 'C' ⟨[]⟩ metafile_mft) [] := by
  have hroomy := @roomy_build metafile_mft (by decide) sample_env 'C' ⟨[]⟩
  refine ⟨metafile_mft_wellFormed, Logged.start hroomy, fun h => ?_⟩
  have hnamed := (slotsOwned_build_iff sample_env 'C' ⟨[]⟩ metafile_mft_wellFormed).mp h.owned
  obtain ⟨record, hrecord, hvalid, -⟩ := hnamed 0 0 rfl (by decide)
  exact absurd hvalid (by decide)

end uffs.usn
