import Uffs.Usn.Overlay

open uffs.lib uffs.mft uffs.text uffs.bloom uffs.trigram uffs.compact

namespace uffs.usn

theorem rowFits_of_core {a b : CompactRecord} (h : a.core = b.core) {names : List UInt8} (hfits : RowFits names a) :
    RowFits names b := fun hlive => (inRange_of_core h names).mp (hfits ((live_of_core h).mpr hlive))

/-- Live rows stay inside the blob through a batch. -/
theorem Loop.fits {start : DriveCompactIndex} {patch : Patch} (hloop : Loop start patch)
    (hfits : ∀ rec ∈ start.records, RowFits start.names rec) :
    ∀ rec ∈ patch.drive.records, RowFits patch.drive.names rec := by
  intro rec hmem
  obtain ⟨c, hget⟩ := List.getElem?_of_mem hmem
  obtain ⟨tail, htail⟩ := hloop.names
  cases hloop.slot c rec hget with
  | inl h => exact htail ▸ (hfits rec (List.mem_of_getElem? h.1)).append tail
  | inr h =>
    cases h with
    | inl h => exact fun hlive => absurd hlive h.1
    | inr h => exact fun _ => h.2.1

theorem fits_of_core {records records' : List CompactRecord} {names : List UInt8} (hcore : SameCore records records')
    (hfits : ∀ rec ∈ records, RowFits names rec) : ∀ rec ∈ records', RowFits names rec := by
  intro rec hmem
  obtain ⟨c, hget⟩ := List.getElem?_of_mem hmem
  obtain ⟨rec0, hget0, hrec0⟩ := SameCore.exists_core hcore hget
  exact rowFits_of_core hrec0 (hfits rec0 (List.mem_of_getElem? hget0))

variable {drive : DriveCompactIndex} {base : List CompactRecord}

/-- Fresh tables over rows that agree with the current ones up to path lengths. -/
theorem overlayInv_fresh (hdelta : drive.delta = none)
    (hchildren : drive.children = ChildrenIndex.build base) (hext : drive.ext_index = ExtensionIndex.build base)
    (htrigram : drive.trigram = TrigramIndex.build base drive.names drive.fold) (hcore : SameCore base drive.records)
    (hfits : ∀ rec ∈ base, RowFits drive.names rec)
    (hparents : ∀ rec ∈ base, rec.parent_idx = NO_ENTRY ∨ rec.parent_idx.toNat < base.length) :
    OverlayInv drive base drive.names := by
  refine ⟨?_, fun _ => ⟨hcore, rfl⟩⟩
  rw [hdelta, Option.getD_none]
  refine ⟨hchildren, hext, htrigram, Nat.le_of_eq hcore.length_eq.symm, ⟨[], (List.append_nil _).symm⟩, hfits,
    hparents, fits_of_core hcore hfits, IndexDelta.sorted_empty, fun c rec hget _ => ?_⟩
  exact Or.inl ⟨SameCore.exists_core hcore hget, by simp, fun key => by simp⟩

theorem Added.transport {before after : DriveCompactIndex} {delta : IndexDelta} {c : UInt32}
    {rec rec' : CompactRecord} (h : Added before delta c rec) (hcore : rec.core = rec'.core)
    (hgrams : record_trigrams after.names after.fold rec' = record_trigrams before.names before.fold rec) :
    Added after delta c rec' :=
  ⟨extension_id_of_core hcore ▸ h.ext, parent_idx_of_core hcore ▸ h.children, fun key hkey =>
    h.trigram key (hgrams ▸ hkey)⟩

theorem toNat_eq_of_adds {patch : Patch} {c : UInt32} (h : patch.Adds c.toNat) :
    ∃ change ∈ patch.path_changes, change.idx = c := by
  obtain ⟨change, hmem, hidx⟩ := h
  exact ⟨change, hmem, UInt32.toNat.inj hidx⟩

/-- A batch that goes to the overlay keeps the invariant: rewritten rows are re-added under their
final contents, and a live row the batch left alone is neither masked nor added. -/
theorem Overlaid.batch {drive result : DriveCompactIndex} {base_names : List UInt8}
    {delta : IndexDelta} {patch : Patch} (h : Overlaid drive base base_names delta)
    (hloop : Loop drive patch) (hrebuilt : Rebuilt patch.drive result patch.path_changes patch.tombstones)
    (htrigram : result.trigram = patch.drive.trigram) (hchildren : result.children = patch.drive.children)
    (hext : result.ext_index = patch.drive.ext_index) :
    Overlaid result base base_names (patch.path_changes.foldl patch.drive.overlay_add
      (patch.tombstones.foldl IndexDelta.tombstone delta)) := by
  have htables := hloop.tables
  obtain ⟨tail, htail⟩ := hloop.names
  obtain ⟨earlier, hearlier⟩ := h.names
  have hfold : result.fold = drive.fold := hrebuilt.fold.trans htables.fold
  obtain ⟨hmaskTrigram, hmaskLe⟩ := foldl_tombstone_postings delta patch.tombstones
  have hle : DeltaLe delta (patch.path_changes.foldl patch.drive.overlay_add
      (patch.tombstones.foldl IndexDelta.tombstone delta)) :=
    foldl_invariant (motive := DeltaLe delta) hmaskLe fun s change _ hs => hs.trans (overlay_add_le patch.drive s change)
  refine ⟨hchildren.trans (htables.children.trans h.children), hext.trans (htables.ext_index.trans h.ext_index),
    ?_, ?_, ⟨earlier ++ tail, by rw [hrebuilt.names, htail, hearlier, List.append_assoc]⟩, h.base_fits,
    h.base_parents, ?_, ?_, fun c rec hget hlive => ?_⟩
  · rw [htrigram, htables.trigram, h.trigram, hfold]
  · rw [hrebuilt.length_eq]
    exact h.length.trans hloop.length
  · rw [hrebuilt.names]
    exact fits_of_core hrebuilt.core (hloop.fits h.fits)
  · exact foldl_invariant (foldl_tombstone_sorted h.sorted patch.tombstones) fun s change _ hs =>
      overlay_add_sorted patch.drive hs change
  · obtain ⟨recM, hgetM, hcore⟩ := SameCore.exists_core hrebuilt.core hget
    have hliveM : recM.Live := (live_of_core hcore).mpr hlive
    cases hloop.slot c.toNat recM hgetM with
    | inl hkept =>
      obtain ⟨hstart, hadds, hmasks⟩ := hkept
      have hrowFits := h.fits recM (List.mem_of_getElem? hstart)
      cases h.slot c recM hstart hliveM with
      | inl huntouched =>
        left
        obtain ⟨rec0, hget0, hrec0⟩ := huntouched.same
        refine ⟨⟨rec0, hget0, hrec0.trans hcore⟩, ?_, fun key => ?_⟩
        · have htombs : (patch.path_changes.foldl patch.drive.overlay_add
              (patch.tombstones.foldl IndexDelta.tombstone delta)).tombstones =
              (patch.tombstones.foldl IndexDelta.tombstone delta).tombstones :=
            foldl_invariant (motive := fun d => d.tombstones =
                (patch.tombstones.foldl IndexDelta.tombstone delta).tombstones) rfl
              fun s change _ hs => (overlay_add_tombstones patch.drive s change).trans hs
          rw [htombs, mem_foldl_tombstone]
          rintro (hmem | hmem)
          · exact hmasks ⟨c, hmem, rfl⟩
          · exact huntouched.unmasked hmem
        · refine foldl_invariant (motive := fun d : IndexDelta => c ∉ d.trigram key) ?_ fun s change hchange hs hmem => ?_
          · rw [hmaskTrigram]
            exact huntouched.trigram key
          · cases mem_trigram_overlay_add hmem with
            | inl hidx => exact hadds ⟨change, hchange, by rw [hidx]⟩
            | inr hold => exact hs hold
      | inr hadded =>
        right
        refine (hadded.mono hle).transport hcore ?_
        rw [hrebuilt.names, htail, hfold, ← record_trigrams_of_core hcore,
          record_trigrams_append hrowFits hliveM]
    | inr hchanged =>
      cases hchanged with
      | inl hdead => exact absurd hliveM hdead.1
      | inr hfresh =>
        right
        obtain ⟨change, hmem, rfl⟩ := toNat_eq_of_adds hfresh.2.2
        have hadded : Added patch.drive (patch.path_changes.foldl patch.drive.overlay_add
            (patch.tombstones.foldl IndexDelta.tombstone delta)) change.idx recM :=
          foldl_reaches (motive := fun d => Added patch.drive d change.idx recM) hmem
            (fun s => overlay_add_added s hgetM hliveM)
            fun s other hs => hs.mono (overlay_add_le patch.drive s other)
        refine hadded.transport hcore ?_
        rw [hrebuilt.names, hrebuilt.fold, ← record_trigrams_of_core hcore]

/-- A batch keeps the overlay invariant, whether it is overlaid or compacted. -/
theorem overlayInv_apply_usn_patch {env : Env} {base_names : List UInt8}
    {changes : List FileChange} (h : OverlayInv drive base base_names) (hlinked : Linked drive.records drive.frs_to_compact)
    (hroom : (apply_usn_patch env drive changes).1.records.length < UInt32.size) :
    ∃ base' base_names', OverlayInv (apply_usn_patch env drive changes).1 base' base_names' ∧
      ((apply_usn_patch env drive changes).1.delta ≠ none → base' = base ∧ base_names' = base_names) := by
  have hrebuilt := apply_usn_patch_rebuilt env drive changes
  have hroom' : (mutated env drive changes).drive.records.length < UInt32.size := hrebuilt.length_eq ▸ hroom
  have hloop : Loop drive (mutated env drive changes) := run_changes_loop hroom'
  have hlinked' := linked_apply_usn_patch hlinked hroom
  generalize apply_usn_patch env drive changes = out at *
  generalize mutated env drive changes = patch at *
  cases hrebuilt.tables with
  | inl hcompacted =>
    obtain ⟨hdelta, htrigram, hchildren, hext⟩ := hcompacted
    refine ⟨patch.drive.records, out.1.names, overlayInv_fresh hdelta hchildren hext ?_ hrebuilt.core ?_ ?_,
      fun h => absurd hdelta h⟩
    · rw [htrigram, hrebuilt.names, hrebuilt.fold]
      rfl
    · rw [hrebuilt.names]
      exact hloop.fits h.1.fits
    · intro rec hmem
      obtain ⟨c, hget⟩ := List.getElem?_of_mem hmem
      obtain ⟨rec', hget', hcore⟩ : ∃ rec', out.1.records[c]? = some rec' ∧ rec'.core = rec.core := by
        have hsame := hrebuilt.core.getElem? c
        rw [hget, Option.map_some] at hsame
        exact Option.map_eq_some_iff.mp hsame
      have hparent := hlinked'.parents rec' (List.mem_of_getElem? hget')
      rwa [parent_idx_of_core hcore, hrebuilt.length_eq] at hparent
  | inr hoverlaid =>
    obtain ⟨hdelta, htrigram, hchildren, hext⟩ := hoverlaid
    refine ⟨base, base_names, ⟨?_, fun hnone => ?_⟩, fun _ => ⟨rfl, rfl⟩⟩
    · rw [hdelta, Option.getD_some]
      have hold : patch.drive.delta.getD {} = drive.delta.getD {} := by rw [hloop.tables.delta]
      rw [hold]
      exact h.1.batch hloop hrebuilt htrigram hchildren hext
    · rw [hdelta] at hnone
      cases hnone

theorem overlayInv_compact_base (hlinked : Linked drive.records drive.frs_to_compact)
    (hfits : ∀ rec ∈ drive.records, RowFits drive.names rec) : OverlayInv drive.compact_base drive.records drive.names :=
  overlayInv_fresh rfl rfl rfl rfl (SameCore.refl _) hfits hlinked.parents

theorem overlayInv_build {index : MftIndex} (hwf : WellFormed index) (env : Env) (letter : Char) (fold : CaseFold) :
    OverlayInv (build_compact_index env letter fold index) (build_compact_index env letter fold index).records
      (build_compact_index env letter fold index).names := by
  obtain ⟨hcore, hnames, -⟩ := build_compact_index_columns env letter fold index
  refine overlayInv_fresh rfl rfl rfl rfl (SameCore.refl _) ?_ ((linked_expanded_rows hwf).of_core hcore).parents
  rw [hnames]
  exact fits_of_core hcore (expanded_rows_fits hwf)

/-- The overlay invariant holds in every state of a run. -/
theorem Reachable.overlayInv {env : Env} {letter : Char} {fold : CaseFold} {index : MftIndex} (hwf : WellFormed index)
    {P : DriveCompactIndex → Prop} (hP : ∀ drive, P drive → Roomy drive)
    (hreach : Reachable env (build_compact_index env letter fold index) P drive) :
    Linked drive.records drive.frs_to_compact ∧ ∃ base base_names, OverlayInv drive base base_names := by
  refine hreach.induction (motive := fun drive => Linked drive.records drive.frs_to_compact ∧
    ∃ base base_names, OverlayInv drive base base_names) ?_ ?_ ?_
  · intro hok
    exact ⟨Reachable.linked hwf hP (Reachable.start hok), _, _, overlayInv_build hwf env letter fold⟩
  · rintro drive changes ⟨hlinked, base, base_names, h⟩ hok
    have hroom := (hP _ hok).lt_size
    obtain ⟨base', base_names', h', -⟩ := overlayInv_apply_usn_patch h hlinked hroom
    exact ⟨linked_apply_usn_patch hlinked hroom, base', base_names', h'⟩
  · rintro drive ⟨hlinked, base, base_names, h⟩
    exact ⟨hlinked, _, _, overlayInv_compact_base hlinked h.1.fits⟩

end uffs.usn
