import Uffs.Usn.Coalesce

open uffs.mft uffs.text uffs.bloom uffs.compact

namespace uffs.usn

/-- The net effect of the changes is there already: what they delete is absent, and what they
write has its row under that name and that parent. -/
def NetPresent (drive : DriveCompactIndex) (changes : List FileChange) : Prop :=
  ∀ f last parent, last_effect (labels_of (cell drive)) (order_parent_first changes) f = some (last, parent) →
    view drive f = if last.deleted then none else some (stored_name last.filename, parent)

/-- The metadata that the changes carry for a file is the one its row has. -/
def CarriesOwn (drive : DriveCompactIndex) (changes : List FileChange) : Prop :=
  ∀ f last parent, last_effect (labels_of (cell drive)) (order_parent_first changes) f = some (last, parent) →
    last.deleted = false → ∀ seen columns, live_view drive f = some (seen, columns) →
      carried (order_parent_first changes) f columns = columns

theorem live_view_map_fst (drive : DriveCompactIndex) (f : UInt64) : (live_view drive f).map Prod.fst = view drive f := by
  rw [view_eq_cell, live_view]
  cases cell drive f with
  | none => rfl
  | some c => cases hseen : c.seen <;> simp [hseen]

/-- The live view after a patch, by the last change of the file that takes effect. -/
theorem patch_live_view {env : Env} {drive : DriveCompactIndex} (h : Placed drive) {changes : List FileChange}
    (hfits : Fits (apply_usn_patch env drive changes).1) (f : UInt64) :
    live_view (apply_usn_patch env drive changes).1 f =
      match last_effect (labels_of (cell drive)) (order_parent_first changes) f with
      | none => live_view drive f
      | some (last, parent) =>
        if last.deleted then none
        else some ((stored_name last.filename, parent),
          carried (order_parent_first changes) f ((cell drive f).elim {} Cell.columns)) := by
  obtain ⟨-, hcells⟩ := h.patch_cells hfits
  rw [live_view, hcells]
  cases hlast : last_effect (labels_of (cell drive)) (order_parent_first changes) f with
  | none => rw [replay_of_no_effect hlast, live_view]
  | some effect =>
    obtain ⟨last, parent⟩ := effect
    obtain ⟨hgone, hwritten⟩ := replay_of_effect hlast
    dsimp only
    cases hdeleted : last.deleted with
    | true =>
      rw [hgone hdeleted]
      rfl
    | false =>
      obtain ⟨c, hc, hseen, hcolumns⟩ := hwritten hdeleted
      rw [hc, Option.bind_some, hseen, hcolumns]
      rfl

theorem overlap_harmless_iff {env : Env} {drive : DriveCompactIndex} (h : Placed drive) {changes : List FileChange}
    (hfits : Fits (apply_usn_patch env drive changes).1) :
    (∀ f, live_view (apply_usn_patch env drive changes).1 f = live_view drive f) ↔
      NetPresent drive changes ∧ CarriesOwn drive changes := by
  constructor
  · intro hsame
    refine ⟨?_, ?_⟩
    · intro f last parent hlast
      have hview := hsame f
      rw [patch_live_view h hfits, hlast] at hview
      dsimp only at hview
      rw [← live_view_map_fst, ← hview]
      split_ifs <;> rfl
    · intro f last parent hlast hdeleted seen columns hlive
      have hview := hsame f
      rw [patch_live_view h hfits, hlast] at hview
      dsimp only at hview
      rw [if_neg (by simp [hdeleted]), hlive, Option.some.injEq, Prod.mk.injEq] at hview
      obtain ⟨c, hc, hseen⟩ := Option.bind_eq_some_iff.mp hlive
      obtain ⟨s, -, hpair⟩ := Option.map_eq_some_iff.mp hseen
      cases hpair
      rw [hc, Option.elim_some] at hview
      exact hview.2
  · rintro ⟨hpresent, howns⟩ f
    rw [patch_live_view h hfits]
    cases hlast : last_effect (labels_of (cell drive)) (order_parent_first changes) f with
    | none => rfl
    | some effect =>
      obtain ⟨last, parent⟩ := effect
      have hview := hpresent f last parent hlast
      rw [← live_view_map_fst] at hview
      dsimp only
      cases hdeleted : last.deleted with
      | true =>
        rw [hdeleted, if_pos rfl, Option.map_eq_none_iff] at hview
        rw [if_pos rfl, hview]
      | false =>
        rw [hdeleted, if_neg (by simp)] at hview
        obtain ⟨⟨seen, columns⟩, hlive, hseen⟩ := Option.map_eq_some_iff.mp hview
        have hcarried := howns f last parent hlast hdeleted seen columns hlive
        obtain ⟨c, hc, hc'⟩ := Option.bind_eq_some_iff.mp hlive
        obtain ⟨s, -, hpair⟩ := Option.map_eq_some_iff.mp hc'
        cases hpair
        rw [if_neg (by simp), hlive, hc, Option.elim_some, hcarried]
        rw [← hseen]

/-- For every state of the volume and every list of changes: the patch leaves the live view of the
index as it is if and only if the net effect of the changes is in the index already, and the
metadata they carry for a file is the one its row has. -/
theorem overlap_harmless_iff_carries_own {env : Env} {letter : Char} {fold : CaseFold} {index : MftIndex} (hwf : WellFormed index)
    (hroomy : Roomy (build_compact_index env letter fold index)) (changes : List FileChange)
    (hfits : Fits (apply_usn_patch env (build_compact_index env letter fold index) changes).1) :
    (∀ f, live_view (apply_usn_patch env (build_compact_index env letter fold index) changes).1 f =
        live_view (build_compact_index env letter fold index) f) ↔
      NetPresent (build_compact_index env letter fold index) changes ∧
        CarriesOwn (build_compact_index env letter fold index) changes :=
  overlap_harmless_iff (Reachable.placed hwf (Reachable.start hroomy)) hfits

/-- A directory in the root, and a file of seven bytes in it. -/
def file_mft : MftIndex where
  records := [
    { frs := 5, first_name := { name := { offset := 0, bits := 1 }, parent_frs := 5 } },
    { frs := 16, stdinfo := { flags := 0x10 }, first_name := { name := { offset := 1, bits := 1 }, parent_frs := 5 },
      descendants := 2, treesize := 7 },
    { frs := 17, stdinfo := { modified := 3 }, first_name := { name := { offset := 2, bits := 1 }, parent_frs := 16 },
      first_stream := { size := { length := 7, allocated := 8 } }, treesize := 7, tree_allocated := 8 }]
  frs_to_idx := [NO_ENTRY, NO_ENTRY, NO_ENTRY, NO_ENTRY, NO_ENTRY, 0, NO_ENTRY, NO_ENTRY, NO_ENTRY, NO_ENTRY, NO_ENTRY, NO_ENTRY,
    NO_ENTRY, NO_ENTRY, NO_ENTRY, NO_ENTRY, 1, 2]
  names := as_bytes ['.', 'd', 'a']

theorem file_mft_wellFormed : WellFormed file_mft :=
  ⟨mapped_of_zipIdx (by decide), by decide, by decide, by decide⟩

/-- The file's rename and its create, as the journal reports them again. -/
def renamed_again : FileChange where
  frs := 17
  parent_frs := 16
  filename := ['a']
  renamed := true

def created_again : FileChange where
  frs := 17
  parent_frs := 16
  filename := ['a']
  created := true

theorem file_mft_fits {change : FileChange} (hbytes : (as_bytes change.filename).length ≤ 1) :
    Fits (apply_usn_patch sample_env (sample_index file_mft) [change]).1 := by
  obtain ⟨hcore, hnames, -⟩ := build_compact_index_columns sample_env 'C' ⟨[]⟩ file_mft
  have hrows : (sample_index file_mft).records.length ≤ 3 := by
    rw [hcore.length_eq]
    decide
  have hblob : (sample_index file_mft).names.length ≤ 3 := by
    rw [hnames]
    decide
  generalize sample_index file_mft = drive at *
  have hsize := @Applied.size sample_env drive _ [change] 1 (apply_usn_patch_rebuilt _ _ _) (by simpa using hbytes)
  have hmax := NO_ENTRY_toNat
  have hwidth : UInt32.size = 4294967296 := rfl
  rw [List.length_singleton] at hsize
  exact ⟨by omega, by omega⟩

/-- A single change of the file whose net effect is in its row. -/
theorem file_mft_netPresent {change : FileChange} (horder : order_parent_first [change] = [change]) (hfrs : change.frs = 17)
    (hview : view (sample_index file_mft) 17 =
      if change.deleted then none
      else some (stored_name change.filename, labels_of (cell (sample_index file_mft)) change.parent_frs)) :
    NetPresent (sample_index file_mft) [change] := by
  intro f last parent hlast
  rw [horder, last_effect, last_effect, Option.none_or] at hlast
  split_ifs at hlast with hthis
  cases hlast
  obtain rfl : change.frs = f := by simpa using And.left (Bool.and_eq_true_iff.mp hthis)
  rw [hfrs]
  exact hview

/-- The rename of the file to the name it has, without metadata, changes nothing. -/
theorem overlap_harmless_iff_carries_own_rename :
    WellFormed file_mft ∧ ∀ f, live_view (apply_usn_patch sample_env (build_compact_index sample_env 'C' ⟨[]⟩ file_mft) [renamed_again]).1 f =
      live_view (build_compact_index sample_env 'C' ⟨[]⟩ file_mft) f := by
  refine ⟨file_mft_wellFormed, ?_⟩
  apply (overlap_harmless_iff_carries_own file_mft_wellFormed (roomy_build (by decide) _ _ _) [renamed_again]
    (file_mft_fits (by decide))).mpr
  have horder : order_parent_first [renamed_again] = [renamed_again] := by decide
  refine ⟨file_mft_netPresent horder rfl (by decide), ?_⟩
  intro f last parent hlast hdeleted seen columns hlive
  rw [horder, carried]
  by_cases hf : renamed_again.frs = f
  · subst hf
    rfl
  · rw [List.filter_cons_of_neg (by simp [hf])]
    rfl

/-- The create of a file that is there, replayed without metadata, clears its size and its times. -/
theorem overlap_create_clears_columns :
    NetPresent (build_compact_index sample_env 'C' ⟨[]⟩ file_mft) [created_again] ∧
      ∃ f, live_view (apply_usn_patch sample_env (build_compact_index sample_env 'C' ⟨[]⟩ file_mft) [created_again]).1 f ≠
        live_view (build_compact_index sample_env 'C' ⟨[]⟩ file_mft) f := by
  refine ⟨file_mft_netPresent (by decide) rfl (by decide), 17, ?_⟩
  decide

end uffs.usn
