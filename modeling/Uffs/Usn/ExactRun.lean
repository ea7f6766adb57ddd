import Uffs.Usn.Exact

open uffs.mft uffs.text uffs.bloom uffs.compact

namespace uffs.usn

/-- Children and extension lookups are exact, and unchanged by folding the overlay, in every state
of every run, if and only if the table the run starts from leaves no stray row: a record with an
invalid path leaves a nameless row under slot 0, which a freshly built children table lists. -/
theorem overlay_exact_iff_no_stray_rows (env : Env) (letter : Char) (fold : CaseFold) {index : MftIndex}
    (hwf : WellFormed index) (hroom : (expanded_rows index).2.length < NO_ENTRY.toNat) :
    (∀ drive, Reachable env (build_compact_index env letter fold index) Roomy drive → OverlayExact drive) ↔
      NoStrayRows index := by
  obtain ⟨hcore, -, -⟩ := build_compact_index_columns env letter fold index
  have hstart := roomy_build hroom env letter fold
  have hstate : ∀ drive, Reachable env (build_compact_index env letter fold index) Roomy drive →
      (OverlayExact drive ↔ Detached drive.records) := fun drive hreach => by
    obtain ⟨hlinked, base, base_names, hinv⟩ := hreach.overlayInv hwf fun _ h => h
    exact overlayExact_iff_detached hinv hlinked hreach.ok
  rw [← detached_expanded_rows_iff]
  constructor
  · intro h
    have hfirst : Reachable env (build_compact_index env letter fold index) Roomy
        (build_compact_index env letter fold index) := Reachable.start hstart
    exact detached_of_core hcore.symm ((hstate _ hfirst).mp (h _ hfirst))
  · intro h drive hreach
    exact (hstate drive hreach).mpr (hreach.detached (fun _ h => h) (detached_of_core hcore h))

theorem overlay_exact_iff_no_stray_rows_dirs :
    WellFormed dirs_mft ∧ (expanded_rows dirs_mft).2.length < NO_ENTRY.toNat ∧
      ((∀ drive, Reachable sample_env (build_compact_index sample_env 'C' ⟨[]⟩ dirs_mft) Roomy drive →
        OverlayExact drive) ↔ NoStrayRows dirs_mft) :=
  ⟨dirs_mft_wellFormed, by decide,
    overlay_exact_iff_no_stray_rows sample_env 'C' ⟨[]⟩ dirs_mft_wellFormed (by decide)⟩

/-- On the volume with `$MFT` the fresh index already lists the nameless slot 0 as its own child. -/
theorem overlay_not_exact_metafile :
    WellFormed metafile_mft ∧ Roomy (build_compact_index sample_env 'C' ⟨[]⟩ metafile_mft) ∧
      ¬ OverlayExact (build_compact_index sample_env 'C' ⟨[]⟩ metafile_mft) := by
  obtain ⟨hcore, -, -⟩ := build_compact_index_columns sample_env 'C' ⟨[]⟩ metafile_mft
  have hroomy := @roomy_build metafile_mft (by decide) sample_env 'C' ⟨[]⟩
  have hlinked := (linked_expanded_rows metafile_mft_wellFormed).of_core hcore
  have hinv := overlayInv_build metafile_mft_wellFormed sample_env 'C' ⟨[]⟩
  refine ⟨metafile_mft_wellFormed, hroomy, fun hexact => ?_⟩
  have hdetached := detached_of_core hcore.symm ((overlayExact_iff_detached hinv hlinked hroomy).mp hexact)
  have hstray := (detached_expanded_rows_iff metafile_mft).mp hdetached 0 _ rfl
  exact absurd hstray.1 (by decide)

end uffs.usn
