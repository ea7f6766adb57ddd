import Uffs.Usn.Loop
import Uffs.Compact.Builder

open uffs.lib uffs.mft uffs.bloom uffs.compact

namespace uffs.usn

/-- One operation on a loaded index: a journal batch, a compaction, or the fold before a save. -/
inductive Step (env : Env) (drive : DriveCompactIndex) : DriveCompactIndex → Prop where
  | patch (changes : List FileChange) : Step env drive (apply_usn_patch env drive changes).1
  | compact : Step env drive drive.compact_base
  | fold_save : Step env drive drive.fold_delta_for_save

/-- States of a run that starts in `start` and stays within `ok`. -/
inductive Reachable (env : Env) (start : DriveCompactIndex) (ok : DriveCompactIndex → Prop) :
    DriveCompactIndex → Prop where
  | start (hok : ok start) : Reachable env start ok start
  | step {drive next : DriveCompactIndex} (hreach : Reachable env start ok drive)
      (hstep : Step env drive next) (hok : ok next) : Reachable env start ok next

theorem Reachable.ok {env : Env} {start drive : DriveCompactIndex} {P : DriveCompactIndex → Prop}
    (hreach : Reachable env start P drive) : P drive := by
  cases hreach with
  | start hok => exact hok
  | step _ _ hok => exact hok

/-- The capacity the index is designed for: slot numbers stay below the sentinel. -/
def Roomy (drive : DriveCompactIndex) : Prop := drive.records.length < NO_ENTRY.toNat

variable {drive : DriveCompactIndex}

theorem Roomy.lt_size (hroomy : Roomy drive) : drive.records.length < UInt32.size := by
  unfold Roomy at hroomy
  rw [NO_ENTRY_toNat] at hroomy
  have hsize : UInt32.size = 4294967296 := rfl
  omega

theorem roomy_compact_base (hroomy : Roomy drive) : Roomy drive.compact_base := hroomy

/-- What the rebuild after a batch does: the overlay takes the change sets in, or the tables are
rebuilt from the mutated rows; besides that only path lengths change. -/
structure Rebuilt (mutated result : DriveCompactIndex) (path_changes : List PathChange)
    (tombstones : List UInt32) : Prop where
  letter : result.letter = mutated.letter
  names : result.names = mutated.names
  fold : result.fold = mutated.fold
  ext_names : result.ext_names = mutated.ext_names
  source_epoch : result.source_epoch = mutated.source_epoch
  bloom : result.bloom = mutated.bloom
  path_trie : result.path_trie = mutated.path_trie
  map : result.frs_to_compact = mutated.frs_to_compact
  core : SameCore mutated.records result.records
  tables : (result.delta = none ∧ result.trigram = (mutated.compact_base).trigram ∧
      result.children = (mutated.compact_base).children ∧ result.ext_index = (mutated.compact_base).ext_index) ∨
    (result.delta = some (path_changes.foldl mutated.overlay_add
        (tombstones.foldl IndexDelta.tombstone (mutated.delta.getD {}))) ∧
      result.trigram = mutated.trigram ∧ result.children = mutated.children ∧
      result.ext_index = mutated.ext_index)

theorem apply_index_delta_eq (drive : DriveCompactIndex) (adds : List PathChange) (tombstones : List UInt32) :
    (drive.apply_index_delta adds tombstones).1 = drive.compact_base ∨
      (drive.apply_index_delta adds tombstones).1 = { drive with delta := some (adds.foldl drive.overlay_add
        (tombstones.foldl IndexDelta.tombstone (drive.delta.getD {}))) } := by
  unfold DriveCompactIndex.apply_index_delta
  dsimp only
  split
  · exact Or.inl rfl
  · exact Or.inr rfl

section

variable (drive) (path_changes : List PathChange) (tombstones : List UInt32)

theorem rebuild_derived_eq :
    ∃ records, SameCore (drive.apply_index_delta path_changes tombstones).1.records records ∧
      rebuild_derived drive path_changes tombstones =
        { (drive.apply_index_delta path_changes tombstones).1 with records := records } := by
  unfold rebuild_derived
  split
  · exact ⟨_, sameCore_compute_path_lengths _ _, rfl⟩
  · exact ⟨_, sameCore_update_path_lengths_incremental _ _ _ _ _, rfl⟩

variable {drive path_changes tombstones} in
/-- Whatever path lengths the rebuild writes, the rest is the overlaid index. -/
theorem Rebuilt.of_core {records : List CompactRecord}
    (hcore : SameCore (drive.apply_index_delta path_changes tombstones).1.records records) :
    Rebuilt drive { (drive.apply_index_delta path_changes tombstones).1 with records := records } path_changes tombstones := by
  cases apply_index_delta_eq drive path_changes tombstones with
  | inl h =>
    rw [h] at hcore ⊢
    exact ⟨rfl, rfl, rfl, rfl, rfl, rfl, rfl, rfl, hcore, Or.inl ⟨rfl, rfl, rfl, rfl⟩⟩
  | inr h =>
    rw [h] at hcore ⊢
    exact ⟨rfl, rfl, rfl, rfl, rfl, rfl, rfl, rfl, hcore, Or.inr ⟨rfl, rfl, rfl, rfl⟩⟩

theorem rebuild_derived_rebuilt : Rebuilt drive (rebuild_derived drive path_changes tombstones) path_changes tombstones := by
  obtain ⟨records, hcore, heq⟩ := rebuild_derived_eq drive path_changes tombstones
  rw [heq]
  exact Rebuilt.of_core hcore

end

/-- The rows a batch leaves, before the rebuild. -/
def mutated (env : Env) (drive : DriveCompactIndex) (changes : List FileChange) : Patch :=
  run_changes env drive (order_parent_first changes)

theorem apply_usn_patch_rebuilt (env : Env) (drive : DriveCompactIndex) (changes : List FileChange) :
    Rebuilt (mutated env drive changes).drive (apply_usn_patch env drive changes).1
      (mutated env drive changes).path_changes (mutated env drive changes).tombstones := by
  have heq : (apply_usn_patch env drive changes).1 = rebuild_derived (mutated env drive changes).drive
      (mutated env drive changes).path_changes (mutated env drive changes).tombstones := by
    simp only [apply_usn_patch, mutated]
  rw [heq]
  exact rebuild_derived_rebuilt _ _ _

theorem Rebuilt.length_eq {mutated result : DriveCompactIndex} {path_changes : List PathChange}
    {tombstones : List UInt32} (h : Rebuilt mutated result path_changes tombstones) :
    result.records.length = mutated.records.length :=
  h.core.length_eq

theorem fold_delta_for_save_eq (drive : DriveCompactIndex) :
    drive.fold_delta_for_save = drive ∨ drive.fold_delta_for_save = drive.compact_base := by
  unfold DriveCompactIndex.fold_delta_for_save
  split
  · exact Or.inr rfl
  · exact Or.inl rfl

/-- Rule of invariants for runs: it holds of the first state, a batch keeps it through the
mutation loop and the rebuild, and a compaction keeps it. -/
theorem Reachable.induction {env : Env} {start : DriveCompactIndex} {P : DriveCompactIndex → Prop}
    {motive : DriveCompactIndex → Prop} (hstart : P start → motive start)
    (hpatch : ∀ drive changes, motive drive → P (apply_usn_patch env drive changes).1 →
      motive (apply_usn_patch env drive changes).1)
    (hcompact : ∀ drive, motive drive → motive drive.compact_base) (hreach : Reachable env start P drive) : motive drive := by
  induction hreach with
  | start hok => exact hstart hok
  | step hreach hstep hok ih =>
    cases hstep with
    | patch changes => exact hpatch _ changes ih hok
    | compact => exact hcompact _ ih
    | fold_save =>
      cases fold_delta_for_save_eq _ with
      | inl h => exact h ▸ ih
      | inr h => exact h ▸ hcompact _ ih

/-- The extension table does not see path lengths. -/
theorem SameCore.ext_index_eq {before after : List CompactRecord} (h : SameCore before after) :
    ExtensionIndex.build before = ExtensionIndex.build after := by
  have hcore : ∀ records : List CompactRecord,
      ExtensionIndex.build (records.map CompactRecord.core) = ExtensionIndex.build records := by
    intro records
    unfold ExtensionIndex.build
    rw [List.map_map, csr.build_map]
    rfl
  rw [← hcore before, h, hcore after]

end uffs.usn
