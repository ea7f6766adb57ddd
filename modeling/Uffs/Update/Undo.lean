import Uffs.Update.Apply

open uffs.lib

namespace uffs.update

/-! What undoing a binary leaves, wherever it is cut off. -/

section

variable {Image : Type}

namespace Disk

section

variable (self : Disk Image) (path : Path) (image : Option Image)

@[simp] theorem write_same :
    (self.write path image).files path = image := Function.update_self ..

theorem write_other {path other : Path} (h : other ≠ path) :
    (self.write path image).files other = self.files other := Function.update_of_ne h ..

@[simp] theorem rename_journal (source dest : Path) : (self.rename source dest).journal = self.journal := by
  unfold rename
  split <;> rfl

end

theorem rename_eq {self : Disk Image} {source dest : Path} {image : Image} (h : self.files source = some image) :
    self.rename source dest = (self.write source none).write dest (some image) := by
  simp only [rename, h]

end Disk

variable {path : Path} {disk : Disk Image} {I : Disk Image → Prop} {flags : List (Path × Bool)}

theorem exists_safe {Q : Bool → Disk Image → Prop} :
    (exists_ path).Safe I Q disk ↔ I disk ∧ Q (disk.files path).isSome disk := Iff.rfl

theorem rename_safe {source dest : Path} {Q : Bool → Disk Image → Prop} :
    (rename source dest).Safe I Q disk ↔ I disk ∧ Q (disk.files source).isSome (disk.rename source dest) := Iff.rfl

theorem remove_file_safe {Q : Unit → Disk Image → Prop} :
    (remove_file path).Safe I Q disk ↔ I disk ∧ Q () (disk.write path none) := Iff.rfl

/-- Not named like a backup. -/
def Path.Live (path : Path) : Prop := ¬ bak <:+ path.file

instance (path : Path) : Decidable path.Live := inferInstanceAs (Decidable (¬ _))

theorem backup_path_not_live (path : Path) : ¬ (backup_path path).Live := fun h => h ⟨path.file, rfl⟩

theorem Path.Live.ne_backup (h : path.Live) (other : Path) : path ≠ backup_path other := by
  rintro rfl
  exact backup_path_not_live other h

theorem backup_path_injective {path other : Path} (h : backup_path path = backup_path other) : path = other := by
  obtain ⟨dir, file⟩ := path
  obtain ⟨dir', file'⟩ := other
  simp only [backup_path, Path.mk.injEq] at h
  obtain ⟨rfl, h⟩ := h
  rw [List.append_cancel_right h]

variable {start : Disk Image}

/-- Undoing the binary gives what was there at the start. -/
def Undoable (start : Disk Image) (added : Bool) (path : Path) (disk : Disk Image) : Prop :=
  if added then start.files path = none
  else (disk.files (backup_path path) = none ∧ disk.files path = start.files path) ∨
    ∃ image, disk.files (backup_path path) = some image ∧ start.files path = some image

/-- Only the two files of the binary matter. -/
theorem Undoable.congr {added : Bool} {disk disk' : Disk Image} (h : Undoable start added path disk)
    (hlive : disk'.files path = disk.files path) (hbackup : disk'.files (backup_path path) = disk.files (backup_path path)) :
    Undoable start added path disk' := by
  unfold Undoable at h ⊢
  rw [hlive, hbackup]
  exact h

/-- Once the backup is there, it is what undoing needs, whatever has become of the binary. -/
theorem Undoable.backed_up {added : Bool} {disk disk' : Disk Image} (h : Undoable start added path disk) {kept : Image}
    (hbackup : disk'.files (backup_path path) = some kept)
    (hfrom : disk.files (backup_path path) = some kept ∨ disk.files (backup_path path) = none ∧ disk.files path = some kept) :
    Undoable start added path disk' := by
  unfold Undoable at h ⊢
  split at h
  · rename_i hadded
    rw [if_pos hadded]
    exact h
  · rename_i hadded
    rw [if_neg hadded]
    refine .inr ⟨kept, hbackup, ?_⟩
    rcases h with ⟨hnone, hpath⟩ | ⟨image, hsome, hstart⟩
    · rcases hfrom with hkept | ⟨_, hkept⟩
      · rw [hnone] at hkept
        cases hkept
      · exact hpath.symm.trans hkept
    · rcases hfrom with hkept | ⟨hnone, _⟩
      · rw [hsome] at hkept
        exact hstart.trans hkept
      · rw [hsome] at hnone
        cases hnone

/-- A list of binaries with their flags, all live and undoable. -/
def Undoing (start : Disk Image) (flags : List (Path × Bool)) (disk : Disk Image) : Prop :=
  ∀ item ∈ flags, item.1.Live ∧ Undoable start item.2 item.1 disk

/-- What happens to the two files of one binary is nothing to the others. -/
theorem Undoing.frame {disk disk' : Disk Image} (h : Undoing start flags disk) (path : Path)
    (hframe : ∀ other, other ≠ path → other ≠ backup_path path → disk'.files other = disk.files other)
    (hpath : ∀ item ∈ flags, item.1 = path → Undoable start item.2 path disk') (hlive : path.Live) :
    Undoing start flags disk' := by
  intro item hmem
  obtain ⟨hitem, hundo⟩ := h item hmem
  refine ⟨hitem, ?_⟩
  by_cases heq : item.1 = path
  · rw [heq]
    exact hpath item hmem heq
  · refine hundo.congr (hframe _ heq (hitem.ne_backup path)) (hframe _ (hlive.ne_backup _).symm fun hbackup => ?_)
    exact heq (backup_path_injective hbackup)

/-- The binary is as it was, and so is every other that was. -/
def Restored (start : Disk Image) (path : Path) (disk disk' : Disk Image) : Prop :=
  disk'.journal = disk.journal ∧ disk'.files path = start.files path ∧
    ∀ other : Path, other.Live → disk.files other = start.files other → disk'.files other = start.files other

theorem restore_safe (hmem : (path, false) ∈ flags) (h : Undoing start flags disk)
    (hI : ∀ disk', disk'.journal = disk.journal → Undoing start flags disk' → I disk') :
    (restore path).Safe I (fun restored disk' => restored = true ∧ Undoing start flags disk' ∧ Restored start path disk disk') disk := by
  obtain ⟨hlive, hundo⟩ := h _ hmem
  have hundo' : (disk.files (backup_path path) = none ∧ disk.files path = start.files path) ∨
      ∃ image, disk.files (backup_path path) = some image ∧ start.files path = some image := hundo
  unfold restore
  simp only [Prog.safe_bind, exists_safe]
  refine ⟨hI disk rfl h, ?_⟩
  rcases hundo' with ⟨hnone, hpath⟩ | ⟨image, hbackup, hstart⟩
  · rw [hnone, if_neg (by simp)]
    exact ⟨rfl, h, rfl, hpath, fun _ _ h => h⟩
  · -- while the backup is there, the binary may go
    have hwrite : ∀ image, Undoing start flags (disk.write path image) := by
      intro image
      refine h.frame path (fun other hother _ => Disk.write_other _ _ hother) ?_ hlive
      intro item hitem heq
      have hundo := (h item hitem).2
      rw [heq] at hundo
      refine hundo.backed_up ?_ (.inl hbackup)
      rw [Disk.write_other _ _ (hlive.ne_backup path).symm, hbackup]
    have hrename : ∀ disk', disk'.journal = disk.journal → disk'.files (backup_path path) = some image →
        (∀ other, other ≠ path → disk'.files other = disk.files other) → Undoing start flags disk' →
        (rename (backup_path path) path).Safe I
          (fun restored disk' => restored = true ∧ Undoing start flags disk' ∧ Restored start path disk disk') disk' := by
      intro disk' hjournal hbackup' hother hundoing
      refine ⟨hI disk' hjournal hundoing, ?_⟩
      have hafter : ∀ other, other ≠ path → other ≠ backup_path path →
          (disk'.rename (backup_path path) path).files other = disk.files other := by
        intro other hne hne'
        rw [Disk.rename_eq hbackup', Disk.write_other _ _ hne, Disk.write_other _ _ hne', hother other hne]
      have hback : (disk'.rename (backup_path path) path).files path = start.files path := by
        rw [Disk.rename_eq hbackup', Disk.write_same, hstart]
      have hgone : (disk'.rename (backup_path path) path).files (backup_path path) = none := by
        rw [Disk.rename_eq hbackup', Disk.write_other _ _ (hlive.ne_backup path).symm, Disk.write_same]
      refine ⟨by rw [hbackup']; rfl, h.frame path hafter ?_ hlive, ?_, hback, ?_⟩
      · intro item hitem heq
        unfold Undoable
        split
        · rename_i hadded
          have hundo := (h item hitem).2
          rw [Undoable, if_pos hadded, heq] at hundo
          exact hundo
        · exact .inl ⟨hgone, hback⟩
      · simpa using hjournal
      · intro other hlive' hsame
        by_cases hne : other = path
        · rw [hne, hback]
        · rw [hafter other hne (hlive'.ne_backup path), hsame]
    rw [hbackup, if_pos (by rfl)]
    simp only [Prog.safe_bind, exists_safe]
    refine ⟨hI disk rfl h, ?_⟩
    split
    · simp only [Prog.safe_bind, remove_file_safe]
      refine ⟨hI disk rfl h, hrename _ rfl ?_ (fun other hne => Disk.write_other _ _ hne) (hwrite none)⟩
      rw [Disk.write_other _ _ (hlive.ne_backup path).symm, hbackup]
    · exact hrename disk rfl hbackup (fun _ _ => rfl) h

theorem remove_added_safe (hmem : (path, true) ∈ flags) (h : Undoing start flags disk)
    (hI : ∀ disk', disk'.journal = disk.journal → Undoing start flags disk' → I disk') :
    (remove_added path).Safe I (fun _ disk' => Undoing start flags disk' ∧ Restored start path disk disk') disk := by
  obtain ⟨hlive, hstart⟩ := h _ hmem
  rw [Undoable, if_pos rfl] at hstart
  unfold remove_added
  simp only [Prog.safe_bind, exists_safe]
  refine ⟨hI disk rfl h, ?_⟩
  split
  · refine ⟨hI disk rfl h, h.frame path (fun other hother _ => Disk.write_other _ _ hother) ?_ hlive, rfl, ?_, ?_⟩
    · intro item hitem heq
      unfold Undoable
      split
      · exact hstart
      · rename_i hadded
        have hundo := (h item hitem).2
        rw [Undoable, if_neg hadded, heq] at hundo
        rcases hundo with ⟨hnone, _⟩ | ⟨image, _, hsome⟩
        · refine .inl ⟨?_, ?_⟩
          · rw [Disk.write_other _ _ (hlive.ne_backup path).symm, hnone]
          · rw [Disk.write_same, hstart]
        · rw [hstart] at hsome
          cases hsome
    · rw [Disk.write_same, hstart]
    · intro other _ hsame
      by_cases hne : other = path
      · rw [hne, Disk.write_same, hstart]
      · rw [Disk.write_other _ _ hne, hsame]
  · rename_i hgone
    refine ⟨h, rfl, ?_, fun _ _ h => h⟩
    rw [hstart]
    simpa using hgone

end

end uffs.update
