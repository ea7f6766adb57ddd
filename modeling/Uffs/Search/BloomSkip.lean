import Uffs.Cache.Saved

open uffs.lib uffs.mft uffs.text uffs.bloom uffs.compact uffs.usn uffs.compact_cache

namespace uffs.search

inductive BloomDecision where
  | Skip
  | Keep
deriving DecidableEq

/-- Probe the filter for every term; the drive is skipped if it misses all of them. -/
def decide_for_ext_filter (env : Env) (bloom : Option Bloom) (ext_terms : List Str) : BloomDecision :=
  if ext_terms.isEmpty then .Keep
  else
    match bloom with
    | none => .Keep
    | some bloom_ref => if ext_terms.any fun term => bloom_ref.contains env (as_bytes term) then .Keep else .Skip

/-- The extension of a row, as the filter of a query sees it. -/
def HasExt (drive : DriveCompactIndex) (rec : CompactRecord) (term : Str) : Prop :=
  term ≠ [] ∧ drive.ext_names[rec.extension_id.toNat]? = some term

/-- A skipped drive holds no live row with one of the extensions. -/
def NoFalseSkip (env : Env) (drive : DriveCompactIndex) (bloom : Option Bloom) : Prop :=
  ∀ ext_terms, decide_for_ext_filter env bloom ext_terms = .Skip →
    ∀ rec ∈ drive.records, rec.Live → ∀ term ∈ ext_terms, ¬ HasExt drive rec term

/-- The filter holds every extension of the table. -/
def Covers (env : Env) (bloom : Option Bloom) (ext_names : List Str) : Prop :=
  ∀ bloom_ref, bloom = some bloom_ref → ∀ ext ∈ ext_names, ext ≠ [] → bloom_ref.contains env (as_bytes ext) = true

variable {env : Env} {drive : DriveCompactIndex}

theorem decide_for_ext_filter_eq_skip {bloom : Option Bloom} {ext_terms : List Str} :
    decide_for_ext_filter env bloom ext_terms = .Skip ↔
      ext_terms ≠ [] ∧ ∃ bloom_ref, bloom = some bloom_ref ∧
        ∀ term ∈ ext_terms, bloom_ref.contains env (as_bytes term) = false := by
  unfold decide_for_ext_filter
  cases ext_terms with
  | nil => simp
  | cons term terms =>
    cases bloom with
    | none => simp
    | some bloom_ref => simp

theorem Covers.noFalseSkip {bloom : Option Bloom} (h : Covers env bloom drive.ext_names) : NoFalseSkip env drive bloom := by
  intro ext_terms hskip rec _ _ term hterm hext
  obtain ⟨-, bloom_ref, hbloom, hmiss⟩ := decide_for_ext_filter_eq_skip.mp hskip
  have hhit := h bloom_ref hbloom term (List.mem_of_getElem? hext.2) hext.1
  rw [hmiss term hterm] at hhit
  cases hhit

/-- The size of the filter over an index leaves room for its last word. -/
def Sizable (env : Env) (drive : DriveCompactIndex) : Prop :=
  (align_nbits (env.bloom_sizing (max (drive.records.length + drive.ext_names.length) 1)).1).toNat ≠ 2 ^ 64 - 1

/-- A fresh filter holds every extension of the table. -/
theorem covers_build_bloom (hsizable : Sizable env drive) : Covers env (some (drive.build_bloom env)) drive.ext_names := by
  intro bloom_ref hbloom ext hmem hne
  cases hbloom
  have hstart := sized_with_size_and_k hsizable
    (env.bloom_sizing (max (drive.records.length + drive.ext_names.length) 1)).2
  unfold DriveCompactIndex.build_bloom
  refine contains_foldl_insert (fun s e => ?_) ?_ (fun s e hs hfound => ?_) hmem fun s hs => ?_
  · split
    · exact SameSize.refl s
    · exact sameSize_insert s env _
  · refine foldl_invariant (motive := Bloom.Sized) hstart fun s record _ hs => ?_
    split
    · exact hs
    · exact (sameSize_insert s env _).sized hs
  · split
    · exact hfound
    · exact contains_insert_of_contains hs hfound _
  · rw [if_neg (by rw [List.isEmpty_iff, as_bytes_eq_nil]; exact hne)]
    exact contains_insert_self hs env _

theorem covers_build (env : Env) (letter : Char) (fold : CaseFold) {index : MftIndex}
    (hsizable : Sizable env (build_compact_index env letter fold index)) :
    Covers env (build_compact_index env letter fold index).bloom (build_compact_index env letter fold index).ext_names :=
  covers_build_bloom hsizable

/-- Every file that a batch creates or renames has no extension, or one of the table; a full
table takes no further one. -/
def KnownExts (env : Env) (drive : DriveCompactIndex) (changes : List FileChange) : Prop :=
  ∀ change ∈ changes, change.deleted = false → (change.created = true ∨ change.renamed = true) →
    ∀ ext, normalized_ext env change.filename = some ext →
      ext ∈ drive.ext_names ∨ 0xFFFF ≤ drive.ext_names.length

theorem intern_extension_known {filename : Str}
    (h : ∀ ext, normalized_ext env filename = some ext → ext ∈ drive.ext_names ∨ 0xFFFF ≤ drive.ext_names.length) :
    (drive.intern_extension env filename).1.ext_names = drive.ext_names := by
  unfold DriveCompactIndex.intern_extension
  cases hext : normalized_ext env filename with
  | none => rfl
  | some ext =>
    dsimp only
    cases hidx : drive.ext_names.idxOf? ext with
    | some existing => rfl
    | none =>
      have hnew : ext ∉ drive.ext_names := List.idxOf?_eq_none_iff.mp hidx
      have hfull := (h ext hext).resolve_left hnew
      rw [if_neg (by omega)]

/-- A change with a known extension leaves the table as it is. -/
theorem ext_names_apply_change {patch : Patch} {change : FileChange}
    (h : change.deleted = false → (change.created = true ∨ change.renamed = true) →
      ∀ ext, normalized_ext env change.filename = some ext →
        ext ∈ patch.drive.ext_names ∨ 0xFFFF ≤ patch.drive.ext_names.length) :
    (apply_change env patch change).drive.ext_names = patch.drive.ext_names := by
  unfold apply_change
  dsimp only
  split
  next =>
    unfold apply_delete
    split
    · rfl
    · split
      · rfl
      · rfl
  next hdeleted =>
    rw [Bool.not_eq_true] at hdeleted
    split
    next hcreated =>
      have hintern := intern_extension_known (h hdeleted (Or.inl hcreated))
      unfold apply_create stage_create append_name
      split
      · rfl
      · dsimp only
        split
        · exact hintern
        · split
          · exact hintern
          · exact hintern
    next =>
      split
      next hrenamed =>
        have hintern := intern_extension_known (h hdeleted (Or.inr hrenamed))
        unfold apply_rename stage_create append_name
        split
        · rfl
        · dsimp only
          split
          · exact hintern
          · exact hintern
      next => rfl

/-- A batch of known extensions changes neither the table nor the filter. -/
theorem filter_apply_usn_patch {changes : List FileChange} (hknown : KnownExts env drive changes) :
    (apply_usn_patch env drive changes).1.ext_names = drive.ext_names ∧
      (apply_usn_patch env drive changes).1.bloom = drive.bloom := by
  have hrebuilt := apply_usn_patch_rebuilt env drive changes
  have hloop : (mutated env drive changes).drive.ext_names = drive.ext_names := by
    refine foldl_invariant (motive := fun patch : Patch => patch.drive.ext_names = drive.ext_names) rfl
      fun patch change hmem hpatch => ?_
    rw [ext_names_apply_change, hpatch]
    rw [hpatch]
    exact hknown change ((order_parent_first_perm changes).mem_iff.mp hmem)
  have htables : SameTables drive (mutated env drive changes).drive := run_changes_tables env drive _
  exact ⟨hrebuilt.ext_names.trans hloop, hrebuilt.bloom.trans htables.bloom⟩

/-- A life of an index: batches of known extensions, compactions, folds before a save, and saves
of an index without an overlay that fits the cache, followed by a load. -/
inductive KnownRun (env : Env) (start : DriveCompactIndex) : DriveCompactIndex → Prop where
  | start : KnownRun env start start
  | patch {drive : DriveCompactIndex} (hrun : KnownRun env start drive) (changes : List FileChange)
      (hknown : KnownExts env drive changes) : KnownRun env start (apply_usn_patch env drive changes).1
  | compact {drive : DriveCompactIndex} (hrun : KnownRun env start drive) : KnownRun env start drive.compact_base
  | fold_save {drive : DriveCompactIndex} (hrun : KnownRun env start drive) :
      KnownRun env start drive.fold_delta_for_save
  | reload {drive loaded : DriveCompactIndex} (hrun : KnownRun env start drive) (hroomy : Roomy drive)
      (hdelta : drive.delta = none) (hfits : CacheFits env drive)
      (hload : deserialize_compact env drive.fold (serialize_compact env drive) drive.letter = .ok loaded) :
      KnownRun env start loaded

theorem length_le_apply_usn_patch (env : Env) (drive : DriveCompactIndex) (changes : List FileChange) :
    drive.records.length ≤ (apply_usn_patch env drive changes).1.records.length := by
  rw [(apply_usn_patch_rebuilt env drive changes).length_eq]
  exact foldl_apply_change_length_le env _ { drive := drive }

theorem length_fold_delta_for_save (drive : DriveCompactIndex) :
    drive.fold_delta_for_save.records.length = drive.records.length := by
  cases fold_delta_for_save_eq drive with
  | inl h => rw [h]
  | inr h => rw [h]; rfl

/-- Saves and loads add no states: what is loaded is what was saved. -/
theorem KnownRun.reachable {letter : Char} {fold : CaseFold} {index : MftIndex} (hwf : WellFormed index)
    (hrun : KnownRun env (build_compact_index env letter fold index) drive) (hroomy : Roomy drive) :
    Reachable env (build_compact_index env letter fold index) Roomy drive := by
  induction hrun with
  | start => exact Reachable.start hroomy
  | patch hrun changes _ ih =>
    have hbefore := Nat.lt_of_le_of_lt (length_le_apply_usn_patch env _ changes) hroomy
    exact Reachable.step (ih hbefore) (Step.patch changes) hroomy
  | compact hrun ih => exact Reachable.step (ih hroomy) Step.compact hroomy
  | @fold_save saved hrun ih =>
    have hbefore : Roomy saved := by
      unfold Roomy at hroomy ⊢
      rwa [length_fold_delta_for_save] at hroomy
    exact Reachable.step (ih hbefore) Step.fold_save hroomy
  | reload hrun hsaved hdelta hfits hload ih =>
    have hreach := ih hsaved
    rw [reload_eq_self hwf hreach hdelta hfits hload]
    exact hreach

/-- The filter holds every extension of the table in every state of such a life. -/
theorem KnownRun.covers {letter : Char} {fold : CaseFold} {index : MftIndex} (hwf : WellFormed index)
    (hsizable : Sizable env (build_compact_index env letter fold index))
    (hrun : KnownRun env (build_compact_index env letter fold index) drive) :
    (∃ bloom, drive.bloom = some bloom) ∧ Covers env drive.bloom drive.ext_names := by
  induction hrun with
  | start => exact ⟨⟨_, rfl⟩, covers_build env letter fold hsizable⟩
  | patch hrun changes hknown ih =>
    obtain ⟨hnames, hbloom⟩ := filter_apply_usn_patch hknown
    rw [hnames, hbloom]
    exact ih
  | compact hrun ih => exact ih
  | @fold_save saved hrun ih =>
    cases fold_delta_for_save_eq saved with
    | inl h => rwa [h]
    | inr h =>
      rw [h]
      exact ih
  | reload hrun hroomy hdelta hfits hload ih =>
    rw [reload_eq_self hwf (hrun.reachable hwf hroomy) hdelta hfits hload]
    exact ih

/-- No drive is skipped wrongly while every new file has a known extension, whether the filter of
the index or that of its parked body is asked. -/
theorem no_false_skip_of_known_exts (env : Env) (letter : Char) (fold : CaseFold) {index : MftIndex}
    (hwf : WellFormed index) (hsizable : Sizable env (build_compact_index env letter fold index))
    {drive : DriveCompactIndex} (hrun : KnownRun env (build_compact_index env letter fold index) drive) :
    NoFalseSkip env drive drive.bloom ∧ NoFalseSkip env drive (some (to_parked_body env drive).bloom) := by
  obtain ⟨⟨bloom, hbloom⟩, hcovers⟩ := hrun.covers hwf hsizable
  have hparked : some (to_parked_body env drive).bloom = drive.bloom := by
    rw [to_parked_body, hbloom, Option.getD_some]
  exact ⟨hcovers.noFalseSkip, hparked ▸ hcovers.noFalseSkip⟩

/-- A new file `a.zip` in the root directory. -/
def zip_change : FileChange where
  frs := 16
  parent_frs := 5
  filename := ['a', '.', 'z', 'i', 'p']
  created := true

theorem normalized_ext_zip : normalized_ext sample_env zip_change.filename = some ['z', 'i', 'p'] := by decide

theorem zip_mft_sizable : Sizable sample_env (sample_index (ext_mft [[], ['z', 'i', 'p']])) := by
  rw [Sizable, ext_mft_records]
  decide

theorem no_false_skip_zip_known :
    WellFormed (ext_mft [[], ['z', 'i', 'p']]) ∧
      KnownExts sample_env (build_compact_index sample_env 'C' ⟨[]⟩ (ext_mft [[], ['z', 'i', 'p']])) [zip_change] ∧
      NoFalseSkip sample_env
        (apply_usn_patch sample_env (build_compact_index sample_env 'C' ⟨[]⟩ (ext_mft [[], ['z', 'i', 'p']]))
          [zip_change]).1
        (apply_usn_patch sample_env (build_compact_index sample_env 'C' ⟨[]⟩ (ext_mft [[], ['z', 'i', 'p']]))
          [zip_change]).1.bloom := by
  have hknown : KnownExts sample_env (build_compact_index sample_env 'C' ⟨[]⟩ (ext_mft [[], ['z', 'i', 'p']]))
      [zip_change] := by
    intro change hmem _ _ ext hext
    left
    rw [List.mem_singleton.mp hmem, normalized_ext_zip] at hext
    cases hext
    exact List.mem_cons_of_mem _ List.mem_cons_self
  exact ⟨ext_mft_wellFormed _, hknown, (no_false_skip_of_known_exts sample_env 'C' ⟨[]⟩ (ext_mft_wellFormed _)
    zip_mft_sizable (KnownRun.patch KnownRun.start [zip_change] hknown)).1⟩

/-- The new file is in the index, with its extension. -/
theorem zip_file_created :
    ∃ rec ∈ (apply_usn_patch sample_env (build_compact_index sample_env 'C' ⟨[]⟩ (ext_mft [[]])) [zip_change]).1.records, rec.Live ∧
      HasExt (apply_usn_patch sample_env (build_compact_index sample_env 'C' ⟨[]⟩ (ext_mft [[]])) [zip_change]).1 rec ['z', 'i', 'p'] := by
  have hfile : ((apply_usn_patch sample_env (build_compact_index sample_env 'C' ⟨[]⟩ (ext_mft [[]])) [zip_change]).1.records.any
      fun rec => rec.name_len != 0 && (apply_usn_patch sample_env (build_compact_index sample_env 'C' ⟨[]⟩ (ext_mft [[]]))
        [zip_change]).1.ext_names[rec.extension_id.toNat]? == some ['z', 'i', 'p']) = true := by
    decide
  obtain ⟨rec, hrec, hfound⟩ := List.any_eq_true.mp hfile
  rw [Bool.and_eq_true, bne_iff_ne, beq_iff_eq] at hfound
  exact ⟨rec, hrec, hfound.1, List.cons_ne_nil _ _, hfound.2⟩

/-- The first `zip` file of a volume is created, and a query for `zip` files skips the drive. -/
theorem false_skip_first_zip :
    WellFormed (ext_mft [[]]) ∧
      ¬ NoFalseSkip sample_env
        (apply_usn_patch sample_env (build_compact_index sample_env 'C' ⟨[]⟩ (ext_mft [[]])) [zip_change]).1
        (apply_usn_patch sample_env (build_compact_index sample_env 'C' ⟨[]⟩ (ext_mft [[]])) [zip_change]).1.bloom := by
  refine ⟨ext_mft_wellFormed _, fun h => ?_⟩
  obtain ⟨rec, hrec, hlive, hext⟩ := zip_file_created
  exact h [['z', 'i', 'p']] (by decide) rec hrec hlive _ (List.mem_singleton_self _) hext

end uffs.search
