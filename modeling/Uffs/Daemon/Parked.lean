import Uffs.Daemon.Tiers

open uffs.lib uffs.mft uffs.text uffs.bloom uffs.compact uffs.usn uffs.compact_cache uffs.search

namespace uffs.daemon

/-- Whether a search for these extensions promotes the shard; only a Parked one has a filter to ask. -/
def bloom_pre_check_should_promote (env : Env) (shard : Shard) (ext_terms : List Str) : Bool :=
  if ext_terms.isEmpty then true
  else
    match shard with
    | .parked parked_body => decide_for_ext_filter env (some parked_body.bloom) ext_terms == .Keep
    | _ => true

/-- A search that leaves the shard where it is misses no file: by all changes polled, none has one of
the extensions. -/
def SkipSound (env : Env) (s : Daemon) : Prop :=
  ∀ ext_terms, bloom_pre_check_should_promote env s.shard ext_terms = false →
    ∀ rec ∈ (replayed env s.original.index s.polled).records, rec.Live →
      ∀ term ∈ ext_terms, ¬ HasExt (replayed env s.original.index s.polled) rec term

/-- A file with the extension is in the index. -/
def LiveExt (drive : DriveCompactIndex) (term : Str) : Prop := ∃ rec ∈ drive.records, rec.Live ∧ HasExt drive rec term

/-- The filter has every extension of a file in the index. -/
def Sieves (env : Env) (bloom : Bloom) (drive : DriveCompactIndex) : Prop :=
  ∀ term, LiveExt drive term → bloom.contains env (as_bytes term) = true

/-- The change writes a file with the extension. -/
def Brings (env : Env) (change : FileChange) (term : Str) : Prop :=
  change.deleted = false ∧ (change.created = true ∨ change.renamed = true) ∧ normalized_ext env change.filename = some term

/-- The first identifier stands for no extension. -/
def NoExtFirst (drive : DriveCompactIndex) : Prop := drive.ext_names[0]? = some []

section Interned

variable {env : Env} {drive : DriveCompactIndex} {filename : Str}

theorem intern_extension_table : ∃ tail, (drive.intern_extension env filename).1.ext_names = drive.ext_names ++ tail ∧
    ∀ ext ∈ tail, normalized_ext env filename = some ext := by
  unfold DriveCompactIndex.intern_extension
  cases hext : normalized_ext env filename with
  | none => exact ⟨[], (List.append_nil _).symm, nofun⟩
  | some ext =>
    dsimp only
    cases drive.ext_names.idxOf? ext with
    | some existing => exact ⟨[], (List.append_nil _).symm, nofun⟩
    | none =>
      dsimp only
      split
      · refine ⟨[ext], rfl, ?_⟩
        intro other hother
        rw [List.mem_singleton.mp hother]
      · exact ⟨[], (List.append_nil _).symm, nofun⟩

/-- The identifier of a name stands for its extension, or for none. -/
theorem intern_extension_id (hfirst : NoExtFirst drive) {term : Str} (hne : term ≠ [])
    (hget : (drive.intern_extension env filename).1.ext_names[(drive.intern_extension env filename).2.toNat]? = some term) :
    normalized_ext env filename = some term := by
  have hzero : drive.ext_names[(0 : UInt16).toNat]? ≠ some term := by
    intro h
    cases hfirst.symm.trans h
    exact hne rfl
  revert hget
  unfold DriveCompactIndex.intern_extension
  cases hext : normalized_ext env filename with
  | none => exact fun hget => absurd hget hzero
  | some ext =>
    dsimp only
    cases hidx : drive.ext_names.idxOf? ext with
    | some existing =>
      dsimp only
      intro hget
      unfold ext_id_of at hget
      split at hget
      · rename_i hlt
        rw [UInt16.toNat_ofNat_of_lt' hlt] at hget
        obtain ⟨hlen, hval, -⟩ := List.idxOf?_eq_some_iff.mp hidx
        rw [List.getElem?_eq_getElem hlen] at hget
        cases hget
        rw [hval]
      · exact absurd hget hzero
    | none =>
      dsimp only
      split
      · rename_i hlt
        intro hget
        have hid : (UInt16.ofNat drive.ext_names.length).toNat = drive.ext_names.length :=
          UInt16.toNat_ofNat_of_lt' (by simp [UInt16.size]; omega)
        rw [hid, List.getElem?_concat_length] at hget
        exact hget
      · exact fun hget => absurd hget hzero

end Interned

/-- The change writes a name. -/
def Writing (change : FileChange) : Prop := change.deleted = false ∧ (change.created = true ∨ change.renamed = true)

theorem stage_create_exts (env : Env) (drive : DriveCompactIndex) (change : FileChange) :
    (stage_create env drive change).1.records = drive.records ∧
      (stage_create env drive change).1.ext_names = (drive.intern_extension env change.filename).1.ext_names ∧
      (stage_create env drive change).2.extension_id = (drive.intern_extension env change.filename).2 :=
  ⟨(stage_create_staged env drive change).records, rfl, rfl⟩

theorem renamed_record_extension_id (staged : StagedCreate) (md : Option RecordMeta) (rec : CompactRecord) :
    (renamed_record staged md rec).extension_id = staged.extension_id := by
  cases md <;> rfl

/-- What a change does to the extensions: a live row is an old one, or one with the identifier of the
name that is written. -/
theorem apply_change_exts (env : Env) (patch : Patch) (change : FileChange) :
    ((apply_change env patch change).drive.ext_names = patch.drive.ext_names ∧
        ∀ rec ∈ (apply_change env patch change).drive.records, rec.Live → rec ∈ patch.drive.records) ∨
      (Writing change ∧
        (apply_change env patch change).drive.ext_names = (patch.drive.intern_extension env change.filename).1.ext_names ∧
        ∀ rec ∈ (apply_change env patch change).drive.records, rec.Live → rec ∈ patch.drive.records ∨
          rec.extension_id = (patch.drive.intern_extension env change.filename).2) := by
  obtain ⟨hrecords, hnames, hid⟩ := stage_create_exts env patch.drive change
  unfold apply_change
  dsimp only
  split
  · left
    unfold apply_delete
    split
    · exact ⟨rfl, fun rec hrec _ => hrec⟩
    · split
      · exact ⟨rfl, fun rec hrec _ => hrec⟩
      · refine ⟨rfl, ?_⟩
        intro rec hrec hlive
        rcases List.mem_or_eq_of_mem_set hrec with hold | rfl
        · exact hold
        · exact absurd rfl hlive
  · rename_i hdeleted
    rw [Bool.not_eq_true] at hdeleted
    split
    · rename_i hcreated
      unfold apply_create
      split
      · exact Or.inl ⟨rfl, fun rec hrec _ => hrec⟩
      · right
        refine ⟨⟨hdeleted, Or.inl hcreated⟩, ?_⟩
        dsimp only
        split
        · refine ⟨hnames, ?_⟩
          intro rec hrec _
          rcases List.mem_append.mp hrec with hold | hnew
          · exact Or.inl (hrecords ▸ hold)
          · rw [List.mem_singleton.mp hnew]
            exact Or.inr hid
        · split
          · exact ⟨hnames, fun rec hrec _ => Or.inl (hrecords ▸ hrec)⟩
          · refine ⟨hnames, ?_⟩
            intro rec hrec _
            rcases List.mem_or_eq_of_mem_set hrec with hold | rfl
            · exact Or.inl (hrecords ▸ hold)
            · exact Or.inr hid
    · split
      · rename_i hrenamed
        unfold apply_rename
        split
        · exact Or.inl ⟨rfl, fun rec hrec _ => hrec⟩
        · right
          refine ⟨⟨hdeleted, Or.inr hrenamed⟩, ?_⟩
          dsimp only
          split
          · exact ⟨hnames, fun rec hrec _ => Or.inl (hrecords ▸ hrec)⟩
          · refine ⟨hnames, ?_⟩
            intro rec hrec _
            rcases List.mem_or_eq_of_mem_set hrec with hold | rfl
            · exact Or.inl (hrecords ▸ hold)
            · rw [renamed_record_extension_id]
              exact Or.inr hid
      · exact Or.inl ⟨rfl, fun rec hrec _ => hrec⟩

theorem noExtFirst_apply_change {env : Env} {patch : Patch} {change : FileChange} (h : NoExtFirst patch.drive) :
    NoExtFirst (apply_change env patch change).drive := by
  unfold NoExtFirst at h ⊢
  rcases apply_change_exts env patch change with ⟨hnames, -⟩ | ⟨-, hnames, -⟩
  · rw [hnames]
    exact h
  · obtain ⟨tail, htable, -⟩ := @intern_extension_table env patch.drive change.filename
    rw [hnames, htable, List.getElem?_append_left (List.getElem?_eq_some_iff.mp h).1]
    exact h

/-- A file with an extension was there before, or the change brings it. -/
theorem liveExt_apply_change {env : Env} {patch : Patch} {change : FileChange} (hfirst : NoExtFirst patch.drive) {term : Str}
    (h : LiveExt (apply_change env patch change).drive term) : LiveExt patch.drive term ∨ Brings env change term := by
  obtain ⟨rec, hrec, hlive, hne, hget⟩ := h
  rcases apply_change_exts env patch change with ⟨hnames, hrows⟩ | ⟨hwriting, hnames, hrows⟩
  · rw [hnames] at hget
    exact Or.inl ⟨rec, hrows rec hrec hlive, hlive, hne, hget⟩
  · rw [hnames] at hget
    rcases hrows rec hrec hlive with hold | hid
    · obtain ⟨tail, htable, htail⟩ := @intern_extension_table env patch.drive change.filename
      rw [htable] at hget
      by_cases hlt : rec.extension_id.toNat < patch.drive.ext_names.length
      · rw [List.getElem?_append_left hlt] at hget
        exact Or.inl ⟨rec, hold, hlive, hne, hget⟩
      · -- an identifier past the old table stands for the new extension
        rw [List.getElem?_append_right (Nat.le_of_not_lt hlt)] at hget
        exact Or.inr ⟨hwriting.1, hwriting.2, htail term (List.mem_of_getElem? hget)⟩
    · rw [hid] at hget
      exact Or.inr ⟨hwriting.1, hwriting.2, intern_extension_id hfirst hne hget⟩

/-- After a patch, a file with an extension was there before, or a change of the batch brings it. -/
theorem liveExt_apply_usn_patch {env : Env} {drive : DriveCompactIndex} {changes : List FileChange} (hfirst : NoExtFirst drive) :
    NoExtFirst (apply_usn_patch env drive changes).1 ∧
      ∀ term, LiveExt (apply_usn_patch env drive changes).1 term → LiveExt drive term ∨ ∃ change ∈ changes, Brings env change term := by
  have hrebuilt := apply_usn_patch_rebuilt env drive changes
  have hloop : NoExtFirst (mutated env drive changes).drive ∧
      ∀ term, LiveExt (mutated env drive changes).drive term → LiveExt drive term ∨ ∃ change ∈ changes, Brings env change term := by
    refine @foldl_invariant _ _ (apply_change env) (fun patch : Patch => NoExtFirst patch.drive ∧
      ∀ term, LiveExt patch.drive term → LiveExt drive term ∨ ∃ change ∈ changes, Brings env change term) _ _
      ⟨hfirst, fun term h => Or.inl h⟩ ?_
    intro patch change hmem hpatch
    refine ⟨noExtFirst_apply_change hpatch.1, ?_⟩
    intro term hterm
    rcases liveExt_apply_change hpatch.1 hterm with hold | hnew
    · exact hpatch.2 term hold
    · exact Or.inr ⟨change, (order_parent_first_perm changes).mem_iff.mp hmem, hnew⟩
  refine ⟨?_, ?_⟩
  · unfold NoExtFirst
    rw [hrebuilt.ext_names]
    exact hloop.1
  · rintro term ⟨rec, hrec, hlive, hne, hget⟩
    obtain ⟨i, hi⟩ := List.getElem?_of_mem hrec
    obtain ⟨row, hrow, hcore⟩ := hrebuilt.core.exists_core hi
    refine hloop.2 term ⟨row, List.mem_of_getElem? hrow, (live_of_core hcore).mpr hlive, hne, ?_⟩
    rw [extension_id_of_core hcore, ← hrebuilt.ext_names]
    exact hget

/-- The index the polled changes lead to. -/
def expected (env : Env) (s : Daemon) : DriveCompactIndex := replayed env s.original.index s.polled

/-- The filter the shard is asked through once it is Parked. -/
def filter_of (env : Env) : Shard → Option Bloom
  | .warm body => some (to_parked_body env body.index).bloom
  | .hot body => some (to_parked_body env body.index).bloom
  | .parked parked_body => some parked_body.bloom
  | .cold => none

/-- The filters a search may come to ask: that of the shard, and those of the bodies on their way into it. -/
def filters (env : Env) (s : Daemon) : List Bloom :=
  (filter_of env s.shard).toList ++ (s.applier.bodies ++ s.loads).map fun body => (to_parked_body env body.index).bloom

/-- The filter has every extension that the changes bring. -/
def Expects (env : Env) (bloom : Bloom) (changes : List FileChange) : Prop :=
  ∀ change ∈ changes, ∀ term, Brings env change term → bloom.contains env (as_bytes term) = true

/-- What is read from the volume is an index the builder builds, over a filter that can be sized. -/
def OfBuilder (env : Env) (drive : DriveCompactIndex) : Prop :=
  ∃ letter fold index, drive = build_compact_index env letter fold index ∧ index.extension_names[0]? = some [] ∧ Sizable env drive

/-- The body was read after the changes polled: the extension of a file that exists by them is that of a
file in it. -/
def ReadAfter (env : Env) (s : Daemon) (body : Body) : Prop := ∀ term, LiveExt (expected env s) term → LiveExt body.index term

/-- The steps that keep the filters ahead of the polls. -/
def Sifted (env : Env) (s : Daemon) : Event → Prop
  -- no change brings an extension that a filter misses, also while the shard is Parked
  | .poll changes _ _ => ∀ bloom ∈ filters env s, Expects env bloom changes
  | .take reloaded => (∀ body, s.shard.body = some body →
        Expects env (to_parked_body env body.index).bloom (changes_of (next_batches s.sink.queue).1)) ∧
      ∀ answers, reloaded = some answers → (OfBuilder env answers.full ∧ OfBuilder env answers.updated) ∧
        (s.sink.queue.head? = some .wrap → ∀ body, loaded s reloaded = some body → ReadAfter env s body)
  -- a body is loaded after the polls
  | .load refreshed => (∀ answers, refreshed = some answers → OfBuilder env answers.full ∧ OfBuilder env answers.updated) ∧
      ∀ body, loaded s refreshed = some body → ReadAfter env s body
  | .restart answers => OfBuilder env answers.full ∧ OfBuilder env answers.updated
  | _ => True

/-- The filter of an index has the extensions of its files, and a patch keeps it. -/
structure Sifting (env : Env) (drive : DriveCompactIndex) : Prop where
  first : NoExtFirst drive
  bloom : drive.bloom.isSome = true
  sieves : Sieves env (to_parked_body env drive).bloom drive

theorem OfBuilder.sifting {env : Env} {drive : DriveCompactIndex} (h : OfBuilder env drive) : Sifting env drive := by
  obtain ⟨letter, fold, index, rfl, hfirst, hsizable⟩ := h
  refine ⟨hfirst, rfl, ?_⟩
  rintro term ⟨rec, -, -, hne, hget⟩
  exact covers_build env letter fold hsizable _ rfl term (List.mem_of_getElem? hget) hne

/-- A body whose filter is ahead of the polls. -/
def Sieving (env : Env) (s : Daemon) (body : Body) : Prop :=
  Sifting env body.index ∧ Sieves env (to_parked_body env body.index).bloom (expected env s)

/-- The filters of the shard and of the bodies on their way into it are ahead of the polls. -/
structure SieveInv (env : Env) (s : Daemon) : Prop where
  first : NoExtFirst (expected env s)
  bodies : Carried (Sieving env s) (fun body => Sifting env body.index) s
  parked : ∀ parked_body, s.shard = .parked parked_body → Sieves env parked_body.bloom (expected env s)

theorem SieveInv.skipSound {env : Env} {s : Daemon} (h : SieveInv env s) : SkipSound env s := by
  intro ext_terms hskip rec hrec hlive term hterm hext
  unfold bloom_pre_check_should_promote at hskip
  split at hskip
  · cases hskip
  · split at hskip
    · rename_i parked_body hs
      have hdecision : decide_for_ext_filter env (some parked_body.bloom) ext_terms = .Skip := by
        revert hskip
        cases decide_for_ext_filter env (some parked_body.bloom) ext_terms with
        | Skip => exact fun _ => rfl
        | Keep => exact fun hskip => absurd hskip (by decide)
      obtain ⟨-, bloom, hbloom, hmiss⟩ := decide_for_ext_filter_eq_skip.mp hdecision
      cases hbloom
      have hhit := h.parked parked_body hs term ⟨rec, hrec, hlive, hext⟩
      rw [hmiss term hterm] at hhit
      cases hhit
    · cases hskip

theorem fold_delta_for_save_tables (drive : DriveCompactIndex) :
    drive.fold_delta_for_save.bloom = drive.bloom ∧ drive.fold_delta_for_save.ext_names = drive.ext_names ∧
      drive.fold_delta_for_save.records = drive.records := by
  rcases fold_delta_for_save_eq drive with h | h
  · rw [h]
    exact ⟨rfl, rfl, rfl⟩
  · rw [h]
    exact ⟨rfl, rfl, rfl⟩

section Patch

variable {env : Env} {drive : DriveCompactIndex} (patch : List Batch × Bool)

theorem patch_index_bloom : (patch_index env drive patch).bloom = drive.bloom := by
  have hpatched : (usn.apply_usn_patch env drive (changes_of patch.1)).1.bloom = drive.bloom :=
    (apply_usn_patch_rebuilt env drive _).bloom.trans (run_changes_tables env drive _).bloom
  unfold patch_index
  dsimp only
  split
  · rw [(fold_delta_for_save_tables _).1, hpatched]
  · exact hpatched

theorem filter_patch_index (hbloom : drive.bloom.isSome = true) :
    (to_parked_body env (patch_index env drive patch)).bloom = (to_parked_body env drive).bloom := by
  obtain ⟨bloom, hsome⟩ := Option.isSome_iff_exists.mp hbloom
  rw [to_parked_body, to_parked_body, patch_index_bloom, hsome]
  rfl

/-- A patch that brings nothing the filter misses leaves it the filter of all files. -/
theorem Sifting.patch_index (h : Sifting env drive) (hexpects : Expects env (to_parked_body env drive).bloom (changes_of patch.1)) :
    Sifting env (patch_index env drive patch) := by
  obtain ⟨hfirst, hlive⟩ := @liveExt_apply_usn_patch env drive (changes_of patch.1) h.first
  obtain ⟨-, hnames, hrecords⟩ := fold_delta_for_save_tables (usn.apply_usn_patch env drive (changes_of patch.1)).1
  have hsame : NoExtFirst (daemon.patch_index env drive patch) ∧ ∀ term, LiveExt (daemon.patch_index env drive patch) term →
      LiveExt (usn.apply_usn_patch env drive (changes_of patch.1)).1 term := by
    unfold daemon.patch_index
    dsimp only
    split
    · refine ⟨by rw [NoExtFirst, hnames]; exact hfirst, ?_⟩
      rintro term ⟨rec, hrec, hext⟩
      rw [HasExt, hnames] at hext
      exact ⟨rec, hrecords ▸ hrec, hext⟩
    · exact ⟨hfirst, fun _ => id⟩
  refine ⟨hsame.1, by rw [patch_index_bloom]; exact h.bloom, ?_⟩
  intro term hterm
  rw [filter_patch_index patch h.bloom]
  rcases hlive term (hsame.2 term hterm) with hold | ⟨change, hmem, hbrings⟩
  · exact h.sieves term hold
  · exact hexpects change hmem term hbrings

end Patch

section Step

variable {env : Env} {s s' : Daemon}

theorem readable_sifting {answers : Answers} (h : SieveInv env s) (hread : OfBuilder env answers.full ∧ OfBuilder env answers.updated) :
    Readable (fun body => Sifting env body.index) s answers :=
  ⟨hread.1.sifting, fun cached hcached => ⟨h.bodies.index_cache cached hcached, fun _ => hread.2.sifting⟩⟩

/-- A body that was read after the polls has a filter ahead of them. -/
theorem ReadAfter.sieving {body : Body} (h : ReadAfter env s body) (hsifting : Sifting env body.index) : Sieving env s body :=
  ⟨hsifting, fun term hterm => hsifting.sieves term (h term hterm)⟩

theorem mem_filters {bloom : Bloom} : bloom ∈ filters env s ↔ filter_of env s.shard = some bloom ∨
    ∃ body, (body ∈ s.applier.bodies ∨ body ∈ s.loads) ∧ (to_parked_body env body.index).bloom = bloom := by
  simp [filters, or_and_right, exists_or]

/-- What is expected grows by nothing the filters miss. -/
theorem SieveInv.grown (h : SieveInv env s) (hbodies : s'.shard = s.shard ∧ s'.applier = s.applier ∧ s'.loads = s.loads)
    (hfiles : s'.saves = s.saves ∧ s'.disk.cache = s.disk.cache ∧ s'.disk.index_cache = s.disk.index_cache)
    (hfirst : NoExtFirst (expected env s'))
    (hgrown : ∀ bloom ∈ filters env s, Sieves env bloom (expected env s) → Sieves env bloom (expected env s')) : SieveInv env s' := by
  obtain ⟨hshard, happlier, hloads⟩ := hbodies
  obtain ⟨hsaves, hcache, hindex⟩ := hfiles
  have hmember : ∀ body, (to_parked_body env body.index).bloom ∈ filters env s → Sieving env s body → Sieving env s' body :=
    fun body hmem hbody => ⟨hbody.1, hgrown _ hmem hbody.2⟩
  refine ⟨hfirst, ⟨?_, ?_, ?_, ?_, ?_, ?_⟩, ?_⟩
  · rw [hshard]
    refine fun body hbody => hmember body (mem_filters.mpr (Or.inl ?_)) (h.bodies.shard body hbody)
    cases hs : s.shard <;> rw [hs] at hbody <;> cases hbody <;> rfl
  · rw [happlier]
    exact fun body hmem => hmember body (mem_filters.mpr (Or.inr ⟨body, Or.inl hmem, rfl⟩)) (h.bodies.applier body hmem)
  · rw [hsaves]
    exact h.bodies.saves
  · rw [hloads]
    exact fun body hmem => hmember body (mem_filters.mpr (Or.inr ⟨body, Or.inr hmem, rfl⟩)) (h.bodies.loads body hmem)
  · rw [hcache]
    exact h.bodies.cache
  · rw [hindex]
    exact h.bodies.index_cache
  · rw [hshard]
    exact fun parked_body hs => hgrown _ (mem_filters.mpr (Or.inl (by rw [hs]; rfl))) (h.parked parked_body hs)

/-- A poll brings extensions the filters have. -/
theorem SieveInv.turn (h : SieveInv env s) {changes : List FileChange} (aged settled_clock : Bool)
    (hok : Sifted env s (.poll changes aged settled_clock)) : SieveInv env (JournalLoop.turn s changes aged settled_clock) := by
  have hread : (WindowsJournalSource.poll s.volume changes s.loop.cursor.value).changes = [] ∨
      (WindowsJournalSource.poll s.volume changes s.loop.cursor.value).changes = changes := by
    unfold WindowsJournalSource.poll
    split
    · exact Or.inl rfl
    · exact Or.inr rfl
  have hexpected : ∀ batch : Batch, replayed env s.original.index (s.polled ++ [batch]) =
      (usn.apply_usn_patch env (expected env s) batch.changes).1 := fun batch => List.foldl_append
  unfold JournalLoop.turn
  dsimp only
  split
  · exact h.grown ⟨rfl, rfl, rfl⟩ ⟨rfl, rfl, rfl⟩ h.first fun _ _ => id
  · by_cases hempty : (WindowsJournalSource.poll s.volume changes s.loop.cursor.value).changes.isEmpty = true
    · refine h.grown ⟨rfl, rfl, rfl⟩ ⟨rfl, rfl, rfl⟩ ?_ ?_
      · simp only [expected, hempty, if_true]
        exact h.first
      · simp only [expected, hempty, if_true]
        exact fun _ _ => id
    · obtain ⟨hfirst, hlive⟩ :=
        @liveExt_apply_usn_patch env (expected env s) (WindowsJournalSource.poll s.volume changes s.loop.cursor.value).changes h.first
      refine h.grown ⟨rfl, rfl, rfl⟩ ⟨rfl, rfl, rfl⟩ ?_ ?_
      · simp only [expected, hempty, if_false, Bool.false_eq_true]
        rw [hexpected]
        exact hfirst
      · intro bloom hbloom hsieves term hterm
        simp only [expected, hempty, if_false, Bool.false_eq_true] at hterm
        rw [hexpected] at hterm
        rcases hlive term hterm with hold | ⟨change, hmem, hbrings⟩
        · exact hsieves term hold
        · rcases hread with hnone | hall
          · rw [hnone] at hmem
            cases hmem
          · rw [hall] at hmem
            exact hok bloom hbloom change hmem term hbrings

/-- A process asks the filter of the body it has loaded. -/
theorem SieveInv.start (hshard : s.shard = .warm s.original) (hpolled : s.polled = [])
    (hbodies : (Sifting env s.original.index → Sieving env s s.original) → Carried (Sieving env s) (fun body => Sifting env body.index) s) :
    SieveInv env s := by
  have hexpected : expected env s = s.original.index := by
    rw [expected, hpolled]
    rfl
  have hown := hbodies fun hsifting => ⟨hsifting, by rw [hexpected]; exact hsifting.sieves⟩
  refine ⟨?_, hown, ?_⟩
  · rw [hexpected]
    exact (hown.shard _ (by rw [hshard]; rfl)).1.first
  · rw [hshard]
    rintro _ ⟨⟩

/-- Every step keeps the filters ahead of the polls. -/
theorem SieveInv.step {event : Event} (h : SieveInv env s) (hok : Sifted env s event) (hstep : step env s event = some s') :
    SieveInv env s' := by
  by_cases hpolls : event.polls = true
  · cases event with
    | poll changes aged settled_clock =>
      obtain ⟨_, hturn⟩ := Option.ite_none_right_eq_some.mp hstep
      cases hturn
      exact h.turn aged settled_clock hok
    | restart answers =>
      cases hstep
      obtain ⟨hshard, hpolled, -⟩ := load_live_drive_fresh s.volume s.disk s.wraps answers
      exact .start hshard hpolled (h.bodies.load_live_drive (readable_sifting h hok))
    | _ => cases hpolls
  · have hcarried : Carried (Sieving env s) (fun body => Sifting env body.index) s' := by
      refine h.bodies.step hstep (fun _ => And.left) (fun answers hreads => readable_sifting h ?_) ?_ ?_
      · cases event with
        | take reloaded => exact (hok.2 answers hreads).1
        | load refreshed => exact hok.1 answers hreads
        | restart answers => exact absurd rfl hpolls
        | _ => cases hreads
      · intro body hbrought hsifting
        cases event with
        | take reloaded =>
          simp only [brought] at hbrought
          split at hbrought
          · rename_i hqueue
            exact ReadAfter.sieving ((hok.2 _ rfl).2 (by rw [hqueue]; rfl) body hbrought) hsifting
          · cases hbrought
        | load refreshed => exact (hok.2 body hbrought).sieving hsifting
        | restart answers => exact absurd rfl hpolls
        | _ => cases hbrought
      · rintro reloaded body rfl hbody
        obtain ⟨hsifting, hsieves⟩ := h.bodies.shard body hbody
        refine ⟨hsifting.patch_index _ (hok.1 body hbody), ?_⟩
        rw [Body.apply_usn_patch, filter_patch_index _ hsifting.bloom]
        exact hsieves
    obtain ⟨horiginal, hpolled, hparked⟩ := (step_frame hstep).2 (Bool.eq_false_iff.mpr hpolls)
    have hexpected : expected env s' = expected env s := by rw [expected, horiginal, hpolled, expected]
    unfold Sieving at hcarried
    rw [← hexpected] at hcarried
    refine ⟨by rw [hexpected]; exact h.first, hcarried, fun parked_body hs => ?_⟩
    rw [hexpected]
    rcases hparked parked_body hs with hold | ⟨body, hbody, rfl⟩
    · exact h.parked parked_body hold
    · exact (h.bodies.shard body hbody).2

end Step

/-- In every run of steps that keep the filters ahead of the polls, a search that leaves the shard
Parked misses no file. -/
theorem sifted_run_skip_sound {env : Env} {letter : Char} {fold : CaseFold} {index : MftIndex}
    (hfirst : index.extension_names[0]? = some []) (hsizable : Sizable env (build_compact_index env letter fold index))
    (volume : Volume) (events : List Event) {s : Daemon}
    (hmeets : Meets (step env) (Sifted env) (boot volume (build_compact_index env letter fold index)) events)
    (hrun : run_events (step env) (boot volume (build_compact_index env letter fold index)) events = some s) : SkipSound env s := by
  have hbuilt : OfBuilder env (build_compact_index env letter fold index) := ⟨letter, fold, index, rfl, hfirst, hsizable⟩
  have hinv : SieveInv env s := by
    refine @run_invariant _ _ _ _ (SieveInv env) ?_ _ _ _ (.start rfl rfl fun hown => .boot hbuilt.sifting (hown hbuilt.sifting)) hmeets hrun
    exact fun s event s' h hok hstep => h.step hok hstep
  exact hinv.skipSound

/-- A volume whose extension table has these extensions. -/
def ext_body (names : List Str) : DriveCompactIndex := build_compact_index sample_env 'C' ⟨[]⟩ (ext_mft names)

/-- The drive is parked, read and promoted; a `zip` file is created and applied, and it is parked again. -/
def parked_after_create : List Event :=
  let read := ext_body [[], ['z', 'i', 'p']]
  start ++ [.demote .parked, .load (some { full := read, updated := read }), .install 0 false, .write fun _ => none,
    .poll [zip_change] false true, .take none, .swap, .demote .parked]

theorem parked_after_create_meets :
    Meets (step sample_env) (Sifted sample_env) (boot empty_volume (ext_body [[], ['z', 'i', 'p']])) parked_after_create := by
  have hbuilt : OfBuilder sample_env (ext_body [[], ['z', 'i', 'p']]) := ⟨'C', ⟨[]⟩, _, rfl, rfl, zip_mft_sizable⟩
  have hexpects : Expects sample_env (to_parked_body sample_env (ext_body [[], ['z', 'i', 'p']])).bloom [zip_change] := by
    intro change hmem term hbrings
    rw [List.mem_singleton.mp hmem] at hbrings
    cases normalized_ext_zip.symm.trans hbrings.2.2
    exact covers_build sample_env 'C' ⟨[]⟩ zip_mft_sizable _ rfl _ (List.mem_cons_of_mem _ List.mem_cons_self) (List.cons_ne_nil _ _)
  refine .cons trivial rfl ?_
  refine .cons trivial rfl ?_
  refine .cons trivial rfl ?_
  refine .cons ⟨?_, ?_⟩ rfl ?_
  · intro answers hanswers
    cases hanswers
    exact ⟨hbuilt, hbuilt⟩
  · -- no file exists yet
    rintro body - term ⟨rec, hrec, -⟩
    have hnone : (ext_body [[], ['z', 'i', 'p']]).records = [] := ext_mft_records _
    change rec ∈ (ext_body [[], ['z', 'i', 'p']]).records at hrec
    rw [hnone] at hrec
    cases hrec
  refine .cons trivial rfl ?_
  refine .cons trivial rfl ?_
  refine .cons ?_ rfl ?_
  · intro bloom hbloom
    rw [List.mem_singleton.mp (show bloom ∈ [(to_parked_body sample_env (ext_body [[], ['z', 'i', 'p']])).bloom] from hbloom)]
    exact hexpects
  refine .cons ⟨?_, fun _ hnone => absurd hnone (by rintro ⟨⟩)⟩ rfl ?_
  · intro body hbody
    cases hbody
    exact hexpects
  exact .cons trivial rfl (.cons trivial rfl trivial)

/-- With `zip` in the filter, the parked drive is skipped only where it may be. -/
theorem sifted_run_skip_sound_zip :
    ∃ s, run_events (step sample_env) (boot empty_volume (ext_body [[], ['z', 'i', 'p']])) parked_after_create = some s ∧
      s.polled.length = 1 ∧ SkipSound sample_env s := by
  refine ⟨_, rfl, rfl, ?_⟩
  exact sifted_run_skip_sound rfl zip_mft_sizable empty_volume parked_after_create parked_after_create_meets rfl

/-- The first `zip` file is created while the drive is parked: the frozen filter does not have it, and a
search for `zip` files leaves the drive where it is. -/
theorem parked_filter_misses_polled_create :
    ∃ s, run_events (step sample_env) (boot empty_volume (ext_body [[]]))
        (start ++ [.demote .parked, .write fun _ => none, .poll [zip_change] false true]) = some s ∧ ¬ SkipSound sample_env s := by
  refine ⟨_, rfl, ?_⟩
  intro h
  have hskip : decide_for_ext_filter sample_env (some (to_parked_body sample_env (ext_body [[]])).bloom) [['z', 'i', 'p']] = .Skip := by
    decide
  obtain ⟨rec, hrec, hlive, hext⟩ := zip_file_created
  refine h [['z', 'i', 'p']] ?_ rec hrec hlive _ (List.mem_singleton_self _) hext
  unfold bloom_pre_check_should_promote
  rw [if_neg (by decide)]
  change (decide_for_ext_filter sample_env (some (to_parked_body sample_env (ext_body [[]])).bloom) [['z', 'i', 'p']] == .Keep) = false
  rw [hskip]
  rfl

end uffs.daemon
