import Uffs.Usn.Ends
import Uffs.Usn.Polls

open uffs.mft uffs.text uffs.bloom uffs.compact

namespace uffs.usn

/-- In every reachable index no two record numbers share a slot. -/
theorem Reachable.distinct {env : Env} {letter : Char} {fold : CaseFold} {index : MftIndex} (hwf : WellFormed index)
    {P : DriveCompactIndex → Prop} (hP : ∀ drive, P drive → Roomy drive) {drive : DriveCompactIndex}
    (hreach : Reachable env (build_compact_index env letter fold index) P drive) :
    ∀ f g, slot_of drive f ≠ NO_ENTRY → slot_of drive f = slot_of drive g → f = g := by
  have hboth : Linked drive.records drive.frs_to_compact ∧
      ∀ f g, slot_of drive f ≠ NO_ENTRY → slot_of drive f = slot_of drive g → f = g := by
    apply hreach.induction
    · intro hok
      refine ⟨Reachable.linked hwf hP (Reachable.start hok), ?_⟩
      have hrecord : ∀ f, slot_of (build_compact_index env letter fold index) f ≠ NO_ENTRY →
          ∃ record, index.records[(slot_of (build_compact_index env letter fold index) f).toNat]? = some record ∧
            record.frs.toNat = f.toNat := by
        intro f hf
        rw [slot_of_build] at hf ⊢
        cases hget : index.frs_to_idx[frs_to_usize f]? with
        | none => simp [hget] at hf
        | some idx =>
          rw [hget, Option.getD_some] at hf
          rw [Option.getD_some]
          exact hwf.mapped _ idx hget hf
      intro f g hf heq
      obtain ⟨record, hrec, hfrs⟩ := hrecord f hf
      obtain ⟨record', hrec', hfrs'⟩ := hrecord g (heq ▸ hf)
      rw [← heq, hrec] at hrec'
      cases hrec'
      exact UInt64.toNat.inj (hfrs.symm.trans hfrs')
    · rintro drive changes ⟨hlinked, hdistinct⟩ hok
      have hroomy := hP _ hok
      refine ⟨linked_apply_usn_patch hlinked hroomy.lt_size, ?_⟩
      have hrebuilt := apply_usn_patch_rebuilt env drive changes
      rw [Roomy, hrebuilt.length_eq] at hroomy
      have hsize : UInt32.size = 4294967296 := rfl
      have hmax := NO_ENTRY_toNat
      have hloop : Linked (mutated env drive changes).drive.records (mutated env drive changes).drive.frs_to_compact ∧
          ∀ f g, slot_of (mutated env drive changes).drive f ≠ NO_ENTRY →
            slot_of (mutated env drive changes).drive f = slot_of (mutated env drive changes).drive g → f = g := by
        apply run_changes_induction (motive := fun patch => Linked patch.drive.records patch.drive.frs_to_compact ∧
          ∀ f g, slot_of patch.drive f ≠ NO_ENTRY → slot_of patch.drive f = slot_of patch.drive g → f = g) hroomy
        · exact ⟨hlinked, hdistinct⟩
        · rintro patch change ⟨hlinked, hdistinct⟩ - hspace
          have heffect := apply_change_effect env patch change
          exact ⟨heffect.linked hlinked (by omega), heffect.distinct hspace hlinked hdistinct⟩
      intro f g
      rw [slot_of_of_map hrebuilt.map, slot_of_of_map hrebuilt.map]
      exact hloop.2 f g
    · exact fun drive h => h
  exact hboth.2

/-- The record numbers the journal speaks of lead to rows of their own. -/
def OwnSlots (drive : DriveCompactIndex) (records : List UsnRecord) : Prop :=
  ∀ f, Touches records f → slot_of drive f ≠ NO_ENTRY →
    ∃ row, drive.records[(slot_of drive f).toNat]? = some row ∧ row.frs = f

variable {records : List UsnRecord}

/-- What the view rests on holds in every reachable index. -/
theorem Reachable.sighted {env : Env} {letter : Char} {fold : CaseFold} {index : MftIndex} (hwf : WellFormed index)
    {drive : DriveCompactIndex} (hreach : Reachable env (build_compact_index env letter fold index) Roomy drive)
    (hown : OwnSlots drive records) : Sighted (Touches records) drive := by
  obtain ⟨hlinked, base, base_names, hoverlay⟩ := Reachable.overlayInv hwf (fun _ h => h) hreach
  exact ⟨hlinked, Reachable.distinct hwf (fun _ h => h) hreach, hoverlay.1.fits, hown⟩

section cut

variable {env : Env} {drive : DriveCompactIndex} {one two both : List FileChange}

/-- One patch with the whole journal and two patches with its parts return, and nothing a reader sees
in the indexes they leave shows the cut. -/
def CutHidden (env : Env) (drive : DriveCompactIndex) (one two both : List FileChange) : Prop :=
  ∃ whole between rest, PatchedTo env drive both whole ∧ PatchedTo env drive one between ∧ PatchedTo env between two rest ∧
    ∀ f, view whole f = view rest f

/-- None of the three patches moves the subtree of a directory that lies above a cycle. -/
structure NoEndlessWalk (env : Env) (drive : DriveCompactIndex) (one two both : List FileChange) : Prop where
  first : NoCycleShifted env drive one
  second : ∀ between, PatchedTo env drive one between → NoCycleShifted env between two
  both : NoCycleShifted env drive both

/-- The indexes the two runs leave have room for the rows and the names of the journal. -/
structure Room (env : Env) (drive : DriveCompactIndex) (one two both : List FileChange) : Prop where
  first : ∀ between, PatchedTo env drive one between → Fits between
  second : ∀ between rest, PatchedTo env drive one between → PatchedTo env between two rest → Fits rest
  both : ∀ whole, PatchedTo env drive both whole → Fits whole

/-- The patches return where no walk is endless, so what is left to compare is the views. -/
theorem cutHidden_iff {same : Prop}
    (hviews : ∀ whole between rest, PatchedTo env drive both whole → PatchedTo env drive one between →
      PatchedTo env between two rest → ((∀ f, view whole f = view rest f) ↔ same)) :
    CutHidden env drive one two both ↔ NoEndlessWalk env drive one two both ∧ same := by
  constructor
  · rintro ⟨whole, between, rest, hwhole, hbetween, hrest, hsame⟩
    refine ⟨⟨exists_patchedTo_iff.mp ⟨between, hbetween⟩, fun other hother => ?_, exists_patchedTo_iff.mp ⟨whole, hwhole⟩⟩,
      (hviews whole between rest hwhole hbetween hrest).mp hsame⟩
    rw [hother.unique hbetween]
    exact exists_patchedTo_iff.mp ⟨rest, hrest⟩
  · rintro ⟨hends, hsame⟩
    obtain ⟨whole, hwhole⟩ := exists_patchedTo_iff.mpr hends.both
    obtain ⟨between, hbetween⟩ := exists_patchedTo_iff.mpr hends.first
    obtain ⟨rest, hrest⟩ := exists_patchedTo_iff.mpr (hends.second between hbetween)
    exact ⟨whole, between, rest, hwhole, hbetween, hrest, (hviews whole between rest hwhole hbetween hrest).mpr hsame⟩

end cut

/-- From every reachable index, and in every iteration order of the three maps: where that order
decides nothing, the cut of the journal into two polls does not show if and only if no patch walks a
cycle and every file has the same net effect over the two parts as over the whole. -/
theorem poll_boundary_iff_steady {env : Env} {letter : Char} {fold : CaseFold} {index : MftIndex} (hwf : WellFormed index)
    {drive : DriveCompactIndex} (hreach : Reachable env (build_compact_index env letter fold index) Roomy drive)
    {first second : List UsnRecord} (hnumbers : ∀ record ∈ first ++ second, record.frs.toNat < 2 ^ 48)
    (hnamed : Named (first ++ second)) (hown : OwnSlots drive (first ++ second))
    (hsettled : Settled (mapped drive) first second) {one two both : List FileChange} (hone : BatchOf first one)
    (htwo : BatchOf second two) (hboth : BatchOf (first ++ second) both) (hroom : Room env drive one two both) :
    CutHidden env drive one two both ↔
      NoEndlessWalk env drive one two both ∧ ∀ f, Steady (mapped drive) first second f := by
  apply cutHidden_iff
  intro whole between rest hwhole hbetween hrest
  exact poll_cut_invisible_iff ⟨Reachable.sighted hwf hreach hown, hnumbers, hnamed, hone, htwo, hboth, hbetween.rebuilt,
    hrest.rebuilt, hwhole.rebuilt, hroom.first between hbetween, hroom.second between rest hbetween hrest,
    hroom.both whole hwhole⟩ hsettled

/-- One change adds at most a row and its name. -/
theorem apply_change_size (env : Env) (patch : Patch) (change : FileChange) :
    (apply_change env patch change).drive.records.length ≤ patch.drive.records.length + 1 ∧
      (apply_change env patch change).drive.names.length ≤ patch.drive.names.length + (as_bytes change.filename).length := by
  have hstaged := stage_create_staged env patch.drive change
  have hrecords := congrArg List.length hstaged.records
  have hnames := congrArg List.length hstaged.names
  rw [List.length_append] at hnames
  have hkept : patch.drive.records.length ≤ patch.drive.records.length + 1 ∧
      patch.drive.names.length ≤ patch.drive.names.length + (as_bytes change.filename).length :=
    ⟨Nat.le_succ _, Nat.le_add_right _ _⟩
  unfold apply_change
  dsimp only
  split
  · unfold apply_delete
    split
    · exact hkept
    · split
      · exact hkept
      · dsimp only
        rw [List.length_set]
        exact hkept
  · split
    · unfold apply_create
      split
      · exact hkept
      · dsimp only
        split
        · dsimp only
          rw [List.length_append, List.length_singleton]
          omega
        · split
          · dsimp only
            omega
          · dsimp only
            rw [List.length_set]
            omega
    · split
      · unfold apply_rename
        split
        · exact hkept
        · dsimp only
          split
          · dsimp only
            omega
          · dsimp only
            rw [List.length_set]
            omega
      · exact hkept

/-- A batch of named changes adds at most a row and a name each. -/
theorem Applied.size {env : Env} {drive result : DriveCompactIndex} {batch : List FileChange} {bytes : Nat}
    (happlied : Applied env drive batch result) (hbytes : ∀ change ∈ batch, (as_bytes change.filename).length ≤ bytes) :
    result.records.length ≤ drive.records.length + batch.length ∧
      result.names.length ≤ drive.names.length + batch.length * bytes := by
  have hrun : ∀ (changes : List FileChange) (patch : Patch), (∀ change ∈ changes, (as_bytes change.filename).length ≤ bytes) →
      (changes.foldl (apply_change env) patch).drive.records.length ≤ patch.drive.records.length + changes.length ∧
        (changes.foldl (apply_change env) patch).drive.names.length ≤ patch.drive.names.length + changes.length * bytes := by
    intro changes
    induction changes with
    | nil => exact fun patch _ => ⟨Nat.le_refl _, by simp⟩
    | cons change changes ih =>
      intro patch hle
      obtain ⟨hrecords, hnames⟩ := apply_change_size env patch change
      obtain ⟨hrecords', hnames'⟩ := ih (apply_change env patch change) fun ch hch => hle ch (List.mem_cons_of_mem _ hch)
      have hone := hle change List.mem_cons_self
      rw [List.foldl_cons, List.length_cons, Nat.succ_mul]
      exact ⟨by omega, by omega⟩
  have hperm := order_parent_first_perm batch
  have hsize := hrun (order_parent_first batch) { drive := drive } fun change hchange => hbytes change (hperm.mem_iff.mp hchange)
  rw [hperm.length_eq] at hsize
  rw [happlied.length_eq, happlied.names]
  exact hsize

theorem net_change_eq_none {frs : UInt64} (h : ∀ record ∈ records, record.frs ≠ frs) : net_change records frs = none := by
  cases hnet : net_change records frs with
  | none => rfl
  | some change =>
    obtain ⟨record, hmem, hfrs, -⟩ := net_change_source hnet
    exact absurd hfrs (h record hmem)

/-- No directory of the journal is itself in the journal. -/
def ParentsOutside (records : List UsnRecord) : Prop := ∀ child ∈ records, ∀ record ∈ records, record.frs ≠ child.parent_frs

theorem ParentsOutside.acyclic (h : ParentsOutside records) : Acyclic (aggregate_changes records) := by
  have hnet : ∀ change ∈ aggregate_changes records, net_change records change.frs = some change := by
    intro change hchange
    rw [← change_of_aggregate_changes]
    exact (change_of_eq_some (aggregate_changes_nodup records)).mpr ⟨hchange, rfl⟩
  refine ⟨fun _ => 0, ?_⟩
  rintro change hchange - ⟨-, -, hcreates⟩
  obtain ⟨parent, hparent, -, hfrs⟩ := mem_batch_creates.mp hcreates
  obtain ⟨child, hchild, -, hchildParent⟩ := net_change_source (hnet change hchange)
  obtain ⟨record, hrecord, hrecordFrs, -⟩ := net_change_source (hnet parent hparent)
  exact absurd (hrecordFrs.trans (hfrs.trans hchildParent.symm)) (h child hchild record hrecord)

theorem ParentsOutside.net_parent {records part : List UsnRecord} (h : ParentsOutside records) (hpart : ∀ record ∈ part, record ∈ records)
    {child : UsnRecord} (hchild : child ∈ records) : net_change part child.parent_frs = none :=
  net_change_eq_none fun record hrecord => h child hchild record (hpart record hrecord)

/-- Then no iteration order decides anything. -/
theorem ParentsOutside.settled {first second : List UsnRecord} (h : ParentsOutside (first ++ second)) (before : UInt64 → Bool) :
    Settled before first second := by
  have hleft : ∀ record ∈ first, record ∈ first ++ second := fun _ hr => List.mem_append_left _ hr
  have hright : ∀ record ∈ second, record ∈ first ++ second := fun _ hr => List.mem_append_right _ hr
  have hundisputed : ∀ (part : List UsnRecord) (known : UInt64 → Bool), (∀ record ∈ part, record ∈ first ++ second) → ∀ f change,
      net_change part f = some change → Undisputed known (net_change part) change := by
    intro part known hpart f change hchange _ parent hparent
    obtain ⟨child, hchild, -, hsource⟩ := net_change_source hchange
    rw [← hsource, h.net_parent hpart (hpart child hchild)] at hparent
    cases hparent
  refine ⟨?_, ?_, h.acyclic, ?_, ?_, ?_⟩
  · exact ParentsOutside.acyclic fun child hchild record hrecord => h child (hleft child hchild) record (hleft record hrecord)
  · exact ParentsOutside.acyclic fun child hchild record hrecord => h child (hright child hchild) record (hright record hrecord)
  · exact fun f a ha _ _ => hundisputed first before hleft f a ha
  · exact fun f b hb _ => hundisputed second _ hright f b hb
  · exact fun f c hc _ => hundisputed (first ++ second) before (fun _ hr => hr) f c hc

/-- A file created in the root directory. -/
def file_created : UsnRecord where
  frs := 16
  parent_frs := 5
  reason := reason.FILE_CREATE
  filename := ['a']

/-- The same file, renamed. -/
def file_renamed : UsnRecord where
  frs := 16
  parent_frs := 5
  reason := reason.RENAME_NEW_NAME
  filename := ['b']

/-- A second hard link to the same file. -/
def file_linked : UsnRecord where
  frs := 16
  parent_frs := 5
  reason := reason.HARD_LINK_CHANGE
  filename := ['b']

theorem root_mft_size : (sample_index root_mft).records.length ≤ 1 ∧
    (sample_index root_mft).names.length ≤ 1 := by
  obtain ⟨hcore, hnames, -⟩ := build_compact_index_columns sample_env 'C' ⟨[]⟩ root_mft
  rw [hcore.length_eq, hnames]
  exact ⟨by decide, by decide⟩

theorem root_mft_ownSlots (records : List UsnRecord) : OwnSlots (sample_index root_mft) records := by
  have howned := (slotsOwned_build_iff sample_env 'C' ⟨[]⟩ root_mft_wellFormed).mpr (by
    intro f idx hget hidx
    have hf : f = 5 := by
      by_contra hne
      have : ∀ f < 6, f ≠ 5 → root_mft.frs_to_idx[f]? = some NO_ENTRY := by decide
      by_cases hlt : f < 6
      · rw [this f hlt hne] at hget
        exact hidx (Option.some.inj hget).symm
      · rw [List.getElem?_eq_none (by simpa [root_mft] using Nat.le_of_not_lt hlt)] at hget
        cases hget
    subst hf
    obtain rfl : idx = 0 := (Option.some.inj hget).symm
    exact ⟨_, rfl, by decide, by decide⟩)
  intro f _ hf
  obtain ⟨row, hget, -, hfrs⟩ := howned f hf
  exact ⟨row, hget, hfrs⟩

/-- A few short names fit on the volume with only a root directory. -/
theorem root_mft_fits {batch : List FileChange} {result : DriveCompactIndex}
    (happlied : Applied sample_env (sample_index root_mft) batch result) (hlength : batch.length ≤ 6)
    (hbytes : ∀ change ∈ batch, (as_bytes change.filename).length ≤ 1) : Fits result := by
  obtain ⟨hrecords, hnames⟩ := root_mft_size
  have hsize : UInt32.size = 4294967296 := rfl
  have hmax := NO_ENTRY_toNat
  have happlied := happlied.size hbytes
  generalize sample_index root_mft = drive at *
  exact ⟨by omega, by omega⟩

/-- Two short polls on the volume with only a root directory have room. -/
theorem root_mft_room {one two both : List FileChange} (hone : one.length ≤ 3) (htwo : two.length ≤ 3) (hboth : both.length ≤ 3)
    (hbytes : ∀ change ∈ one ++ two ++ both, (as_bytes change.filename).length ≤ 1) :
    Room sample_env (sample_index root_mft) one two both := by
  refine ⟨fun between h => ?_, fun between rest h h' => ?_, fun whole h => ?_⟩
  · exact root_mft_fits h.rebuilt (by omega) fun ch hch => hbytes ch (by simp [hch])
  · obtain ⟨hrecords, hnames⟩ := root_mft_size
    have hsize : UInt32.size = 4294967296 := rfl
    have hmax := NO_ENTRY_toNat
    have hfirst := Applied.size h.rebuilt fun ch hch => hbytes ch (by simp [hch])
    have hrest := Applied.size h'.rebuilt fun ch hch => hbytes ch (by simp [hch])
    generalize sample_index root_mft = drive at *
    exact ⟨by omega, by omega⟩
  · exact root_mft_fits h.rebuilt (by omega) fun ch hch => hbytes ch (by simp [hch])

/-- The two polls of a create and a rename return, and so does the whole. -/
theorem root_mft_returns {one two both : List FileChange} {fuel : Nat} {between rest whole : DriveCompactIndex × PatchStats}
    (hone : apply_usn_patch_within sample_env fuel (sample_index root_mft) one = some between)
    (htwo : apply_usn_patch_within sample_env fuel between.1 two = some rest)
    (hboth : apply_usn_patch_within sample_env fuel (sample_index root_mft) both = some whole) :
    NoEndlessWalk sample_env (sample_index root_mft) one two both := by
  have hfirst : PatchedTo sample_env (sample_index root_mft) one between.1 := ⟨fuel, between.2, hone⟩
  refine ⟨exists_patchedTo_iff.mp ⟨_, hfirst⟩, fun other hother => ?_, exists_patchedTo_iff.mp ⟨whole.1, fuel, whole.2, hboth⟩⟩
  rw [hother.unique hfirst]
  exact exists_patchedTo_iff.mp ⟨rest.1, fuel, rest.2, htwo⟩

/-- Create and rename, cut between the two polls. -/
theorem poll_boundary_iff_steady_rename :
    WellFormed root_mft ∧ CutHidden sample_env (build_compact_index sample_env 'C' ⟨[]⟩ root_mft)
      (aggregate_changes [file_created]) (aggregate_changes [file_renamed]) (aggregate_changes [file_created, file_renamed]) := by
  refine ⟨root_mft_wellFormed, ?_⟩
  have houtside : ParentsOutside ([file_created] ++ [file_renamed]) := by simp [ParentsOutside, file_created, file_renamed]
  apply (@poll_boundary_iff_steady sample_env 'C' ⟨[]⟩ root_mft root_mft_wellFormed _ (Reachable.start (roomy_build (by decide) _ _ _))
    [file_created] [file_renamed] (by decide) (by simp [Named, file_created, file_renamed]) (root_mft_ownSlots _) (houtside.settled _) _ _ _ (List.Perm.refl _)
    (List.Perm.refl _) (List.Perm.refl _) (root_mft_room (by decide) (by decide) (by decide) (by decide))).mpr
  refine ⟨@root_mft_returns _ _ _ 3 _ _ _ rfl rfl rfl, ?_⟩
  generalize mapped (build_compact_index sample_env 'C' ⟨[]⟩ root_mft) = before
  intro f
  by_cases hf : f = 16
  · subst hf
    have hfirst : net_change [file_created] 16 = some { empty_change 16 with parent_frs := 5, filename := ['a'], created := true } := rfl
    have hsecond : net_change [file_renamed] 16 = some { empty_change 16 with parent_frs := 5, filename := ['b'], renamed := true } := rfl
    have houter : net_change [file_created] 5 = none ∧ net_change [file_renamed] 5 = none ∧
        net_change [file_created, file_renamed] 5 = none := ⟨rfl, rfl, rfl⟩
    refine ⟨by simp [hsecond], ?_, ?_, ?_⟩
    · rintro b hb -
      cases hsecond.symm.trans hb
      simp [found, mapped_by, empty_change, houter.1, houter.2.1, houter.2.2]
    · rintro a b ha - - -
      cases hfirst.symm.trans ha
      refine ⟨?_, fun _ hresets => absurd hresets (by decide)⟩
      rintro ⟨⟩
    · rintro a b - hb - - hnot
      cases hsecond.symm.trans hb
      cases hnot
  · have hnone : ∀ record : UsnRecord, record.frs = 16 → net_change [record] f = none := by
      intro record hrecord
      apply net_change_eq_none
      simp [hrecord, Ne.symm hf]
    have hfirst := hnone file_created rfl
    have hsecond := hnone file_renamed rfl
    exact ⟨by simp [hfirst], by simp [hsecond], by simp [hfirst], by simp [hfirst]⟩

/-- A create and a hard link in one poll: the file gets the name of the link; in two polls it
keeps its own. -/
theorem poll_boundary_shows_hard_link :
    NoEndlessWalk sample_env (build_compact_index sample_env 'C' ⟨[]⟩ root_mft) (aggregate_changes [file_created])
        (aggregate_changes [file_linked]) (aggregate_changes [file_created, file_linked]) ∧
      ¬CutHidden sample_env (build_compact_index sample_env 'C' ⟨[]⟩ root_mft) (aggregate_changes [file_created])
        (aggregate_changes [file_linked]) (aggregate_changes [file_created, file_linked]) := by
  have houtside : ParentsOutside ([file_created] ++ [file_linked]) := by simp [ParentsOutside, file_created, file_linked]
  have hsighted := Reachable.sighted root_mft_wellFormed (Reachable.start (@roomy_build root_mft (by decide) sample_env 'C' ⟨[]⟩))
    (root_mft_ownSlots ([file_created] ++ [file_linked]))
  have hroom := @root_mft_room (aggregate_changes [file_created]) (aggregate_changes [file_linked])
    (aggregate_changes ([file_created] ++ [file_linked])) (by decide) (by decide) (by decide) (by decide)
  refine ⟨@root_mft_returns _ _ _ 3 _ _ _ rfl rfl rfl, ?_⟩
  rintro ⟨whole, between, rest, hwhole, hbetween, hrest, hsame⟩
  have hsteady := (poll_cut_invisible_iff ⟨hsighted, by decide, by simp [Named, file_created, file_linked], List.Perm.refl _,
    List.Perm.refl _, List.Perm.refl _, hbetween.rebuilt, hrest.rebuilt, hwhole.rebuilt, hroom.first _ hbetween,
    hroom.second _ _ hbetween hrest, hroom.both _ hwhole⟩ (houtside.settled _)).mp hsame 16
  obtain ⟨hname, -⟩ := hsteady.same_name _ _ rfl rfl rfl rfl rfl ⟨rfl, Or.inl rfl⟩
  exact absurd hname (by decide)

end uffs.usn
