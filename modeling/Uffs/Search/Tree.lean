import Uffs.Usn.PathRun

open uffs.lib uffs.mft uffs.text uffs.bloom uffs.compact uffs.usn

namespace uffs.search

/-- How a name that is not UTF-8 is shown. -/
abbrev Render := List UInt8 → Str

/-- The name as it is shown in a path. -/
def name_display_with (render : Render) (rec : CompactRecord) (names : List UInt8) : Str :=
  (from_utf8 (rec.name_bytes names)).getD (render (rec.name_bytes names))

/-- A name that ends the climb to the root: none, or the dot of the root directory. -/
def ends_climb (bytes : List UInt8) : Bool := bytes.isEmpty || bytes == [0x2E]

theorem length_name_bytes_le (rec : CompactRecord) (names : List UInt8) : (rec.name_bytes names).length ≤ rec.name_len.toNat := by
  unfold CompactRecord.name_bytes CompactRecord.name_range slice?
  split <;> simp

/-- Rows from a slot up to the root; the climb stops after `fuel` rows. -/
def path_chain (records : List CompactRecord) (names : List UInt8) : Nat → Nat → List CompactRecord
  | 0, _ => []
  | fuel + 1, current_idx =>
    match records[current_idx]? with
    | none => []
    | some rec =>
      if ends_climb (rec.name_bytes names) then []
      else if rec.parent_idx = NO_ENTRY then [rec]
      else rec :: path_chain records names fuel rec.parent_idx.toNat

theorem length_path_chain_le (records : List CompactRecord) (names : List UInt8) (fuel current_idx : Nat) :
    (path_chain records names fuel current_idx).length ≤ fuel := by
  induction fuel generalizing current_idx with
  | zero => exact Nat.le_refl 0
  | succ fuel ih =>
    rw [path_chain]
    cases records[current_idx]? with
    | none => exact Nat.zero_le _
    | some rec =>
      dsimp only
      split
      · exact Nat.zero_le _
      · split
        · exact Nat.succ_le_succ (Nat.zero_le _)
        · exact Nat.succ_le_succ (ih _)

/-- Less fuel cuts the climb. -/
theorem take_path_chain (records : List CompactRecord) (names : List UInt8) (fuel current_idx : Nat) :
    (path_chain records names (fuel + 1) current_idx).take fuel = path_chain records names fuel current_idx := by
  induction fuel generalizing current_idx with
  | zero => rfl
  | succ fuel ih =>
    rw [path_chain, path_chain]
    cases records[current_idx]? with
    | none => rfl
    | some rec =>
      dsimp only
      split
      · rfl
      · split
        · rw [List.take_succ_cons, List.take_nil]
        · rw [List.take_succ_cons, ih]

/-- A component is set off by a backslash, unless one stands there already. -/
def push_component (path name : Str) : Str :=
  (if path.getLast? ≠ some '\\' ∧ path ≠ [] then path ++ ['\\'] else path) ++ name

/-- The climb looks at depths 0 to 256. -/
def MAX_DEPTH : Nat := 256

/-- The full path of a slot. -/
def resolve_path (drive : DriveCompactIndex) (record_idx : Nat) (volume_root : Str) (render : Render) : Str :=
  (path_chain drive.records drive.names (MAX_DEPTH + 1) record_idx).reverse.foldl (fun path rec =>
    if ends_climb (rec.name_bytes drive.names) then path
    else push_component path (name_display_with render rec drive.names)) volume_root

/-- Letter, colon and backslash. -/
def stack_volume_prefix (letter : Char) : Str := [letter, ':', '\\']

/-- The names of a slot and its ancestors up to the root, all live and well-formed. -/
inductive Ancestry (names : List UInt8) (records : List CompactRecord) : UInt32 → List Str → Prop where
  | root {idx : UInt32} {rec : CompactRecord} {name : Str} (hget : records[idx.toNat]? = some rec) (hlive : rec.Live)
      (hname : rec.name_range names = some (as_bytes name)) (hroot : rec.parent_idx = NO_ENTRY) :
      Ancestry names records idx [name]
  | child {idx : UInt32} {rec : CompactRecord} {name : Str} {above : List Str} (hget : records[idx.toNat]? = some rec)
      (hlive : rec.Live) (hname : rec.name_range names = some (as_bytes name)) (hparent : rec.parent_idx ≠ NO_ENTRY)
      (h : Ancestry names records rec.parent_idx above) : Ancestry names records idx (name :: above)

/-- No name on the way is a lone dot, and no directory name ends in a backslash. -/
def CleanPath (ancestry : List Str) : Prop :=
  (∀ name ∈ ancestry, name ≠ ['.']) ∧ ∀ name ∈ ancestry.tail, name.getLast? ≠ some '\\'

/-- Characters of the path as the lengths are added up: one separator per step. -/
def counted_chars : List Str → Nat
  | [] => DRIVE_PREFIX_CHARS + 1
  | [name] => DRIVE_PREFIX_CHARS + 1 + name.length
  | name :: above => counted_chars above + 1 + name.length

/-- Names of the chain that the climb keeps. -/
def kept_names (ancestry : List Str) : List Str := ancestry.takeWhile (· ≠ ['.'])

/-- Characters of the path that is put together from the kept names. -/
def shown_chars : List Str → Nat
  | [] => DRIVE_PREFIX_CHARS + 1
  | [name] => DRIVE_PREFIX_CHARS + 1 + name.length
  | name :: parent :: above =>
    shown_chars (parent :: above) + (if parent.getLast? = some '\\' then 0 else 1) + name.length

theorem counted_chars_cons (name : Str) {above : List Str} (hne : above ≠ []) :
    counted_chars (name :: above) = counted_chars above + 1 + name.length := by
  cases above with
  | nil => exact absurd rfl hne
  | cons parent above => rfl

theorem three_le_counted_chars (ancestry : List Str) : 3 ≤ counted_chars ancestry := by
  induction ancestry with
  | nil => decide
  | cons name above ih =>
    cases above with
    | nil => simp [counted_chars, DRIVE_PREFIX_CHARS]
    | cons parent above =>
      rw [counted_chars_cons name (List.cons_ne_nil _ _)]
      omega

theorem kept_names_dot (above : List Str) : kept_names (['.'] :: above) = [] := by simp [kept_names]

variable {name : Str} {ancestry : List Str}

theorem kept_names_cons (hdot : name ≠ ['.']) (above : List Str) :
    kept_names (name :: above) = name :: kept_names above := by
  simp [kept_names, hdot]

/-- The count is right exactly for clean paths, and too high otherwise. -/
theorem shown_chars_eq_iff (hne : ancestry ≠ []) (hnames : ∀ name ∈ ancestry, name ≠ []) :
    shown_chars (kept_names ancestry) ≤ counted_chars ancestry ∧
      (shown_chars (kept_names ancestry) = counted_chars ancestry ↔ CleanPath ancestry) := by
  induction ancestry with
  | nil => exact absurd rfl hne
  | cons name above ih =>
    by_cases hdot : name = ['.']
    · -- The climb stops at the slot itself.
      subst hdot
      have hmore : 3 < counted_chars (['.'] :: above) := by
        cases above with
        | nil => decide
        | cons parent above =>
          have hthree := three_le_counted_chars (parent :: above)
          rw [counted_chars_cons _ (List.cons_ne_nil _ _)]
          omega
      rw [kept_names_dot]
      refine ⟨Nat.le_of_lt hmore, fun heq => absurd heq (Nat.ne_of_lt hmore), fun hclean => ?_⟩
      exact absurd rfl (hclean.1 ['.'] List.mem_cons_self)
    · rw [kept_names_cons hdot]
      cases above with
      | nil =>
        refine ⟨Nat.le_refl _, fun _ => ⟨?_, ?_⟩, fun _ => rfl⟩
        · simpa using hdot
        · simp
      | cons parent above =>
        obtain ⟨hle, hiff⟩ := ih (List.cons_ne_nil _ _) fun other hother => hnames other (List.mem_cons_of_mem _ hother)
        rw [counted_chars_cons name (List.cons_ne_nil _ _)]
        by_cases hstop : parent = ['.']
        · subst hstop
          have hthree := three_le_counted_chars (['.'] :: above)
          rw [kept_names_dot]
          have hmore : shown_chars [name] < counted_chars (['.'] :: above) + 1 + name.length := by
            simp only [shown_chars, DRIVE_PREFIX_CHARS]
            omega
          refine ⟨Nat.le_of_lt hmore, fun heq => absurd heq (Nat.ne_of_lt hmore), fun hclean => ?_⟩
          exact absurd rfl (hclean.1 ['.'] (List.mem_cons_of_mem _ List.mem_cons_self))
        · rw [kept_names_cons hstop] at hle hiff ⊢
          rw [shown_chars]
          have hclean : CleanPath (name :: parent :: above) ↔
              CleanPath (parent :: above) ∧ parent.getLast? ≠ some '\\' := by
            simp only [CleanPath, List.mem_cons, forall_eq_or_imp, List.tail_cons]
            tauto
          rw [hclean, ← hiff]
          by_cases hslash : parent.getLast? = some '\\'
          · rw [if_pos hslash]
            refine ⟨by omega, fun heq => by omega, fun h => absurd hslash h.2⟩
          · rw [if_neg hslash]
            refine ⟨by omega, fun heq => ⟨by omega, hslash⟩, fun h => by omega⟩

variable {names : List UInt8} {records : List CompactRecord} {idx : UInt32} {rec : CompactRecord}

theorem Ancestry.ne_nil (h : Ancestry names records idx ancestry) : ancestry ≠ [] := by
  cases h with
  | root => exact List.cons_ne_nil _ _
  | child => exact List.cons_ne_nil _ _

/-- A live row has a name. -/
theorem name_ne_nil_of_live (hlive : rec.Live) (hname : rec.name_range names = some (as_bytes name)) :
    name ≠ [] := by
  rintro rfl
  have hlen := slice?_length hname
  rw [Nat.add_sub_cancel_left] at hlen
  exact hlive (UInt16.toNat_inj.mp hlen.symm)

theorem Ancestry.names_ne_nil (h : Ancestry names records idx ancestry) : ∀ name ∈ ancestry, name ≠ [] := by
  induction h with
  | root _ hlive hname =>
    intro name hmem
    rw [List.mem_singleton.mp hmem]
    exact name_ne_nil_of_live hlive hname
  | child _ hlive hname _ _ ih =>
    intro name hmem
    cases List.mem_cons.mp hmem with
    | inl heq => exact heq ▸ name_ne_nil_of_live hlive hname
    | inr hmem => exact ih name hmem

/-- The counted characters are the length of the path by its chain of parents. -/
theorem Ancestry.hasLen {ancestry : List Str} (h : Ancestry names records idx ancestry) :
    HasLen names records idx (counted_chars ancestry) := by
  induction h with
  | @root idx rec name hget hlive hname hroot =>
    have hchars : name_char_count rec names = name.length := name_char_count_of_range hname
    have hpos := List.length_pos_iff.mpr (name_ne_nil_of_live hlive hname)
    have hlen := @HasLen.root names records idx rec hget hroot
    rw [root_path_len, hchars, if_neg (by omega)] at hlen
    exact hlen
  | @child idx rec name above hget hlive hname hparent hup ih =>
    rw [counted_chars_cons name hup.ne_nil, ← name_char_count_of_range hname]
    exact HasLen.child hget hparent ih

theorem name_bytes_of_range (hname : rec.name_range names = some (as_bytes name)) :
    rec.name_bytes names = as_bytes name := by
  rw [CompactRecord.name_bytes, hname, Option.getD_some]

theorem ends_climb_iff (hne : name ≠ []) : ends_climb (as_bytes name) = true ↔ name = ['.'] := by
  have hdot : as_bytes ['.'] = [0x2E] := rfl
  rw [ends_climb, Bool.or_eq_true, List.isEmpty_iff, as_bytes_eq_nil, beq_iff_eq, ← hdot]
  constructor
  · rintro (h | h)
    · exact absurd h hne
    · exact as_bytes_injective h
  · rintro rfl
    exact Or.inr rfl

/-- A row that shows a name in a path. -/
def Shows (names : List UInt8) (rec : CompactRecord) (name : Str) : Prop :=
  ends_climb (rec.name_bytes names) = false ∧ ∀ render, name_display_with render rec names = name

/-- The climb keeps the rows of the names up to the first lone dot. -/
theorem Ancestry.path_chain (h : Ancestry names records idx ancestry) {fuel : Nat} (hfuel : ancestry.length ≤ fuel) :
    List.Forall₂ (Shows names) (search.path_chain records names fuel idx.toNat) (kept_names ancestry) := by
  have hshows : ∀ {rec : CompactRecord} {name : Str}, rec.Live → rec.name_range names = some (as_bytes name) →
      name ≠ ['.'] → Shows names rec name := by
    intro rec name hlive hname hdot
    refine ⟨?_, fun render => ?_⟩
    · rw [name_bytes_of_range hname, Bool.eq_false_iff, Ne, ends_climb_iff (name_ne_nil_of_live hlive hname)]
      exact hdot
    · rw [name_display_with, name_bytes_of_range hname, from_utf8_as_bytes, Option.getD_some]
  induction h generalizing fuel with
  | @root idx rec name hget hlive hname hroot =>
    obtain ⟨fuel, rfl⟩ := Nat.exists_eq_add_one_of_ne_zero (Nat.ne_zero_of_lt hfuel)
    rw [search.path_chain, hget]
    dsimp only
    by_cases hdot : name = ['.']
    · rw [name_bytes_of_range hname, if_pos ((ends_climb_iff (name_ne_nil_of_live hlive hname)).mpr hdot), hdot, kept_names_dot]
      exact List.Forall₂.nil
    · have hrow := hshows hlive hname hdot
      rw [hrow.1, if_neg Bool.false_ne_true, if_pos hroot, kept_names_cons hdot]
      exact List.Forall₂.cons hrow List.Forall₂.nil
  | @child idx rec name above hget hlive hname hparent hup ih =>
    obtain ⟨fuel, rfl⟩ := Nat.exists_eq_add_one_of_ne_zero (Nat.ne_zero_of_lt hfuel)
    rw [search.path_chain, hget]
    dsimp only
    by_cases hdot : name = ['.']
    · rw [name_bytes_of_range hname, if_pos ((ends_climb_iff (name_ne_nil_of_live hlive hname)).mpr hdot), hdot, kept_names_dot]
      exact List.Forall₂.nil
    · have hrow := hshows hlive hname hdot
      rw [hrow.1, if_neg Bool.false_ne_true, if_neg hparent, kept_names_cons hdot]
      exact List.Forall₂.cons hrow (ih (by simpa using hfuel))

/-- A path put together from its names, the slot's own name first. -/
def join_path (volume_root : Str) (kept : List Str) : Str :=
  kept.foldr (fun name path => push_component path name) volume_root

theorem foldl_shown {chain : List CompactRecord} {kept : List Str} (h : List.Forall₂ (Shows names) chain kept)
    (volume_root : Str) (render : Render) :
    chain.reverse.foldl (fun path rec =>
      if ends_climb (rec.name_bytes names) then path
      else push_component path (name_display_with render rec names)) volume_root = join_path volume_root kept := by
  rw [List.foldl_reverse]
  induction h with
  | nil => rfl
  | cons hshows _ ih =>
    rw [List.foldr_cons, ih, hshows.1, hshows.2 render]
    rfl

theorem push_component_getLast? (path : Str) (hne : name ≠ []) : (push_component path name).getLast? = name.getLast? := by
  rw [push_component, List.getLast?_append]
  obtain ⟨last, hlast⟩ := Option.ne_none_iff_exists'.mp fun h => hne (List.getLast?_eq_none_iff.mp h)
  rw [hlast]
  rfl

theorem join_path_length {volume_root : Str} (hlen : volume_root.length = 3) (hlast : volume_root.getLast? = some '\\')
    {kept : List Str} (hnames : ∀ name ∈ kept, name ≠ []) : (join_path volume_root kept).length = shown_chars kept := by
  induction kept with
  | nil => exact hlen
  | cons name above ih =>
    have habove := ih fun other hother => hnames other (List.mem_cons_of_mem _ hother)
    cases above with
    | nil =>
      change (push_component volume_root name).length = _
      rw [push_component, if_neg fun h => h.1 hlast, List.length_append, hlen]
      rfl
    | cons parent above =>
      have hparent : parent ≠ [] := hnames parent (List.mem_cons_of_mem _ List.mem_cons_self)
      have hend : (join_path volume_root (parent :: above)).getLast? = parent.getLast? := push_component_getLast? _ hparent
      have hpath : join_path volume_root (parent :: above) ≠ [] := by
        intro hnil
        rw [hnil, eq_comm, List.getLast?_nil, List.getLast?_eq_none_iff] at hend
        exact hparent hend
      change (push_component (join_path volume_root (parent :: above)) name).length = _
      rw [push_component, hend, shown_chars, ← habove, List.length_append]
      by_cases hslash : parent.getLast? = some '\\'
      · rw [if_neg fun h => h.1 hslash, if_pos hslash]
        simp
      · rw [if_pos ⟨hslash, hpath⟩, if_neg hslash, List.length_append, List.length_singleton]

/-- Characters of a resolved path. -/
theorem Ancestry.resolve_path_length {drive : DriveCompactIndex}
    (h : Ancestry drive.names drive.records idx ancestry) (hdepth : ancestry.length ≤ MAX_DEPTH + 1) (letter : Char)
    (render : Render) :
    (resolve_path drive idx.toNat ( stack_volume_prefix letter) render).length = shown_chars (kept_names ancestry) := by
  unfold resolve_path
  rw [foldl_shown (h.path_chain hdepth), join_path_length rfl rfl]
  intro name hmem
  exact h.names_ne_nil name (List.takeWhile_subset _ hmem)

/-- Where the stored lengths are exact, a stored length is the length of the resolved path exactly
if the path is clean. -/
theorem ExactLens.path_chars_iff {drive : DriveCompactIndex} (h : ExactLens drive)
    (hget : drive.records[idx.toNat]? = some rec) {ancestry : List Str}
    (hancestry : Ancestry drive.names drive.records idx ancestry) (hdepth : ancestry.length ≤ MAX_DEPTH + 1) (letter : Char)
    (render : Render) :
    rec.path_len.toNat = (resolve_path drive idx.toNat ( stack_volume_prefix letter) render).length ↔ CleanPath ancestry := by
  have hlive : rec.Live := by
    cases hancestry with
    | root hget' hlive =>
      cases hget.symm.trans hget'
      exact hlive
    | child hget' hlive =>
      cases hget.symm.trans hget'
      exact hlive
  have hstored := h.forest.len_at_eq (SameCore.refl _) h.exact_rows hancestry.hasLen hget hlive
  rw [len_at_of_get hget] at hstored
  rw [hstored, hancestry.resolve_path_length hdepth, eq_comm]
  exact (shown_chars_eq_iff hancestry.ne_nil hancestry.names_ne_nil).2

/-- In every run whose batches keep the stored lengths right: the stored length of a row whose
ancestors are live, well-formed and few enough is the number of characters of its path exactly if
no name on the way is a lone dot and no directory name ends in a backslash. -/
theorem path_len_eq_chars_iff_clean {env : Env} {letter : Char} {fold : CaseFold} {index : MftIndex}
    (hwf : WellFormed index)
    (hforest : Forest (build_compact_index env letter fold index).names (build_compact_index env letter fold index).records)
    {drive : DriveCompactIndex} (hrun : TidyRun env (build_compact_index env letter fold index) drive) {idx : UInt32}
    {rec : CompactRecord} (hget : drive.records[idx.toNat]? = some rec) {ancestry : List Str}
    (hancestry : Ancestry drive.names drive.records idx ancestry) (hdepth : ancestry.length ≤ MAX_DEPTH + 1)
    (render : Render) :
    rec.path_len.toNat = (resolve_path drive idx.toNat ( stack_volume_prefix drive.letter) render).length ↔
      CleanPath ancestry :=
  ExactLens.path_chars_iff (hrun.exactLens hwf hforest) hget hancestry hdepth drive.letter render

/-- Two rows, the second below the first. -/
theorem ancestry_pair (drive : DriveCompactIndex) (name above : Str)
    (hrows : (drive.records.map fun rec => (rec.name_len != 0, rec.parent_idx, rec.name_range drive.names)) =
      [(true, NO_ENTRY, some (as_bytes above)), (true, 0, some (as_bytes name))]) :
    ∃ rec, drive.records[1]? = some rec ∧ Ancestry drive.names drive.records 1 [name, above] := by
  obtain ⟨up, rest, hrecords, hup, hrest⟩ := List.map_eq_cons_iff.mp hrows
  obtain ⟨rec, rest', rfl, hrec, -⟩ := List.map_eq_cons_iff.mp hrest
  simp only [Prod.mk.injEq, bne_iff_ne] at hup hrec
  have hroot : Ancestry drive.names drive.records 0 [above] := .root (by rw [hrecords]; rfl) hup.1 hup.2.2 hup.2.1
  have hget : drive.records[1]? = some rec := by
    rw [hrecords]
    rfl
  refine ⟨rec, hget, .child hget hrec.1 hrec.2.2 ?_ (by rw [hrec.2.1]; exact hroot)⟩
  rw [hrec.2.1]
  decide

/-- The path of `b` is as long as its row says, after the directory above it is renamed. -/
theorem path_len_eq_chars_iff_clean_rename_dir :
    WellFormed dirs_mft ∧ ∃ rec,
      (apply_usn_patch sample_env (build_compact_index sample_env 'C' ⟨[]⟩ dirs_mft) [rename_dir]).1.records[1]? = some rec ∧
      CleanPath [['b'], ['a', 'a']] ∧ rec.path_len.toNat =
        (resolve_path (apply_usn_patch sample_env (build_compact_index sample_env 'C' ⟨[]⟩ dirs_mft) [rename_dir]).1 1
          ( stack_volume_prefix (apply_usn_patch sample_env (build_compact_index sample_env 'C' ⟨[]⟩ dirs_mft) [rename_dir]).1.letter)
          fun _ => []).length := by
  have hroomy := @roomy_build dirs_mft (by decide) sample_env 'C' ⟨[]⟩
  obtain ⟨rec, hget, hancestry⟩ := ancestry_pair
    (apply_usn_patch sample_env (build_compact_index sample_env 'C' ⟨[]⟩ dirs_mft) [rename_dir]).1 ['b'] ['a', 'a'] rfl
  have hclean : CleanPath [['b'], ['a', 'a']] := ⟨by decide, by decide⟩
  exact ⟨dirs_mft_wellFormed, rec, hget, hclean, (@path_len_eq_chars_iff_clean _ _ _ _ dirs_mft_wellFormed dirs_mft_forest _
    (.patch (.start hroomy) tidy_rename_dir roomy_rename_dir) 1 rec hget _ hancestry (by decide) fun _ => []).mpr hclean⟩

/-- A file `f` created in the root directory. -/
def create_in_root : FileChange where
  frs := 16
  parent_frs := 5
  filename := ['f']
  created := true

/-- A file created in the root directory by the journal: its stored length counts the dot of the
root record, its path does not show it. -/
theorem path_len_not_chars_in_root :
    WellFormed root_mft ∧ ∃ rec,
      (apply_usn_patch sample_env (build_compact_index sample_env 'C' ⟨[]⟩ root_mft) [create_in_root]).1.records[1]? = some rec ∧
      Ancestry (apply_usn_patch sample_env (build_compact_index sample_env 'C' ⟨[]⟩ root_mft) [create_in_root]).1.names
        (apply_usn_patch sample_env (build_compact_index sample_env 'C' ⟨[]⟩ root_mft) [create_in_root]).1.records 1
        [['f'], ['.']] ∧
      ∀ render, rec.path_len.toNat ≠
        (resolve_path (apply_usn_patch sample_env (build_compact_index sample_env 'C' ⟨[]⟩ root_mft) [create_in_root]).1 1
          ( stack_volume_prefix 'C') render).length := by
  obtain ⟨rec, hget, hancestry⟩ := ancestry_pair
    (apply_usn_patch sample_env (build_compact_index sample_env 'C' ⟨[]⟩ root_mft) [create_in_root]).1 ['f'] ['.'] rfl
  have hlen : (apply_usn_patch sample_env (build_compact_index sample_env 'C' ⟨[]⟩ root_mft) [create_in_root]).1.records[1]?.map
      CompactRecord.path_len = some 6 := by decide
  refine ⟨root_mft_wellFormed, rec, hget, hancestry, fun render heq => ?_⟩
  rw [hget] at hlen
  rw [Option.some.inj hlen] at heq
  exact absurd (show 6 = 4 from heq) (by decide)

end uffs.search
