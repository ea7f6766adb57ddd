import Uffs.Search.Rewrite
import Uffs.Usn.ExactRun

open uffs.lib uffs.mft uffs.text uffs.bloom uffs.compact uffs.usn

namespace uffs.search

/-- Lowercasing ASCII text maps letter by letter. -/
def LowersAscii (env : Env) : Prop :=
  ∀ text : Str, (∀ ch ∈ text, ch.toNat < 0x80) → env.to_lowercase text = to_ascii_lowercase text

/-- The slots a match-all query with an extension filter admits. -/
def rewritten_slots (env : Env) (drive : DriveCompactIndex) (extensions : List Str) : List UInt32 :=
  (drive.resolve_ext_ids env extensions).flatMap drive.records_with_ext

/-- The slots whose name the pattern itself matches. -/
def OriginalSlot (engine : RegexEngine) (drive : DriveCompactIndex) (pattern : Str) (c : UInt32) : Prop :=
  ∃ rec, drive.records[c.toNat]? = some rec ∧
    original_matches engine drive.fold pattern (rec.name drive.names) = true

/-- A row that carries the id of the extension of its own name. -/
def Tagged (env : Env) (drive : DriveCompactIndex) (rec : CompactRecord) : Prop :=
  ∃ ext, normalized_ext env (rec.name drive.names) = some ext ∧
    drive.ext_names.idxOf? ext = some rec.extension_id.toNat

/-- The id of a row stands in the table for one of the extensions. -/
def IdAsked (drive : DriveCompactIndex) (extensions : List Str) (rec : CompactRecord) : Prop :=
  ∃ ext ∈ extensions, drive.ext_names.idxOf? ext = some rec.extension_id.toNat

/-- What a row needs for the rewrite to be right about it. With a tag, the pattern accepts its
last segment exactly if the lowercased segment is asked for; without one (a dotfile, a stream, an
ill-formed name), the pattern accepts its name exactly if its id is asked for all the same. -/
structure Faithful (env : Env) (engine : RegexEngine) (drive : DriveCompactIndex) (p : ExtPattern)
    (rec : CompactRecord) : Prop where
  tagged : Tagged env drive rec → ∀ before segment, rsplit_dot (rec.name drive.names) = some (before, segment) →
    (env.to_lowercase segment ∈ p.extensions ↔ p.Accepts engine drive.fold before segment)
  untagged : ¬ Tagged env drive rec →
    (IdAsked drive p.extensions rec ↔
      ∃ before segment, rsplit_dot (rec.name drive.names) = some (before, segment) ∧
        p.Accepts engine drive.fold before segment)

/-- The normalized extension is the lowercased last segment. -/
theorem normalized_ext_segment {env : Env} {name ext : Str} (h : normalized_ext env name = some ext) :
    ∃ before segment, rsplit_dot name = some (before, segment) ∧ ext = env.to_lowercase segment := by
  obtain ⟨⟨before, segment⟩, hsplit, h⟩ := Option.bind_eq_some_iff.mp h
  dsimp only at h
  split at h
  · cases h
  · split at h
    · cases h
    · obtain ⟨-, hdot⟩ := rsplit_dot_eq_some.mp hsplit
      have hdrop : segment.dropWhile (· == '.') = segment := by
        cases segment with
        | nil => rfl
        | cons ch rest =>
          have hch : (ch == '.') = false := beq_false_of_ne fun heq => hdot (heq ▸ List.mem_cons_self)
          rw [List.dropWhile_cons, hch]
          rfl
      rw [hdrop] at h
      exact ⟨before, segment, hsplit, (Option.some.inj h).symm⟩

theorem trim_word {word : Str} (h : ∀ ch ∈ word, is_word ch = true) : trim word = word := by
  have hdrop : ∀ list : Str, (∀ ch ∈ list, is_word ch = true) → list.dropWhile is_whitespace = list := by
    intro list hlist
    cases list with
    | nil => rfl
    | cons ch rest =>
      have hspace : is_whitespace ch = false := by
        have hrange := is_word_iff.mp (hlist ch List.mem_cons_self)
        unfold is_whitespace
        simp only [Bool.or_eq_false_iff, Bool.and_eq_false_iff, decide_eq_false_iff_not]
        omega
      rw [List.dropWhile_cons, hspace]
      rfl
  rw [trim, hdrop word h, hdrop word.reverse fun ch hmem => h ch (List.mem_reverse.mp hmem), List.reverse_reverse]

theorem is_word_lowercase {ch : Char} (h : is_word ch = true) : is_word ch.toLower = true := by
  have hrange := is_word_iff.mp h
  rw [is_word_iff, toLower_toNat]
  split <;> omega

theorem toLower_toLower (ch : Char) : ch.toLower.toLower = ch.toLower := by
  apply Char.toNat_inj.mp
  rw [toLower_toNat ch.toLower, toLower_toNat ch]
  by_cases hupper : 0x41 ≤ ch.toNat ∧ ch.toNat ≤ 0x5A
  · rw [if_pos hupper]
    exact if_neg (by omega)
  · rw [if_neg hupper]
    exact if_neg hupper

/-- An extension of the filter is looked up as it is. -/
theorem normalized_of_extension {env : Env} (hlower : LowersAscii env) {p : ExtPattern} (hpure : p.Pure) {ext : Str}
    (hext : ext ∈ p.extensions) :
    env.to_lowercase ((trim ext).dropWhile (· == '.')) = ext ∧ ext ≠ [] := by
  obtain ⟨word, hmem, rfl⟩ := List.mem_map.mp hext
  obtain ⟨hne, hword⟩ := is_pure_ext_iff.mp (hpure.pure_words word hmem)
  have hlow : ∀ ch ∈ to_ascii_lowercase word, is_word ch = true := by
    intro ch hch
    obtain ⟨source, hsource, rfl⟩ := List.mem_map.mp hch
    exact is_word_lowercase (hword source hsource)
  have hdrop : (to_ascii_lowercase word).dropWhile (· == '.') = to_ascii_lowercase word := by
    cases hcases : to_ascii_lowercase word with
    | nil => rfl
    | cons ch rest =>
      have hch : (ch == '.') = false :=
        beq_false_of_ne (not_is_word_ne (hlow ch (hcases ▸ List.mem_cons_self)) rfl)
      rw [List.dropWhile_cons, hch]
      rfl
  refine ⟨?_, fun hnil => hne (List.map_eq_nil_iff.mp hnil)⟩
  rw [trim_word hlow, hdrop, hlower _ fun ch hch => is_word_ascii (hlow ch hch), to_ascii_lowercase,
    to_ascii_lowercase, List.map_map]
  exact List.map_congr_left fun ch _ => toLower_toLower ch

/-- The ids of the filter are the positions of its extensions in the table. -/
theorem mem_resolve_ext_ids {env : Env} (hlower : LowersAscii env) {p : ExtPattern} (hpure : p.Pure)
    {drive : DriveCompactIndex} (htable : drive.ext_names.length ≤ UInt16.size) {id : UInt16} :
    id ∈ drive.resolve_ext_ids env p.extensions ↔
      ∃ ext ∈ p.extensions, drive.ext_names.idxOf? ext = some id.toNat := by
  unfold DriveCompactIndex.resolve_ext_ids
  rw [mem_dedup_runs, List.mem_mergeSort, List.mem_filterMap]
  refine exists_congr fun ext => and_congr_right fun hext => ?_
  obtain ⟨hnormal, hne⟩ := normalized_of_extension hlower hpure hext
  rw [hnormal, if_neg (by rw [List.isEmpty_iff]; exact hne), Option.map_eq_some_iff]
  constructor
  · rintro ⟨idx, hidx, rfl⟩
    have hlt : idx < UInt16.size := Nat.lt_of_lt_of_le (List.findIdx?_eq_some_iff_getElem.mp hidx).1 htable
    rw [hidx, ext_id_of, if_pos hlt, UInt16.toNat_ofNat', Nat.mod_eq_of_lt hlt]
  · intro hidx
    refine ⟨id.toNat, hidx, ?_⟩
    rw [ext_id_of, if_pos id.toNat_lt, UInt16.ofNat_toNat]

/-- The id of a tagged row is asked for if its lowercased segment is. -/
theorem Tagged.idAsked_iff {env : Env} {drive : DriveCompactIndex} {rec : CompactRecord} (htagged : Tagged env drive rec)
    {before segment : Str} (hsplit : rsplit_dot (rec.name drive.names) = some (before, segment)) {extensions : List Str} :
    IdAsked drive extensions rec ↔ env.to_lowercase segment ∈ extensions := by
  obtain ⟨ext, hext, hidx⟩ := htagged
  obtain ⟨before', segment', hsplit', rfl⟩ := normalized_ext_segment hext
  rw [hsplit] at hsplit'
  cases hsplit'
  constructor
  · rintro ⟨other, hother, hidx'⟩
    -- The same position holds the same extension.
    obtain ⟨_, hhere, -⟩ := List.idxOf?_eq_some_iff.mp hidx
    obtain ⟨_, hhere', -⟩ := List.idxOf?_eq_some_iff.mp hidx'
    rw [hhere.symm.trans hhere']
    exact hother
  · intro hmem
    exact ⟨_, hmem, hidx⟩

/-- A slot is admitted by the filter if its row is live and carries one of the ids. -/
theorem mem_rewritten_slots {env : Env} {letter : Char} {fold : CaseFold} {index : MftIndex} (hwf : WellFormed index)
    {drive : DriveCompactIndex} (hreach : Reachable env (build_compact_index env letter fold index) Roomy drive)
    {extensions : List Str} {c : UInt32} :
    c ∈ rewritten_slots env drive extensions ↔
      ∃ rec, drive.records[c.toNat]? = some rec ∧ rec.Live ∧ rec.extension_id ∈ drive.resolve_ext_ids env extensions := by
  obtain ⟨-, base, base_names, hinv⟩ := hreach.overlayInv hwf fun _ h => h
  have hexact := fun e => (records_with_ext_exact hinv hreach.ok e).mem c
  rw [rewritten_slots, List.mem_flatMap]
  constructor
  · rintro ⟨id, hid, hmem⟩
    obtain ⟨rec, hget, hlive, rfl⟩ := (hexact id).mp hmem
    exact ⟨rec, hget, hlive, hid⟩
  · rintro ⟨rec, hget, hlive, hid⟩
    exact ⟨rec.extension_id, hid, (hexact _).mpr ⟨rec, hget, hlive, rfl⟩⟩

/-- A nameless row has no dot. -/
theorem rsplit_dot_of_not_live {rec : CompactRecord} (names : List UInt8) (h : ¬ rec.Live) {before segment : Str} :
    rsplit_dot (rec.name names) ≠ some (before, segment) := by
  have hlen : rec.name_len = 0 := not_not.mp h
  have hbytes : rec.name_bytes names = as_bytes [] := by
    rw [CompactRecord.name_bytes, CompactRecord.name_range, hlen]
    cases hslice : slice? names rec.name_offset.toNat (rec.name_offset.toNat + (0 : UInt16).toNat) with
    | none => rfl
    | some row =>
      have hrow := slice?_length hslice
      rw [Nat.add_sub_cancel_left] at hrow
      exact List.length_eq_zero_iff.mp hrow
  rw [CompactRecord.name, hbytes, from_utf8_as_bytes, Option.getD_some]
  intro hsplit
  obtain ⟨hname, -⟩ := rsplit_dot_eq_some.mp hsplit
  exact absurd hname.symm (List.append_ne_nil_of_right_ne_nil _ (List.cons_ne_nil _ _))

/-- The rewrite of a query into a match-all query with an extension filter admits exactly the rows
that the pattern matches, if and only if every live row is one it is right about. -/
theorem rewrite_preserves_iff_faithful {env : Env} (hlower : LowersAscii env) {engine : RegexEngine}
    (hengine : engine.Documented) (letter : Char) (fold : CaseFold) {index : MftIndex} (hwf : WellFormed index)
    {drive : DriveCompactIndex} (hreach : Reachable env (build_compact_index env letter fold index) Roomy drive)
    (hfold : drive.fold.Upcase) (htable : drive.ext_names.length ≤ UInt16.size)
    {match_path case_sensitive drives_filter_empty : Bool} {query : Dispatch} (hnone : query.extensions = [])
    (hrewritten : (apply_dispatch_safety_nets match_path case_sensitive drives_filter_empty query).extensions ≠ []) :
    ∃ p : ExtPattern, p.Pure ∧ (drive_net match_path drives_filter_empty query).pattern = p.text ∧
      (apply_dispatch_safety_nets match_path case_sensitive drives_filter_empty query).pattern = ['*'] ∧
      ((∀ c, c ∈ rewritten_slots env drive
            (apply_dispatch_safety_nets match_path case_sensitive drives_filter_empty query).extensions ↔
          OriginalSlot engine drive (drive_net match_path drives_filter_empty query).pattern c) ↔
        ∀ rec ∈ drive.records, rec.Live → Faithful env engine drive p rec) := by
  obtain ⟨p, hpure, htext, hstar, hexts⟩ := rewritten_pattern hnone hrewritten
  refine ⟨p, hpure, htext, hstar, ?_⟩
  rw [hexts, htext]
  have hmatches := fun rec : CompactRecord => original_matches_iff hengine hfold hpure (rec.name drive.names)
  -- One row: both sides through its last segment.
  have hrow : ∀ rec : CompactRecord,
      ((rec.extension_id ∈ drive.resolve_ext_ids env p.extensions ↔
        original_matches engine drive.fold p.text (rec.name drive.names) = true) ↔ Faithful env engine drive p rec) := by
    intro rec
    have hasked : rec.extension_id ∈ drive.resolve_ext_ids env p.extensions ↔ IdAsked drive p.extensions rec :=
      mem_resolve_ext_ids hlower hpure htable
    rw [hmatches rec, hasked]
    constructor
    · intro h
      refine ⟨fun htagged before segment hsplit => ?_, fun _ => h⟩
      rw [← htagged.idAsked_iff hsplit, h]
      constructor
      · rintro ⟨before', segment', hsplit', haccepts⟩
        rw [hsplit] at hsplit'
        cases hsplit'
        exact haccepts
      · intro haccepts
        exact ⟨before, segment, hsplit, haccepts⟩
    · intro hfaithful
      by_cases htagged : Tagged env drive rec
      · obtain ⟨ext, hext, hidx⟩ := htagged
        obtain ⟨before, segment, hsplit, -⟩ := normalized_ext_segment hext
        rw [Tagged.idAsked_iff ⟨ext, hext, hidx⟩ hsplit,
          hfaithful.tagged ⟨ext, hext, hidx⟩ before segment hsplit]
        constructor
        · intro haccepts
          exact ⟨before, segment, hsplit, haccepts⟩
        · rintro ⟨before', segment', hsplit', haccepts⟩
          rw [hsplit] at hsplit'
          cases hsplit'
          exact haccepts
      · exact hfaithful.untagged htagged
  constructor
  · intro h rec hmem hlive
    obtain ⟨i, hget⟩ := List.getElem?_of_mem hmem
    have hlt := (List.getElem?_eq_some_iff.mp hget).1
    have hsize := Nat.lt_trans hlt hreach.ok.lt_size
    have hslot := h (len_to_u32 i)
    rw [mem_rewritten_slots hwf hreach, OriginalSlot, len_to_u32_toNat hsize, hget] at hslot
    rw [← hrow rec]
    constructor
    · intro hid
      obtain ⟨rec', hrec', hmatch⟩ := hslot.mp ⟨rec, rfl, hlive, hid⟩
      cases hrec'
      exact hmatch
    · intro hmatch
      obtain ⟨rec', hrec', -, hid⟩ := hslot.mpr ⟨rec, rfl, hmatch⟩
      cases hrec'
      exact hid
  · intro h c
    rw [mem_rewritten_slots hwf hreach]
    constructor
    · rintro ⟨rec, hget, hlive, hid⟩
      exact ⟨rec, hget, ((hrow rec).mpr (h rec (List.mem_of_getElem? hget) hlive)).mp hid⟩
    · rintro ⟨rec, hget, hmatch⟩
      have hlive : rec.Live := by
        by_contra hdead
        obtain ⟨before, segment, hsplit, -⟩ := (hmatches rec).mp hmatch
        exact rsplit_dot_of_not_live drive.names hdead hsplit
      exact ⟨rec, hget, hlive, ((hrow rec).mpr (h rec (List.mem_of_getElem? hget) hlive)).mpr hmatch⟩

/-- The anchor, the free start and the words of a regex for a trailing extension. -/
def parse_trailing (text : Str) : Option (Bool × Bool × List Str) := do
  let body := (strip_head ['^'] text).getD text
  let rest := (strip_head ['.', '*'] body).getD body
  let choice ← (strip_head ['\\', '.'] rest).bind (strip_last '$')
  let words := match (strip_head ['('] choice).bind (strip_last ')') with
    | none => [choice]
    | some group => split '|' group
  some ((strip_head ['^'] text).isSome, (strip_head ['.', '*'] body).isSome, words)

instance (caret dots : Bool) (before : Str) : Decidable (Leads caret dots before) :=
  inferInstanceAs (Decidable (caret = true → if dots then '\n' ∉ before else before = []))

/-- A regex library that knows the regexes for trailing extensions only. -/
def sample_engine : RegexEngine where
  build text := (parse_trailing text).map fun (caret, dots, words) name =>
    (List.range name.length).any fun i => name[i]? = some '.' && Leads caret dots (name.take i) &&
      words.any fun word => (name.drop (i + 1)).map Char.toLower = word.map Char.toLower
  ci_eq ch literal := ch.toLower = literal.toLower

theorem parse_trailing_regex_text (caret dots : Bool) {tail : RegexTail} (htail : tail.Pure) :
    parse_trailing (regex_text caret dots tail) = some (caret, dots, tail.words) := by
  have hlast : strip_last '$' (tail.text ++ ['$']) = some tail.text := strip_last_eq_some.mpr rfl
  have hwords : (match (strip_head ['('] tail.text).bind (strip_last ')') with
      | none => [tail.text]
      | some group => split '|' group) = tail.words := by
    cases tail with
    | single word =>
      obtain ⟨hne, hword⟩ := is_pure_ext_iff.mp (htail.2 word List.mem_cons_self)
      have hopen : strip_head ['('] word = none := by
        cases hstrip : strip_head ['('] word with
        | none => rfl
        | some rest =>
          rw [strip_head_eq_some.mp hstrip] at hword
          exact absurd (hword '(' List.mem_cons_self) (by decide)
      rw [RegexTail.text, hopen]
      rfl
    | group words =>
      have hopen : strip_head ['('] (RegexTail.group words).text = some (join '|' words ++ [')']) :=
        strip_head_eq_some.mpr rfl
      have hclose : strip_last ')' (join '|' words ++ [')']) = some (join '|' words) := strip_last_eq_some.mpr rfl
      rw [hopen, Option.bind_some, hclose]
      refine split_join htail.1 fun word hword hbar => ?_
      exact absurd ((is_pure_ext_iff.mp (htail.2 word hword)).2 _ hbar) (by decide)
  have hbody : ∀ rest : Str, strip_head ['\\', '.'] (['\\', '.'] ++ rest) = some rest :=
    fun rest => strip_head_eq_some.mpr rfl
  have hparse : ∀ caret dots : Bool, (∀ rest, strip_head ['\\', '.'] (['\\', '.'] ++ rest) = some rest) →
      parse_trailing (regex_text caret dots tail) = (strip_last '$' (tail.text ++ ['$'])).bind fun choice =>
        some (caret, dots, match (strip_head ['('] choice).bind (strip_last ')') with
          | none => [choice]
          | some group => split '|' group) := by
    intro caret dots _
    cases caret <;> cases dots <;> rfl
  rw [hparse caret dots hbody, hlast, Option.bind_some, hwords]

theorem sample_engine_literal {segment word : Str} :
    sample_engine.Literal segment word ↔ segment.map Char.toLower = word.map Char.toLower := by
  unfold RegexEngine.Literal sample_engine
  simp only [decide_eq_true_eq]
  rw [← List.forall₂_eq_eq_eq, List.forall₂_map_left_iff, List.forall₂_map_right_iff]

theorem sample_engine_documented : sample_engine.Documented where
  trailing := by
    intro caret dots tail htail
    refine ⟨_, congrArg (Option.map _) (parse_trailing_regex_text caret dots htail), fun text => ?_⟩
    simp only [List.any_eq_true, List.mem_range, Bool.and_eq_true, decide_eq_true_eq]
    constructor
    · rintro ⟨i, hlt, ⟨hdot, hleads⟩, word, hword, hsegment⟩
      obtain ⟨_, hdot⟩ := List.getElem?_eq_some_iff.mp hdot
      refine ⟨text.take i, text.drop (i + 1), ?_, hleads, word, hword, sample_engine_literal.mpr hsegment⟩
      rw [← hdot, List.cons_getElem_drop_succ, List.take_append_drop]
    · rintro ⟨before, segment, rfl, hleads, word, hword, hliteral⟩
      refine ⟨before.length, by simp, ⟨by simp, ?_⟩, word, hword, ?_⟩
      · rw [List.take_left]
        exact hleads
      · rw [← sample_engine_literal, List.drop_append, List.drop_eq_nil_of_le (Nat.le_succ _), Nat.add_sub_cancel_left]
        exact hliteral
  unknown_flag rest := rfl
  word_ne_dot := by
    intro ch hword
    have hlower := is_word_lowercase hword
    exact decide_eq_false fun heq : '.' = ch.toLower => absurd (heq ▸ hlower) (by decide)

/-- A table that folds ASCII letters only. -/
def sample_fold : CaseFold := ⟨(List.range 0x80).map fun cp => UInt16.ofNat (ascii_upper cp)⟩

theorem sample_fold_upcase : sample_fold.Upcase where
  ascii := by
    intro cp hcp
    rw [sample_fold, List.getElem?_map, List.getElem?_range hcp]
    rfl
  other := by
    intro cp hlarge hbmp
    have hnone : sample_fold.table[cp]? = none := List.getElem?_eq_none (by simpa [sample_fold] using hlarge)
    rw [hnone, Option.getD_none, UInt16.toNat_ofNat', Nat.mod_eq_of_lt hbmp]
    exact hlarge

theorem sample_fold_whole : sample_fold.Whole where
  toUpcase := sample_fold_upcase
  chars := by
    intro ch
    by_cases hascii : ch.toNat < 0x80
    · rw [sample_fold_upcase.folded_char_ascii hascii]
      rfl
    · have hnone : sample_fold.table[ch.toNat]? = none := List.getElem?_eq_none (by simpa [sample_fold] using hascii)
      unfold CaseFold.folded_char
      dsimp only
      rw [hnone, Option.getD_none]
      split_ifs with hbmp hvalid
      · rfl
      · rw [UInt16.toNat_ofNat', Nat.mod_eq_of_lt hbmp] at hvalid
        exact absurd ch.valid hvalid
      · rfl

theorem sample_env_lowersAscii : LowersAscii sample_env := fun _ _ => rfl

/-- A volume that knows the extension `zip` and has one file. -/
def file_mft (bits : UInt32) (name : Str) : MftIndex where
  records := [{ frs := 16, first_name := { name := { offset := 0, bits := bits }, parent_frs := 5 } }]
  frs_to_idx := List.replicate 16 NO_ENTRY ++ [0]
  names := as_bytes name
  extension_names := [[], ['z', 'i', 'p']]

def zip_query : Dispatch := ⟨['*', '.', 'z', 'i', 'p'], [], []⟩

theorem rewrite_preserves_iff_faithful_file :
    WellFormed (file_mft 0x10005 ['a', '.', 'z', 'i', 'p']) ∧
      (apply_dispatch_safety_nets false false true zip_query).extensions ≠ [] ∧
      ∃ p : ExtPattern, p.Pure ∧ (drive_net false true zip_query).pattern = p.text ∧
        (apply_dispatch_safety_nets false false true zip_query).pattern = ['*'] ∧
        ((∀ c, c ∈ rewritten_slots sample_env
              (build_compact_index sample_env 'C' sample_fold (file_mft 0x10005 ['a', '.', 'z', 'i', 'p']))
              (apply_dispatch_safety_nets false false true zip_query).extensions ↔
            OriginalSlot sample_engine
              (build_compact_index sample_env 'C' sample_fold (file_mft 0x10005 ['a', '.', 'z', 'i', 'p']))
              (drive_net false true zip_query).pattern c) ↔
          ∀ rec ∈ (build_compact_index sample_env 'C' sample_fold
              (file_mft 0x10005 ['a', '.', 'z', 'i', 'p'])).records, rec.Live →
            Faithful sample_env sample_engine
              (build_compact_index sample_env 'C' sample_fold (file_mft 0x10005 ['a', '.', 'z', 'i', 'p'])) p rec) := by
  have hwf : WellFormed (file_mft 0x10005 ['a', '.', 'z', 'i', 'p']) :=
    ⟨mapped_of_zipIdx (by decide), by decide, by decide, by decide⟩
  have hroomy := @roomy_build (file_mft 0x10005 ['a', '.', 'z', 'i', 'p']) (by decide) sample_env 'C' sample_fold
  have hrewritten : (apply_dispatch_safety_nets false false true zip_query).extensions ≠ [] := by decide
  exact ⟨hwf, hrewritten, rewrite_preserves_iff_faithful sample_env_lowersAscii sample_engine_documented 'C' sample_fold hwf
    (Reachable.start hroomy) sample_fold_upcase (show 2 ≤ UInt16.size by decide) rfl hrewritten⟩

/-- A file named `.zip` is found by `*.zip`, and no longer once the pattern is an extension filter. -/
theorem rewrite_loses_dotfile :
    WellFormed (file_mft 4 ['.', 'z', 'i', 'p']) ∧
      apply_dispatch_safety_nets false false true zip_query = ⟨['*'], [['z', 'i', 'p']], []⟩ ∧
      OriginalSlot sample_engine (build_compact_index sample_env 'C' sample_fold (file_mft 4 ['.', 'z', 'i', 'p']))
        zip_query.pattern 0 ∧
      0 ∉ rewritten_slots sample_env
        (build_compact_index sample_env 'C' sample_fold (file_mft 4 ['.', 'z', 'i', 'p'])) [['z', 'i', 'p']] := by
  have hwf : WellFormed (file_mft 4 ['.', 'z', 'i', 'p']) :=
    ⟨mapped_of_zipIdx (by decide), by decide, by decide, by decide⟩
  have hroomy := @roomy_build (file_mft 4 ['.', 'z', 'i', 'p']) (by decide) sample_env 'C' sample_fold
  have hpure : (ExtPattern.glob ['z', 'i', 'p']).Pure := ⟨by decide, by decide⟩
  -- The only row: its name, and no extension.
  have hrows : (build_compact_index sample_env 'C' sample_fold (file_mft 4 ['.', 'z', 'i', 'p'])).records[0]?.map (fun rec =>
      (rec.name (build_compact_index sample_env 'C' sample_fold (file_mft 4 ['.', 'z', 'i', 'p'])).names, rec.extension_id)) =
      some (['.', 'z', 'i', 'p'], 0) := by decide
  obtain ⟨rec, hget, hrec⟩ := Option.map_eq_some_iff.mp hrows
  obtain ⟨hname, hnone⟩ := Prod.mk.inj hrec
  refine ⟨hwf, by decide, ⟨rec, hget, ?_⟩, fun hmem => ?_⟩
  · refine (original_matches_iff sample_engine_documented sample_fold_upcase hpure _).mpr ⟨[], ['z', 'i', 'p'], ?_, rfl, ?_⟩
    · rw [hname]
      decide
    · rw [sample_fold_upcase.fold_into_eq]
      intro h
      cases h
  · obtain ⟨rec', hget', -, hid⟩ := (mem_rewritten_slots hwf (Reachable.start hroomy)).mp hmem
    cases hget.symm.trans hget'
    rw [hnone] at hid
    obtain ⟨ext, hext, hidx⟩ := (@mem_resolve_ext_ids _ sample_env_lowersAscii _ hpure
      (build_compact_index sample_env 'C' sample_fold (file_mft 4 ['.', 'z', 'i', 'p']))
      (show 2 ≤ UInt16.size by decide) _).mp hid
    rw [List.mem_singleton.mp hext] at hidx
    exact absurd hidx (by decide)

end uffs.search
