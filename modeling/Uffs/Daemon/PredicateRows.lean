import Uffs.Daemon.PredicateExact

open uffs.mft uffs.text uffs.bloom uffs.compact uffs.search uffs.lib

namespace uffs.daemon

/-! When the filters built from a list of predicates admit the records whose rows meet the predicates. -/

section number

/-- A bound of some width tests what the row's number is tested for, unless the width gets in the way. -/
theorem bound_check_eq_match_iff {α : Type} [LT α] [DecidableLT α] [DecidableEq α] {succ pred : α → α} {key : α → Nat}
    (hkey : ∀ a b, a < b ↔ key a < key b) (hinj : ∀ a b, key a = key b → a = b) {cap : Nat} (hcap : 0 < cap)
    (hsucc : ∀ a, key (succ a) = min (key a + 1) cap) (hpred : ∀ a, key (pred a) = key a - 1)
    {op : SearchPredicateOp} (hne : op ≠ .Ne) {bound stored : α} {value shown : UInt64}
    (hbound : key bound = min value.toNat cap) (hstored : key stored = min shown.toNat cap) (field : Str) :
    bound_check succ pred op bound stored = match_u64 shown ⟨field, op, .U64 value⟩ ↔
      CapExact cap op value.toNat shown.toNat := by
  rw [bound_check_eq_capped hkey hinj hsucc hpred hbound hstored, match_u64_eq shown value _ rfl,
    capped_check_eq_iff hcap hne]

/-- The length is stored as it is shown, cut to its width, and neither the width nor the zero gets in the way. -/
def LenExact (op : SearchPredicateOp) (value : UInt64) (stored : UInt16) (shown : UInt64) : Prop :=
  stored.toNat = min shown.toNat 65535 ∧ CapExact 65535 op value.toNat shown.toNat

theorem len_check_eq_match_iff {op : SearchPredicateOp} (hne : op ≠ .Ne) {value : UInt64} {stored : UInt16} {shown : UInt64}
    (hstored : stored.toNat = min shown.toNat 65535) (field : Str) :
    bound_check succ_u16 pred_u16 op (to_u16 value) stored = match_u64 shown ⟨field, op, .U64 value⟩ ↔
      LenExact op value stored shown := by
  rw [LenExact, and_iff_right hstored]
  exact bound_check_eq_match_iff (fun _ _ => UInt16.lt_iff_toNat_lt) (fun _ _ => UInt16.toNat_inj.mp) (by decide)
    toNat_succ_u16 toNat_pred_u16 hne (toNat_to_u16 value) hstored field

end number

section wildcards

/-- The table behind a pattern: which first parts of the text it covers. -/
structure Covers (text pattern : List UInt8) (dp : List Bool) : Prop where
  length : dp.length = text.length + 1
  covered : ∀ k ≤ text.length, dp[k]? = some true ↔ glob.Matches 0x2A 0x3F pattern (text.take k)

variable {text pattern : List UInt8} {dp : List Bool}

theorem foldl_or_iff (dp : List Bool) (start : Bool) :
    dp.foldl (fun seen slot => seen || slot) start = true ↔ start = true ∨ true ∈ dp := by
  induction dp generalizing start with
  | nil => simp
  | cons slot dp ih => rw [List.foldl_cons, ih, Bool.or_eq_true, List.mem_cons, or_assoc, @eq_comm _ true slot]

/-- One token of the pattern fills the next table. -/
theorem Covers.wildcard_row (h : Covers text pattern dp) (token : UInt8) :
    Covers text (pattern ++ [token]) (wildcard_row text dp token) := by
  rw [daemon.wildcard_row]
  split
  next hstar =>
    subst hstar
    refine ⟨by simp [h.length], fun k hk => ?_⟩
    have hlen : k + 1 ≤ dp.length := by
      rw [h.length]
      omega
    rw [List.getElem?_tail, List.getElem?_scanl, if_pos hlen, Option.some_inj, foldl_or_iff, glob.Matches.concat_star_iff]
    constructor
    · rintro (hfalse | hmem)
      · cases hfalse
      · obtain ⟨j, hget⟩ := List.mem_iff_getElem?.mp hmem
        obtain ⟨hj, hget⟩ := Option.ite_none_right_eq_some.mp (List.getElem?_take ▸ hget)
        exact ⟨text.take j, List.take_prefix_take_left (by omega), (h.covered j (by omega)).mp hget⟩
    · rintro ⟨head, hfront, hhead⟩
      obtain ⟨hfront, hle⟩ := List.prefix_take_iff.mp hfront
      rw [List.prefix_iff_eq_take.mp hfront] at hhead
      refine .inr (List.mem_iff_getElem?.mpr ⟨head.length, ?_⟩)
      rw [List.getElem?_take_of_lt (Nat.lt_succ_of_le hle)]
      exact (h.covered _ (hle.trans hk)).mpr hhead
  next hstar =>
    have hzero : ¬ glob.Matches 0x2A 0x3F (pattern ++ [token]) (text.take 0) := by
      rw [glob.Matches.append_iff]
      rintro ⟨head, tail, hempty, -, htail⟩
      obtain ⟨c, rest, rfl, -⟩ := (glob.Matches.one_iff hstar).mp htail
      simp at hempty
    have hsucc : ∀ k, (hk : k < text.length) → (glob.Matches 0x2A 0x3F (pattern ++ [token]) (text.take (k + 1)) ↔
        dp[k]? = some true ∧ (token = 0x3F ∨ token = text[k])) := by
      intro k hk
      rw [h.covered k hk.le, glob.Matches.append_iff, List.take_succ_eq_append_getElem hk]
      constructor
      · rintro ⟨head, tail, happend, hhead, htail⟩
        obtain ⟨c, rest, rfl, hone, hrest⟩ := (glob.Matches.one_iff hstar).mp htail
        cases hrest
        obtain ⟨rfl, rfl⟩ := List.append_singleton_inj.mp happend
        exact ⟨hhead, hone⟩
      · rintro ⟨hhead, hone⟩
        exact ⟨_, _, rfl, hhead, .one hstar hone .nil⟩
    split
    next hany =>
      subst hany
      refine ⟨by simp [h.length], fun k hk => ?_⟩
      cases k with
      | zero => exact iff_of_false (by simp) hzero
      | succ k =>
        have hlast : k < dp.length - 1 := by rw [h.length]; omega
        rw [hsucc k hk, List.getElem?_cons_succ, List.getElem?_dropLast, if_pos hlast]
        simp
    next hany =>
      refine ⟨by simp [h.length], fun k hk => ?_⟩
      cases k with
      | zero => exact iff_of_false (by simp) hzero
      | succ k =>
        rw [hsucc k hk, List.getElem?_cons_succ, List.getElem?_zipWith]
        have hdp : k < dp.length := by
          rw [h.length]
          omega
        rw [List.getElem?_eq_getElem hdp, List.getElem?_eq_getElem hk]
        simp [hany, @eq_comm _ token]

theorem covers_nil (text : List UInt8) : Covers text [] (true :: text.map fun _ => false) := by
  refine ⟨by simp, fun k hk => ?_⟩
  cases k with
  | zero => exact iff_of_true rfl .nil
  | succ k =>
    refine iff_of_false (by simp [List.getElem?_replicate]) fun h => ?_
    generalize htake : text.take (k + 1) = taken at h
    cases h
    have hlength := congrArg List.length htake
    rw [List.length_take, List.length_nil] at hlength
    omega

theorem Covers.fold (h : Covers text pattern dp) (more : List UInt8) :
    Covers text (pattern ++ more) (more.foldl (daemon.wildcard_row text) dp) := by
  induction more generalizing pattern dp with
  | nil => rwa [List.append_nil]
  | cons token more ih => exact List.append_cons .. ▸ ih (h.wildcard_row token)

/-- The last table decides the match. -/
theorem wildcard_match_iff (actual pattern : Str) : wildcard_match actual pattern = true ↔
    glob.Matches 0x2A 0x3F (as_bytes (to_ascii_lowercase pattern)) (as_bytes (to_ascii_lowercase actual)) := by
  have hlast := (covers_nil (as_bytes (to_ascii_lowercase actual))).fold (as_bytes (to_ascii_lowercase pattern))
  have hcovered := hlast.covered _ (Nat.le_refl _)
  rw [List.take_length, List.nil_append] at hcovered
  rw [← hcovered, wildcard_match, List.getLast?_eq_getElem?, hlast.length, Nat.add_sub_cancel]
  generalize List.foldl (daemon.wildcard_row _) _ _ = dp
  cases dp[(as_bytes (to_ascii_lowercase actual)).length]? <;> simp

/-- The scan leaves a name out: one of the alternatives of the pattern is somewhere in it, or with wildcards all of it. -/
def LeftOut (lower folded : Str) : Prop :=
  folded ≠ [] ∧ folded ≠ ['.'] ∧ ∃ part ∈ split '|' lower, part = ['*'] ∨
    if '*' ∉ part ∧ '?' ∉ part then part <:+: folded else glob_match (as_bytes folded) (as_bytes part) = true

theorem name_matches_iff (folded lower : Str) : name_matches folded lower = true ↔ LeftOut lower folded := by
  have hsingle : ∀ part, name_matches_single folded part = true ↔ part = ['*'] ∨
      if '*' ∉ part ∧ '?' ∉ part then part <:+: folded else glob_match (as_bytes folded) (as_bytes part) = true := by
    intro part
    rw [name_matches_single]
    by_cases hstar : part = ['*']
    · simp [hstar]
    · rw [if_neg hstar, or_iff_right hstar]
      split <;> simp
  rw [name_matches, LeftOut]
  by_cases hname : folded = [] ∨ folded = ['.']
  · rw [if_pos hname]
    exact iff_of_false Bool.false_ne_true fun h => hname.elim h.1 h.2.1
  · rw [if_neg hname]
    obtain ⟨hempty, hdot⟩ := not_or.mp hname
    rw [and_iff_right hempty, and_iff_right hdot]
    by_cases hbar : '|' ∈ lower
    · rw [if_neg fun hstar => by simp [hstar] at hbar, if_pos hbar, List.any_eq_true]
      exact exists_congr fun part => and_congr_right fun _ => hsingle part
    · rw [split_of_not_mem hbar, if_neg hbar]
      simp only [List.mem_singleton, exists_eq_left, ← hsingle]
      split
      next hstar => simp [hstar, name_matches_single]
      next => rfl

/-- The alternatives leave out the name where the whole pattern, its `|` a letter like any other, covers the name shown. -/
def NameExact (pattern folded shown : Str) : Prop :=
  LeftOut (to_ascii_lowercase pattern) folded ↔
    glob.Matches 0x2A 0x3F (as_bytes (to_ascii_lowercase pattern)) (as_bytes (to_ascii_lowercase shown))

theorem name_matches_eq_iff (pattern folded shown : Str) :
    name_matches folded (to_ascii_lowercase pattern) = wildcard_match shown pattern ↔ NameExact pattern folded shown := by
  rw [Bool.eq_iff_iff, name_matches_iff, wildcard_match_iff]
  rfl

/-- Without wildcards and `|` the scan looks for the pattern anywhere in the name, and the row for the whole name. -/
theorem nameExact_plain {pattern folded shown : Str} (hplain : ∀ ch ∈ ['*', '?', '|'], ch ∉ to_ascii_lowercase pattern)
    (hname : folded ≠ [] ∧ folded ≠ ['.']) : NameExact pattern folded shown ↔
      (to_ascii_lowercase pattern <:+: folded ↔ to_ascii_lowercase shown = to_ascii_lowercase pattern) := by
  have hstar := hplain '*' (by decide)
  have hany := hplain '?' (by decide)
  have hne : to_ascii_lowercase pattern ≠ ['*'] := fun h => hstar (h ▸ List.mem_singleton_self _)
  rw [NameExact, LeftOut, split_of_not_mem (hplain '|' (by decide)), matches_literal_iff (as_bytes_literal hstar hany)]
  have hbytes : as_bytes (to_ascii_lowercase shown) = as_bytes (to_ascii_lowercase pattern) ↔
      to_ascii_lowercase shown = to_ascii_lowercase pattern := ⟨as_bytes_injective, congrArg as_bytes⟩
  simp [hname, hne, hstar, hany, hbytes]

end wildcards

/-- A list of extensions is exact for a name: the two ways of dropping case tell no member from the extension that the
other takes for it, and a name with none, a dotfile and one with a trailing dot show no member. -/
def ExtensionExact (env : Env) (values : List Str) (name shown : Str) : Prop :=
  let wanted := extract_extension_after_dot name
  values ≠ [] ∧
    if wanted = [] then to_ascii_lowercase shown ∉ values.map to_ascii_lowercase
    else (∃ value ∈ values, value = lowercase_into env wanted ∨ env.to_lowercase value = lowercase_into env wanted) ↔
      to_ascii_lowercase shown ∈ values.map to_ascii_lowercase

theorem name_has_extension_eq_iff (env : Env) {values : List Str} (hvalues : values ≠ []) (name shown : Str) :
    ({ extensions := values } : SearchFilters).name_has_extension env name =
        values.any (uffs.search.eq_ignore_ascii_case shown) ↔
      ExtensionExact env values name shown := by
  have hshown : values.any (uffs.search.eq_ignore_ascii_case shown) = true ↔
      to_ascii_lowercase shown ∈ values.map to_ascii_lowercase := by
    simp only [List.any_eq_true, uffs.search.eq_ignore_ascii_case, beq_iff_eq, List.mem_map, @eq_comm _ (to_ascii_lowercase shown)]
  rw [ExtensionExact, and_iff_right hvalues, Bool.eq_iff_iff, hshown, SearchFilters.name_has_extension]
  split
  next hnone => simp [hnone]
  next hsome => simp [hsome, extension_matches_filter]

section exactness

variable (parse_time_bound : TimeParser) (now_us : Int64) (env : Env) (fold : CaseFold) (rec : CompactRecord)
  (names : List UInt8) (row : DisplayRow)

/-- A time given as a text is tested by the filters only: the row must meet it anyway. -/
def TimeExact (predicate : SearchPredicate) (time : Int64) : Prop :=
  ∀ spec, predicate.value = .String spec → ∀ bound, time_bound parse_time_bound now_us predicate = some bound →
    if predicate.op = .Gte then ¬time < bound else time < bound

/-- The predicate says the same of a record and of its row. The row of a record carries the path
resolved for the record alone, which stops at the depth limit. -/
def ExactFor (field : FieldId) (predicate : SearchPredicate) : Prop :=
  match field, predicate.value with
  | .Size, .U64 value => CapExact (2 ^ 64 - 1) predicate.op value.toNat rec.size.toNat
  | .Descendants, .U64 value => CapExact (2 ^ 32 - 1) predicate.op value.toNat rec.descendants.toNat
  | .Modified, _ => TimeExact parse_time_bound now_us predicate rec.modified
  | .Created, _ => TimeExact parse_time_bound now_us predicate rec.created
  | .Accessed, _ => TimeExact parse_time_bound now_us predicate rec.accessed
  | .Extension, .StringList values =>
    ExtensionExact env values (rec.name names) (row_extension row)
  | .Attributes, .StringList values =>
    predicate.op = .HasAll →
      (∀ name ∈ values, attr_bit name ≠ 0) ∨ ∃ name ∈ values, attr_bit name ≠ 0 ∧ flag_set rec.flags name = false
  | .Name, .String pattern => NameExact pattern (fold.fold_into (rec.name names)) row.name
  | .NameLength, .U64 value =>
    LenExact predicate.op value (len_to_u16 (rec.name names).length) (UInt64.ofNat row.name.length)
  | .PathLength, .U64 value => LenExact predicate.op value rec.path_len (UInt64.ofNat row.path.length)
  | _, _ => True

def Exact (predicate : SearchPredicate) : Prop :=
  match FieldId.parse predicate.field with
  | none => True
  | some field => ExactFor parse_time_bound now_us env fold rec names row field predicate

end exactness

section agreement

variable {parse_time_bound : TimeParser} {now_us : Int64} {env : Env} {fold : CaseFold} {rec : CompactRecord}
  {names : List UInt8} {row : DisplayRow} {categories : List (Str × List Str)} {predicate : SearchPredicate}

theorem exact_of_field {field : FieldId} (hfield : FieldId.parse predicate.field = some field)
    (h : ExactFor parse_time_bound now_us env fold rec names row field predicate) :
    Exact parse_time_bound now_us env fold rec names row predicate := by
  rw [Exact, hfield]
  exact h

theorem time_check_eq_match_iff (hop : predicate.op = .Gte ∨ predicate.op = .Lt) (time : Int64) :
    time_check parse_time_bound now_us predicate time = match_i64 time predicate ↔
      TimeExact parse_time_bound now_us predicate time := by
  obtain ⟨text, op, value⟩ := predicate
  cases value with
  | String spec =>
    have hrow : match_i64 time ⟨text, op, .String spec⟩ = true := by cases op <;> rfl
    rw [hrow, time_check, TimeExact]
    cases hbound : time_bound parse_time_bound now_us ⟨text, op, .String spec⟩ with
    | none => simp
    | some bound => obtain rfl | rfl := hop <;> simp
  | I64 value =>
    obtain rfl | rfl := hop
    · have hnot : (!decide (time < value)) = decide (value ≤ time) := by simp [← decide_not]
      simp [TimeExact, time_check, time_bound, match_i64, hnot]
    · simp [TimeExact, time_check, time_bound, match_i64]
  | StringList _ | U64 _ | Bool _ =>
    obtain rfl | rfl := hop <;> simp [TimeExact, time_check, time_bound, match_i64]

theorem has_all_eq_iff (values : List Str) (flags : UInt32) :
    (values.all fun name => flags &&& attr_bit name == attr_bit name) = values.all (flag_set flags) ↔
      (∀ name ∈ values, attr_bit name ≠ 0) ∨ ∃ name ∈ values, attr_bit name ≠ 0 ∧ flag_set flags name = false := by
  have hset : ∀ name, (flags &&& attr_bit name == attr_bit name) = true ↔ attr_bit name = 0 ∨ flag_set flags name = true := by
    intro name
    by_cases hzero : attr_bit name = 0
    · simp [hzero]
    · simp [hzero, flag_set_iff hzero]
  rw [Bool.eq_iff_iff, List.all_eq_true, List.all_eq_true]
  simp only [hset]
  constructor
  · intro h
    by_cases hknown : ∀ name ∈ values, attr_bit name ≠ 0
    · exact .inl hknown
    · right
      push Not at hknown
      obtain ⟨unknown, hmem, hzero⟩ := hknown
      by_contra hnone
      push Not at hnone
      have hall : ∀ name ∈ values, attr_bit name = 0 ∨ flag_set flags name = true := by
        intro name hname
        by_cases hname0 : attr_bit name = 0
        · exact .inl hname0
        · exact .inr (by simpa using hnone name hname hname0)
      have := h.mp hall unknown hmem
      rw [flag_set_unknown hzero] at this
      cases this
  · rintro (hknown | ⟨name, hmem, hne, hunset⟩)
    · exact ⟨fun h name hname => (h name hname).resolve_left (hknown name hname), fun h name hname => .inr (h name hname)⟩
    · constructor
      · intro h
        have := (h name hmem).resolve_left hne
        rw [hunset] at this
        cases this
      · exact fun h name hname => .inr (h name hname)

/-- The row of the record, as far as the predicates of the scan look at it. -/
structure Shows (rec : CompactRecord) (names : List UInt8) (row : DisplayRow) : Prop where
  size : row.size = rec.size
  descendants : row.descendants = rec.descendants
  modified : row.modified = rec.modified
  created : row.created = rec.created
  accessed : row.accessed = rec.accessed
  flags : row.flags = rec.flags
  malformed : row.malformed = (from_utf8 (rec.name_bytes names)).isNone

theorem build_row_shows (drive : DriveCompactIndex) (rec_idx : UInt32) (rec : CompactRecord) (render : Render) :
    Shows rec drive.names (build_row drive rec_idx rec render) :=
  ⟨rfl, rfl, rfl, rfl, rfl, rfl, rfl⟩

/-- The two lengths are stored as the row shows them. -/
def LengthsStored (rec : CompactRecord) (names : List UInt8) (row : DisplayRow) : Prop :=
  (len_to_u16 (rec.name names).length).toNat = min (UInt64.ofNat row.name.length).toNat 65535 ∧
    rec.path_len.toNat = min (UInt64.ofNat row.path.length).toNat 65535

/-- The test of one compiled predicate is the test of the row exactly in these cases. -/
theorem hot_check_eq_match_iff {field : FieldId} (hshows : Shows rec names row)
    (hhot : compiled_to_hot_path field predicate = true)
    (hlengths : LengthsStored rec names row ∨ ExactFor parse_time_bound now_us env fold rec names row field predicate) :
    hot_check parse_time_bound now_us env fold rec names field predicate = matches_field categories row field predicate ↔
      ExactFor parse_time_bound now_us env fold rec names row field predicate := by
  obtain ⟨text, op, value⟩ := predicate
  cases field with
  | Size =>
    cases value with
    | U64 value =>
      have hne : op ≠ .Ne := fun h => by subst h; cases hhot
      rw [matches_field, hshows.size]
      exact bound_check_eq_match_iff (fun _ _ => UInt64.lt_iff_toNat_lt) (fun _ _ => UInt64.toNat_inj.mp) (by decide)
        toNat_succ_u64 toNat_pred_u64 hne (by have := value.toNat_lt; omega) (by have := rec.size.toNat_lt; omega) text
    | String _ | StringList _ | I64 _ | Bool _ =>
      cases op <;> simp [hot_check, compared_number, matches_field, match_u64, ExactFor]
  | Descendants =>
    cases value with
    | U64 value =>
      have hne : op ≠ .Ne := fun h => by subst h; cases hhot
      have hlt := rec.descendants.toNat_lt
      have hwide : rec.descendants.toUInt64.toNat = rec.descendants.toNat := UInt32.toNat_toUInt64 _
      rw [matches_field, hshows.descendants]
      change _ ↔ CapExact (2 ^ 32 - 1) op value.toNat rec.descendants.toNat
      rw [← hwide]
      exact bound_check_eq_match_iff (fun _ _ => UInt32.lt_iff_toNat_lt) (fun _ _ => UInt32.toNat_inj.mp) (by decide)
        toNat_succ_u32 toNat_pred_u32 hne (toNat_to_u32 value) (by omega) text
    | String _ | StringList _ | I64 _ | Bool _ =>
      cases op <;> simp [hot_check, compared_number, matches_field, match_u64, ExactFor]
  | Modified =>
    rw [matches_field, hshows.modified]
    exact time_check_eq_match_iff (by cases op <;> simp_all [compiled_to_hot_path]) _
  | Created =>
    rw [matches_field, hshows.created]
    exact time_check_eq_match_iff (by cases op <;> simp_all [compiled_to_hot_path]) _
  | Accessed =>
    rw [matches_field, hshows.accessed]
    exact time_check_eq_match_iff (by cases op <;> simp_all [compiled_to_hot_path]) _
  | Extension =>
    cases op <;> try cases hhot
    cases value with
    | StringList values =>
      cases values with
      | nil => simp [hot_check, wanted_extensions, matches_field, match_string, ExactFor, ExtensionExact]
      | cons ext rest => exact name_has_extension_eq_iff env (List.cons_ne_nil ext rest) _ _
    | String _ | U64 _ | I64 _ | Bool _ => simp [hot_check, wanted_extensions, matches_field, match_string, ExactFor]
  | Attributes =>
    cases value with
    | StringList values =>
      cases op with
      | HasAll =>
        rw [matches_field, hshows.flags]
        simp only [ExactFor, true_implies]
        exact has_all_eq_iff values rec.flags
      | HasNone => simp [hot_check, matches_field, match_attributes, hshows.flags, flag_set, bne, ExactFor]
      | Eq | Ne | Lt | Lte | Gt | Gte | In | NotIn | HasAny | Match | NotMatch | Contains | StartsWith | EndsWith =>
        cases hhot
    | String _ | U64 _ | I64 _ | Bool _ => cases op <;> simp [hot_check, matches_field, match_attributes, ExactFor]
  | Name =>
    cases op <;> try cases hhot
    cases value with
    | String pattern =>
      refine Iff.trans ?_ (name_matches_eq_iff pattern (fold.fold_into (rec.name names)) row.name)
      simp [hot_check, excluded_pattern, matches_field, match_string]
    | StringList _ | U64 _ | I64 _ | Bool _ => simp [hot_check, excluded_pattern, matches_field, match_string, ExactFor]
  | NameLength =>
    cases value with
    | U64 value =>
      have hne : op ≠ .Ne := fun h => by subst h; cases hhot
      exact len_check_eq_match_iff hne (hlengths.elim And.left And.left) text
    | String _ | StringList _ | I64 _ | Bool _ => cases op <;> cases hhot
  | PathLength =>
    cases value with
    | U64 value =>
      have hne : op ≠ .Ne := fun h => by subst h; cases hhot
      exact len_check_eq_match_iff hne (hlengths.elim And.right And.left) text
    | String _ | StringList _ | I64 _ | Bool _ => cases op <;> cases hhot
  | Malformed =>
    rw [matches_field, hshows.malformed]
    have hexact : ExactFor parse_time_bound now_us env fold rec names row .Malformed ⟨text, op, value⟩ = True := by
      cases value <;> rfl
    rw [hexact, iff_true]
    cases op <;> cases value <;> try cases hhot
    · rfl
    · rename_i want
      simp only [hot_check, wanted_malformed, match_bool, Option.all_some]
      cases (from_utf8 (rec.name_bytes names)).isNone <;> cases want <;> rfl
  | _ => cases hhot

theorem hot_check_one_eq_match_iff (hshows : Shows rec names row) (hhot : predicates_require_post_filter [predicate] = false)
    (hlengths : LengthsStored rec names row ∨ Exact parse_time_bound now_us env fold rec names row predicate) :
    hot_check_one parse_time_bound now_us env fold rec names predicate = matches_predicate categories row predicate ↔
      Exact parse_time_bound now_us env fold rec names row predicate := by
  cases hfield : FieldId.parse predicate.field with
  | none => simp [predicates_require_post_filter, hfield] at hhot
  | some field =>
    have hcompiled : compiled_to_hot_path field predicate = true := by
      simpa [predicates_require_post_filter, hfield] using hhot
    simp only [hot_check_one, matches_predicate, Exact, hfield] at hlengths ⊢
    exact hot_check_eq_match_iff hshows hcompiled hlengths

end agreement

/-- Predicates that the scan covers on its own admit a record exactly when its row meets them, as long as none of
    them loses an earlier one and each is exact; a single predicate, where it is not exact, says different things
    of the record and of its row. -/
theorem compiled_predicates_mean_the_same (parse_time_bound : TimeParser) (now_us : Int64) (env : Env) (fold : CaseFold)
    (categories : List (Str × List Str)) (drive : DriveCompactIndex) (rec_idx : UInt32) (rec : CompactRecord)
    (render : Render) :
    (∀ predicates, predicates_require_post_filter predicates = false → (predicates.Pairwise fun p q => ¬Clash p q) →
      (∀ p ∈ predicates,
        Exact parse_time_bound now_us env fold rec drive.names (build_row drive rec_idx rec render) p) →
      (compile_predicates_into_filters parse_time_bound now_us {} predicates).matches_record env rec drive.names fold =
        matches_predicates categories (build_row drive rec_idx rec render) predicates) ∧
    (LengthsStored rec drive.names (build_row drive rec_idx rec render) →
      ∀ p, predicates_require_post_filter [p] = false →
        ((compile_predicates_into_filters parse_time_bound now_us {} [p]).matches_record env rec drive.names fold =
            matches_predicates categories (build_row drive rec_idx rec render) [p] ↔
          Exact parse_time_bound now_us env fold rec drive.names (build_row drive rec_idx rec render) p)) := by
  have hshows := build_row_shows drive rec_idx rec render
  constructor
  · intro predicates hhot hclash hexact
    rw [(compile_predicates_run hhot hclash).2, matches_predicates]
    rw [Bool.eq_iff_iff, List.all_eq_true, List.all_eq_true]
    refine forall₂_congr fun p hp => ?_
    have hone : predicates_require_post_filter [p] = false := by
      simp only [predicates_require_post_filter, List.any_eq_false] at hhot ⊢
      exact fun q hq => hhot q (List.mem_singleton.mp hq ▸ hp)
    rw [(hot_check_one_eq_match_iff hshows hone (.inr (hexact p hp))).mpr (hexact p hp)]
  · intro hlengths p hhot
    rw [(compile_predicates_run hhot (List.pairwise_singleton _ _)).2, matches_predicates, List.all_cons, List.all_nil,
      List.all_cons, List.all_nil, Bool.and_true, Bool.and_true]
    exact hot_check_one_eq_match_iff hshows hhot (.inl hlengths)

/-- Files of less than five bytes that are not hidden. -/
def small_visible : List SearchPredicate :=
  [⟨"size".toList, .Lt, .U64 5⟩, ⟨"attributes".toList, .HasNone, .StringList ["hidden".toList]⟩]

theorem compiled_predicates_mean_the_same_small_visible :
    (compile_predicates_into_filters (fun _ _ _ => none) 0 {} small_visible).matches_record sample_env
        one_file_drive.records[0] one_file_drive.names sample_fold =
      matches_predicates [] (build_row one_file_drive 0 one_file_drive.records[0] fun _ => []) small_visible := by
  have hsize : FieldId.parse "size".toList = some .Size := by decide
  have hattributes : FieldId.parse "attributes".toList = some .Attributes := by decide
  refine (compiled_predicates_mean_the_same (fun _ _ _ => none) 0 sample_env sample_fold [] one_file_drive 0
    one_file_drive.records[0] fun _ => []).1 small_visible (by decide) ?_ ?_
  · rw [small_visible, List.pairwise_pair]
    rintro (⟨a, b, ha, _⟩ | ⟨a, b, ha, _⟩ | ⟨a, b, ha, _⟩ | ⟨field, a, b, rfl | rfl, ha, _⟩)
    all_goals
      rw [of_field_ne hsize (by decide)] at ha
      cases ha
  · intro p hp
    obtain rfl | rfl : p = _ ∨ p = _ := by simpa [small_visible] using hp
    · exact exact_of_field hsize ⟨by decide, by decide⟩
    · exact exact_of_field hattributes fun hop => by cases hop

/-- A pattern in lower case leaves out no name in upper case, an empty list of extensions lets everything through, and
    an empty file is taken to be below zero bytes. -/
theorem compiled_predicates_differ :
    let admitted := fun predicates => (compile_predicates_into_filters (fun _ _ _ => none) 0 {} predicates).matches_record
      sample_env one_file_drive.records[0] one_file_drive.names sample_fold
    let met := matches_predicates [] (build_row one_file_drive 0 one_file_drive.records[0] fun _ => [])
    let not_a : List SearchPredicate := [⟨"name".toList, .NotMatch, .String "a".toList⟩]
    let no_extension : List SearchPredicate := [⟨"extension".toList, .In, .StringList []⟩]
    let negative : List SearchPredicate := [⟨"size".toList, .Lt, .U64 0⟩]
    (predicates_require_post_filter not_a = false ∧ admitted not_a = true ∧ met not_a = false) ∧
      (predicates_require_post_filter no_extension = false ∧ admitted no_extension = true ∧ met no_extension = false) ∧
      (predicates_require_post_filter negative = false ∧ admitted negative = true ∧ met negative = false) := by
  decide

end uffs.daemon
