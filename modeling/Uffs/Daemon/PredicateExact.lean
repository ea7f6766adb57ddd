import Uffs.Daemon.PredicateCompile
import Uffs.Search.RowFilter
import Uffs.Search.ExtFilter

open uffs.mft uffs.text uffs.bloom uffs.compact uffs.search

namespace uffs.daemon

/-! Predicates compiled into the scan's filters, against the same predicates tested on the row. -/

section parts

/-- The extensions that a predicate asks for. -/
def wanted_extensions (predicate : SearchPredicate) : Option (List Str) :=
  match predicate.op, predicate.value with
  | .In, .StringList values => some values
  | _, _ => none

/-- The pattern whose names a predicate leaves out, as it is stored. -/
def excluded_pattern (predicate : SearchPredicate) : Option Str :=
  match predicate.op, predicate.value with
  | .NotMatch, .String pattern => some (to_ascii_lowercase pattern)
  | _, _ => none

def wanted_malformed (predicate : SearchPredicate) : Option Bool :=
  match predicate.op, predicate.value with
  | .Eq, .Bool want => some want
  | .Ne, .Bool want => some !want
  | _, _ => none

def compared_number (predicate : SearchPredicate) : Option UInt64 :=
  match predicate.value with
  | .U64 value => some value
  | _ => none

end parts

section hot

variable (parse_time_bound : TimeParser) (now_us : Int64) (env : Env) (fold : CaseFold) (rec : CompactRecord)
  (names : List UInt8)

/-- What the filters test on a record for one predicate, taken alone. -/
def hot_check (field : FieldId) (predicate : SearchPredicate) : Bool :=
  match field with
  | .Size => (compared_number predicate).all fun value => bound_check succ_u64 pred_u64 predicate.op value rec.size
  | .Descendants =>
    (compared_number predicate).all fun value => bound_check succ_u32 pred_u32 predicate.op (to_u32 value) rec.descendants
  | .Modified => time_check parse_time_bound now_us predicate rec.modified
  | .Created => time_check parse_time_bound now_us predicate rec.created
  | .Accessed => time_check parse_time_bound now_us predicate rec.accessed
  | .Extension =>
    (wanted_extensions predicate).all fun values =>
      values.isEmpty || ({ extensions := values } : SearchFilters).name_has_extension env (rec.name names)
  | .Attributes =>
    match predicate.op, predicate.value with
    | .HasAll, .StringList values => values.all fun name => rec.flags &&& attr_bit name == attr_bit name
    | .HasNone, .StringList values => values.all fun name => rec.flags &&& attr_bit name == 0
    | _, _ => true
  | .Name => (excluded_pattern predicate).all fun excl => !name_matches (fold.fold_into (rec.name names)) excl
  | .NameLength =>
    (compared_number predicate).all fun value =>
      bound_check succ_u16 pred_u16 predicate.op (to_u16 value) (len_to_u16 (rec.name names).length)
  | .PathLength =>
    (compared_number predicate).all fun value => bound_check succ_u16 pred_u16 predicate.op (to_u16 value) rec.path_len
  | .Malformed => (wanted_malformed predicate).all fun want => (from_utf8 (rec.name_bytes names)).isNone == want
  | _ => true

/-- Nothing that an earlier predicate put into the filters is lost. -/
def Free (f : SearchFilters) (field : FieldId) (predicate : SearchPredicate) : Prop :=
  match field with
  | .Extension =>
    f.resolved_ext_ids = [] ∧
      ∀ values, wanted_extensions predicate = some values → f.extensions = [] ∨ ∀ ext, ext ∈ f.extensions ↔ ext ∈ values
  | .Name => ∀ excl, excluded_pattern predicate = some excl → f.exclude_lower.all (· = excl)
  | .NameLength =>
    predicate.op = .Eq →
      ∀ value, compared_number predicate = some value → within (f.min_name_len, f.max_name_len) (to_u16 value)
  | .PathLength =>
    predicate.op = .Eq →
      ∀ value, compared_number predicate = some value → within (f.min_path_len, f.max_path_len) (to_u16 value)
  | .Malformed => ∀ want, wanted_malformed predicate = some want → f.malformed.all (· = want)
  | _ => True

end hot

section step

variable {parse_time_bound : TimeParser} {now_us : Int64} {env : Env} {fold : CaseFold} {rec : CompactRecord}
  {names : List UInt8} {f : SearchFilters} {predicate : SearchPredicate}

theorem key_u64 (a b : UInt64) : a < b ↔ (a.toNat : Int) < b.toNat := by rw [UInt64.lt_iff_toNat_lt, Int.ofNat_lt]
theorem key_u32 (a b : UInt32) : a < b ↔ (a.toNat : Int) < b.toNat := by rw [UInt32.lt_iff_toNat_lt, Int.ofNat_lt]
theorem key_u16 (a b : UInt16) : a < b ↔ (a.toNat : Int) < b.toNat := by rw [UInt16.lt_iff_toNat_lt, Int.ofNat_lt]

theorem inj_u64 (a b : UInt64) (h : (a.toNat : Int) = b.toNat) : a = b := UInt64.toNat_inj.mp (Int.ofNat_inj.mp h)
theorem inj_u32 (a b : UInt32) (h : (a.toNat : Int) = b.toNat) : a = b := UInt32.toNat_inj.mp (Int.ofNat_inj.mp h)
theorem inj_u16 (a b : UInt16) (h : (a.toNat : Int) = b.toNat) : a = b := UInt16.toNat_inj.mp (Int.ofNat_inj.mp h)

variable {check : Bool}

/-- The tests of a record: those that predicates are compiled into, each on its own, and the others. -/
def record_tests (env : Env) (fold : CaseFold) (rec : CompactRecord) (names : List UInt8) (f : SearchFilters) : List Bool :=
  let name_len := len_to_u16 (rec.name names).length
  let bulk := bulkiness_for_record rec
  [at_least f.min_size rec.size && at_most f.max_size rec.size,
    at_least f.min_descendants rec.descendants && at_most f.max_descendants rec.descendants,
    at_least f.newer_us rec.modified && older_than f.older_us rec.modified,
    at_least f.newer_created_us rec.created && older_than f.older_created_us rec.created,
    at_least f.newer_accessed_us rec.accessed && older_than f.older_accessed_us rec.accessed,
    f.matches_extension env rec names,
    requires f.attr_require rec.flags && excludes f.attr_exclude rec.flags,
    f.exclude_lower.all fun excl => !name_matches (fold.fold_into (rec.name names)) excl,
    at_least f.min_name_len name_len && at_most f.max_name_len name_len,
    at_least f.min_path_len rec.path_len && at_most f.max_path_len rec.path_len,
    f.malformed.all fun want => (from_utf8 (rec.name_bytes names)).isNone == want,
    !(f.hide_system && is_system_metafile rec names) && !(f.hide_ads && decide (':' ∈ rec.name names)) &&
      (f.deleted.all fun want_deleted => (rec.flags &&& DELETED_TOMBSTONE_FLAG != 0) == want_deleted) &&
      at_least f.min_allocated rec.allocated && at_most f.max_allocated rec.allocated &&
      at_least f.min_treesize rec.treesize && at_most f.max_treesize rec.treesize &&
      at_least f.min_tree_allocated rec.tree_allocated && at_most f.max_tree_allocated rec.tree_allocated &&
      at_least f.min_bulkiness bulk && at_most f.max_bulkiness bulk &&
      (f.allowed_months.isEmpty || decide (month_from_unix_micros rec.modified ∈ f.allowed_months))]

theorem matches_record_eq (f : SearchFilters) : f.matches_record env rec names fold = (record_tests env fold rec names f).all id := by
  simp only [SearchFilters.matches_record, SearchFilters.matches_derived, record_tests, requires, excludes, List.all_cons,
    List.all_nil, id, Bool.and_true]
  ac_rfl

/-- One test replaced by a stricter one. -/
theorem matches_record_stricter {g : SearchFilters} {old new : Bool} (front : List Bool) {back : List Bool}
    (hold : record_tests env fold rec names f = front ++ old :: back)
    (hnew : record_tests env fold rec names g = front ++ new :: back) (h : new = (old && check)) :
    g.matches_record env rec names fold = (f.matches_record env rec names fold && check) := by
  rw [matches_record_eq, matches_record_eq, hold, hnew, h]
  simp only [List.all_append, List.all_cons, id]
  ac_rfl

/-- Extensions put behind the same extensions ask for nothing new. -/
theorem matches_extension_append {values : List Str} (hids : f.resolved_ext_ids = [])
    (hfree : f.extensions = [] ∨ ∀ ext, ext ∈ f.extensions ↔ ext ∈ values) :
    ({ f with extensions := f.extensions ++ values } : SearchFilters).matches_extension env rec names =
      (f.matches_extension env rec names &&
        (values.isEmpty || ({ extensions := values } : SearchFilters).name_has_extension env (rec.name names))) := by
  obtain hnone | hsame := hfree
  · simp only [SearchFilters.matches_extension, SearchFilters.name_has_extension, hids, hnone, List.nil_append]
    cases values <;> simp
  · have hany : ∀ test : Str → Bool, (f.extensions ++ values).any test = f.extensions.any test ∧
        f.extensions.any test = values.any test := by
      intro test
      have hvalues : f.extensions.any test = values.any test := by
        rw [Bool.eq_iff_iff, List.any_eq_true, List.any_eq_true]
        simp only [hsame]
      exact ⟨by rw [List.any_append, ← hvalues, Bool.or_self], hvalues⟩
    have hempty : f.extensions = [] ↔ values = [] := by
      simp only [List.eq_nil_iff_forall_not_mem, hsame]
    simp only [SearchFilters.matches_extension, SearchFilters.name_has_extension, hids, (hany _).1, (hany _).2]
    by_cases hnil : values = []
    · simp [hnil, hempty.mpr hnil]
    · have hne : f.extensions ≠ [] := fun h => hnil (hempty.mp h)
      simp [hnil, hne]

/-- One predicate adds its own test, as long as it overwrites nothing. -/
theorem compile_predicate_step {field : FieldId} (hhot : compiled_to_hot_path field predicate = true)
    (hfree : Free f field predicate) :
    (compile_predicate parse_time_bound now_us f field predicate).matches_record env rec names fold =
      (f.matches_record env rec names fold && hot_check parse_time_bound now_us env fold rec names field predicate) := by
  obtain ⟨text, op, value⟩ := predicate
  cases field with
  | Size =>
    cases value with
    | U64 value =>
      have hbound := @within_merge_bound UInt64 _ _ _ succ_u64 pred_u64 _ key_u64 inj_u64
          op value rec.size f.min_size f.max_size (fun heq => by subst heq; cases hhot)
      cases op <;> first | exact matches_record_stricter [] rfl rfl hbound | cases hhot
    | String _ | StringList _ | I64 _ | Bool _ => cases op <;> simp [compile_predicate, hot_check, compared_number]
  | Descendants =>
    cases value with
    | U64 value =>
      have hbound := @within_merge_bound UInt32 _ _ _ succ_u32 pred_u32 _ key_u32 inj_u32
          op (to_u32 value) rec.descendants f.min_descendants f.max_descendants (fun heq => by subst heq; cases hhot)
      cases op <;> first | exact matches_record_stricter [_] rfl rfl hbound | cases hhot
    | String _ | StringList _ | I64 _ | Bool _ => cases op <;> simp [compile_predicate, hot_check, compared_number]
  | Modified => exact matches_record_stricter [_, _] rfl rfl (compile_time_check _ _ _ _)
  | Created => exact matches_record_stricter [_, _, _] rfl rfl (compile_time_check _ _ _ _)
  | Accessed => exact matches_record_stricter [_, _, _, _] rfl rfl (compile_time_check _ _ _ _)
  | Extension =>
    cases op <;> try cases hhot
    cases value with
    | StringList values =>
      exact matches_record_stricter [_, _, _, _, _] rfl rfl (matches_extension_append hfree.1 (hfree.2 values rfl))
    | String _ | U64 _ | I64 _ | Bool _ => simp [compile_predicate, hot_check, wanted_extensions]
  | Attributes =>
    cases value with
    | StringList values =>
      cases op with
      | HasAll =>
        refine matches_record_stricter [_, _, _, _, _, _] rfl rfl ?_
        change (requires (or_bits values f.attr_require) rec.flags && excludes f.attr_exclude rec.flags) = _
        rw [requires_or_bits]
        ac_rfl
      | HasNone =>
        refine matches_record_stricter [_, _, _, _, _, _] rfl rfl ?_
        change (requires f.attr_require rec.flags && excludes (or_bits values f.attr_exclude) rec.flags) = _
        rw [excludes_or_bits]
        ac_rfl
      | Eq | Ne | Lt | Lte | Gt | Gte | In | NotIn | HasAny | Match | NotMatch | Contains | StartsWith | EndsWith =>
        cases hhot
    | String _ | U64 _ | I64 _ | Bool _ => cases op <;> simp [compile_predicate, hot_check]
  | Name =>
    cases op <;> try cases hhot
    cases value with
    | String pattern =>
      refine matches_record_stricter [_, _, _, _, _, _, _] rfl rfl ?_
      have hsame := hfree _ rfl
      cases hold : f.exclude_lower with
      | none => rfl
      | some excl =>
        simp_all [compile_predicate, hot_check, excluded_pattern]
    | StringList _ | U64 _ | I64 _ | Bool _ => simp [compile_predicate, hot_check, excluded_pattern]
  | NameLength =>
    cases value with
    | U64 value =>
      have hbound := @within_merge_bound UInt16 _ _ _ succ_u16 pred_u16 _ key_u16 inj_u16
          op (to_u16 value) (len_to_u16 (rec.name names).length) f.min_name_len f.max_name_len (fun heq => hfree heq value rfl)
      cases op <;> exact matches_record_stricter [_, _, _, _, _, _, _, _] rfl rfl hbound
    | String _ | StringList _ | I64 _ | Bool _ => cases op <;> cases hhot
  | PathLength =>
    cases value with
    | U64 value =>
      have hbound := @within_merge_bound UInt16 _ _ _ succ_u16 pred_u16 _ key_u16 inj_u16
          op (to_u16 value) rec.path_len f.min_path_len f.max_path_len (fun heq => hfree heq value rfl)
      cases op <;> exact matches_record_stricter [_, _, _, _, _, _, _, _, _] rfl rfl hbound
    | String _ | StringList _ | I64 _ | Bool _ => cases op <;> cases hhot
  | Malformed =>
    have hcompile : compile_malformed f ⟨text, op, value⟩ =
        { f with malformed := (wanted_malformed ⟨text, op, value⟩).or f.malformed } := by
      cases op <;> cases value <;> simp [compile_malformed, wanted_malformed]
    simp only [compile_predicate, hcompile]
    refine matches_record_stricter [_, _, _, _, _, _, _, _, _, _] rfl rfl ?_
    cases hwant : wanted_malformed ⟨text, op, value⟩ with
    | none => simp [hot_check, hwant]
    | some want =>
      have hsame := hfree want hwant
      cases hold : f.malformed with
      | none => simp [hot_check, hwant]
      | some old =>
        rw [hold] at hsame
        simp_all [hot_check]
  | _ => cases hhot

end step

section run

variable {parse_time_bound : TimeParser} {now_us : Int64} {env : Env} {fold : CaseFold} {rec : CompactRecord}
  {names : List UInt8}

/-- The part `part` of a predicate, if it is about `field`. -/
def of_field {β : Type} (field : FieldId) (part : SearchPredicate → Option β) (predicate : SearchPredicate) : Option β :=
  if FieldId.parse predicate.field = some field then part predicate else none

variable {predicate : SearchPredicate} {predicates : List SearchPredicate}

theorem of_field_ne {β : Type} {field other : FieldId} {part : SearchPredicate → Option β}
    (hfield : FieldId.parse predicate.field = some field) (hne : field ≠ other) : of_field other part predicate = none :=
  if_neg fun h => hne (Option.some.inj (hfield.symm.trans h))

/-- The later predicate loses what the earlier one asked for: it adds to the extensions, replaces a pattern or a
    toggle, or sets a length that the earlier bound rules out. -/
def Clash (earlier later : SearchPredicate) : Prop :=
  (∃ a b, of_field .Extension wanted_extensions earlier = some a ∧ of_field .Extension wanted_extensions later = some b ∧
    ¬∀ ext, ext ∈ a ↔ ext ∈ b) ∨
  (∃ a b, of_field .Name excluded_pattern earlier = some a ∧ of_field .Name excluded_pattern later = some b ∧ a ≠ b) ∨
  (∃ a b, of_field .Malformed wanted_malformed earlier = some a ∧
    of_field .Malformed wanted_malformed later = some b ∧ a ≠ b) ∨
  ∃ field a b, (field = .NameLength ∨ field = .PathLength) ∧ of_field field compared_number earlier = some a ∧
    of_field field compared_number later = some b ∧ later.op = .Eq ∧
    bound_check succ_u16 pred_u16 earlier.op (to_u16 a) (to_u16 b) = false

/-- What the filters hold after a list of predicates, in the parts that a later predicate could overwrite. -/
structure Built (f : SearchFilters) (predicates : List SearchPredicate) : Prop where
  resolved : f.resolved_ext_ids = []
  extensions : f.extensions = predicates.flatMap fun p => (of_field .Extension wanted_extensions p).getD []
  exclude : ∀ excl, f.exclude_lower = some excl → ∃ p ∈ predicates, of_field .Name excluded_pattern p = some excl
  malformed : ∀ want, f.malformed = some want → ∃ p ∈ predicates, of_field .Malformed wanted_malformed p = some want
  name_len : ∀ n, (∀ p ∈ predicates, (of_field .NameLength compared_number p).all fun value =>
    bound_check succ_u16 pred_u16 p.op (to_u16 value) n) → within (f.min_name_len, f.max_name_len) n = true
  path_len : ∀ n, (∀ p ∈ predicates, (of_field .PathLength compared_number p).all fun value =>
    bound_check succ_u16 pred_u16 p.op (to_u16 value) n) → within (f.min_path_len, f.max_path_len) n = true

theorem built_nil : Built {} [] where
  resolved := rfl
  extensions := rfl
  exclude := by simp
  malformed := by simp
  name_len := fun _ _ => rfl
  path_len := fun _ _ => rfl

/-- Put one predicate into the filters, its field by its name. -/
def compile_one (parse_time_bound : TimeParser) (now_us : Int64) (f : SearchFilters) (predicate : SearchPredicate) :
    SearchFilters :=
  match FieldId.parse predicate.field with
  | none => f
  | some field => compile_predicate parse_time_bound now_us f field predicate

theorem compile_append_one (f : SearchFilters) (predicates : List SearchPredicate) (predicate : SearchPredicate) :
    compile_predicates_into_filters parse_time_bound now_us f (predicates ++ [predicate]) =
      compile_one parse_time_bound now_us (compile_predicates_into_filters parse_time_bound now_us f predicates) predicate := by
  rw [compile_predicates_into_filters, List.foldl_append]
  rfl

theorem compile_len_within {min max : Option UInt16} {n : UInt16} (hwithin : within (min, max) n = true)
    (hcheck : (compared_number predicate).all fun value => bound_check succ_u16 pred_u16 predicate.op (to_u16 value) n) :
    within (compile_len predicate min max) n = true := by
  obtain ⟨text, op, value⟩ := predicate
  cases value with
  | U64 value =>
    have hmerge : compile_len ⟨text, op, .U64 value⟩ min max = merge_bound succ_u16 pred_u16 op (to_u16 value) min max := by
      cases op <;> rfl
    rw [hmerge]
    by_cases heq : op = .Eq
    · subst heq
      have hn : n = to_u16 value := by simpa [bound_check, compared_number] using hcheck
      subst hn
      simp only [within, merge_bound, at_least, at_most, Option.all_some, key_u16, Int.lt_irrefl, decide_false]
      rfl
    · rw [within_merge_bound key_u16 inj_u16 fun h => absurd h heq, hwithin]
      exact hcheck
  | String _ | StringList _ | I64 _ | Bool _ => exact hwithin

section one

variable (parse_time_bound now_us) (f : SearchFilters) (predicate : SearchPredicate)

theorem compile_extension :
    compile_predicate parse_time_bound now_us f .Extension predicate =
      { f with extensions := f.extensions ++ (wanted_extensions predicate).getD [] } := by
  obtain ⟨text, op, value⟩ := predicate
  have hnil : ({ f with extensions := f.extensions ++ [] } : SearchFilters) = f := by rw [List.append_nil]
  cases op <;> cases value <;> first | rfl | exact hnil.symm

theorem compile_name :
    compile_predicate parse_time_bound now_us f .Name predicate =
      { f with exclude_lower := (excluded_pattern predicate).or f.exclude_lower } := by
  obtain ⟨text, op, value⟩ := predicate
  cases op <;> cases value <;> rfl

theorem compile_malformed_eq :
    compile_malformed f predicate = { f with malformed := (wanted_malformed predicate).or f.malformed } := by
  obtain ⟨text, op, value⟩ := predicate
  cases op <;> cases value <;> rfl

theorem compile_size_shape :
    ∃ min max, compile_predicate parse_time_bound now_us f .Size predicate =
      { f with min_size := min, max_size := max } := by
  simp only [compile_predicate]
  split <;> exact ⟨_, _, rfl⟩

theorem compile_descendants_shape :
    ∃ min max, compile_predicate parse_time_bound now_us f .Descendants predicate =
      { f with min_descendants := min, max_descendants := max } := by
  simp only [compile_predicate]
  split <;> exact ⟨_, _, rfl⟩

theorem compile_attributes_shape :
    ∃ require exclude, compile_predicate parse_time_bound now_us f .Attributes predicate =
      { f with attr_require := require, attr_exclude := exclude } := by
  simp only [compile_predicate]
  split <;> exact ⟨_, _, rfl⟩

/-- What the parts that could be overwritten hold after one more predicate. -/
theorem compile_one_parts :
    (compile_one parse_time_bound now_us f predicate).resolved_ext_ids = f.resolved_ext_ids ∧
      (compile_one parse_time_bound now_us f predicate).extensions =
        f.extensions ++ (of_field .Extension wanted_extensions predicate).getD [] ∧
      (compile_one parse_time_bound now_us f predicate).exclude_lower =
        (of_field .Name excluded_pattern predicate).or f.exclude_lower ∧
      (compile_one parse_time_bound now_us f predicate).malformed =
        (of_field .Malformed wanted_malformed predicate).or f.malformed := by
  simp only [compile_one, of_field]
  cases FieldId.parse predicate.field with
  | none => simp
  | some field =>
    cases field with
    | Extension => simp [compile_extension]
    | Name => simp [compile_name]
    | Malformed => simp [compile_predicate, compile_malformed_eq]
    | Size =>
      obtain ⟨min, max, hshape⟩ := compile_size_shape parse_time_bound now_us f predicate
      simp [hshape]
    | Descendants =>
      obtain ⟨min, max, hshape⟩ :=
        compile_descendants_shape parse_time_bound now_us f predicate
      simp [hshape]
    | Attributes =>
      obtain ⟨require, exclude, hshape⟩ :=
        compile_attributes_shape parse_time_bound now_us f predicate
      simp [hshape]
    | _ => simp [compile_predicate]

/-- The lengths after one more predicate: bounds that a length met are still met if it meets the new one. -/
theorem compile_one_lengths (n : UInt16) :
    (within (f.min_name_len, f.max_name_len) n = true →
      ((of_field .NameLength compared_number predicate).all fun value =>
        bound_check succ_u16 pred_u16 predicate.op (to_u16 value) n) = true →
      within ((compile_one parse_time_bound now_us f predicate).min_name_len,
        (compile_one parse_time_bound now_us f predicate).max_name_len) n = true) ∧
    (within (f.min_path_len, f.max_path_len) n = true →
      ((of_field .PathLength compared_number predicate).all fun value =>
        bound_check succ_u16 pred_u16 predicate.op (to_u16 value) n) = true →
      within ((compile_one parse_time_bound now_us f predicate).min_path_len,
        (compile_one parse_time_bound now_us f predicate).max_path_len) n = true) := by
  simp only [compile_one, of_field]
  cases FieldId.parse predicate.field with
  | none => simp
  | some field =>
    dsimp only
    cases field with
    | NameLength => exact ⟨compile_len_within, fun h _ => h⟩
    | PathLength => exact ⟨fun h _ => h, compile_len_within⟩
    | Size =>
      obtain ⟨min, max, hshape⟩ := compile_size_shape parse_time_bound now_us f predicate
      rw [hshape]
      exact ⟨fun h _ => h, fun h _ => h⟩
    | Descendants =>
      obtain ⟨min, max, hshape⟩ :=
        compile_descendants_shape parse_time_bound now_us f predicate
      rw [hshape]
      exact ⟨fun h _ => h, fun h _ => h⟩
    | Attributes =>
      obtain ⟨require, exclude, hshape⟩ :=
        compile_attributes_shape parse_time_bound now_us f predicate
      rw [hshape]
      exact ⟨fun h _ => h, fun h _ => h⟩
    | Extension =>
      rw [compile_extension]
      exact ⟨fun h _ => h, fun h _ => h⟩
    | Name =>
      rw [compile_name]
      exact ⟨fun h _ => h, fun h _ => h⟩
    | Malformed =>
      simp only [compile_predicate, compile_malformed_eq]
      exact ⟨fun h _ => h, fun h _ => h⟩
    | _ => exact ⟨fun h _ => h, fun h _ => h⟩

end one

theorem Built.compile_one {f : SearchFilters} (h : Built f predicates) (predicate : SearchPredicate) :
    Built (compile_one parse_time_bound now_us f predicate) (predicates ++ [predicate]) := by
  obtain ⟨hids, hext, hexcl, hmal⟩ := compile_one_parts parse_time_bound now_us f predicate
  have hlen := compile_one_lengths parse_time_bound now_us f predicate
  refine ⟨hids.trans h.resolved, ?_, ?_, ?_, ?_, ?_⟩
  · rw [hext, h.extensions, List.flatMap_append, List.flatMap_singleton]
  · intro excl heq
    rw [hexcl] at heq
    obtain hnew | ⟨_, hold⟩ := Option.or_eq_some_iff.mp heq
    · exact ⟨predicate, by simp, hnew⟩
    · obtain ⟨p, hp, hpart⟩ := h.exclude excl hold
      exact ⟨p, List.mem_append_left _ hp, hpart⟩
  · intro want heq
    rw [hmal] at heq
    obtain hnew | ⟨_, hold⟩ := Option.or_eq_some_iff.mp heq
    · exact ⟨predicate, by simp, hnew⟩
    · obtain ⟨p, hp, hpart⟩ := h.malformed want hold
      exact ⟨p, List.mem_append_left _ hp, hpart⟩
  · intro n hall
    exact (hlen n).1 (h.name_len n fun p hp => hall p (List.mem_append_left _ hp)) (hall predicate (by simp))
  · intro n hall
    exact (hlen n).2 (h.path_len n fun p hp => hall p (List.mem_append_left _ hp)) (hall predicate (by simp))

/-- Without a clash nothing is overwritten. -/
theorem Built.free {f : SearchFilters} (h : Built f predicates) {field : FieldId}
    (hfield : FieldId.parse predicate.field = some field) (hclash : ∀ p ∈ predicates, ¬Clash p predicate) :
    Free f field predicate := by
  have hpart : ∀ {β : Type} (part : SearchPredicate → Option β), of_field field part predicate = part predicate :=
    fun part => if_pos hfield
  have hlen : ∀ value, compared_number predicate = some value → predicate.op = .Eq →
      field = .NameLength ∨ field = .PathLength →
      ∀ p ∈ predicates, (of_field field compared_number p).all fun bound =>
        bound_check succ_u16 pred_u16 p.op (to_u16 bound) (to_u16 value) := by
    intro value hvalue hop hor p hp
    cases hbound : of_field field compared_number p with
    | none => rfl
    | some bound =>
      rw [Option.all_some, ← Bool.not_eq_false]
      exact fun hfalse => hclash p hp (.inr (.inr (.inr
        ⟨field, bound, value, hor, hbound, by rw [hpart, hvalue], hop, hfalse⟩)))
  cases field with
  | Extension =>
    refine ⟨h.resolved, fun values hvalues => ?_⟩
    have hsame : ∀ p ∈ predicates, ∀ old, of_field .Extension wanted_extensions p = some old →
        ∀ ext, ext ∈ old ↔ ext ∈ values := by
      intro p hp old hold
      by_contra hdiff
      exact hclash p hp (.inl ⟨old, values, hold, by rw [hpart, hvalues], hdiff⟩)
    by_cases hnil : f.extensions = []
    · exact .inl hnil
    · right
      intro ext
      rw [h.extensions] at hnil ⊢
      simp only [List.mem_flatMap]
      constructor
      · rintro ⟨p, hp, hmem⟩
        cases hold : of_field .Extension wanted_extensions p with
        | none => simp [hold] at hmem
        | some old => exact (hsame p hp old hold ext).mp (by simpa [hold] using hmem)
      · intro hmem
        obtain ⟨some_ext, hsome⟩ := List.exists_mem_of_ne_nil _ hnil
        obtain ⟨p, hp, hmem'⟩ := List.mem_flatMap.mp hsome
        cases hold : of_field .Extension wanted_extensions p with
        | none => simp [hold] at hmem'
        | some old => exact ⟨p, hp, by simpa [hold] using (hsame p hp old hold ext).mpr hmem⟩
  | Name =>
    intro excl hexcl
    cases hold : f.exclude_lower with
    | none => rfl
    | some old =>
      obtain ⟨p, hp, hpold⟩ := h.exclude old hold
      rw [Option.all_some, decide_eq_true_eq]
      by_contra hne
      exact hclash p hp (.inr (.inl ⟨old, excl, hpold, by rw [hpart, hexcl], hne⟩))
  | Malformed =>
    intro want hwant
    cases hold : f.malformed with
    | none => rfl
    | some old =>
      obtain ⟨p, hp, hpold⟩ := h.malformed old hold
      rw [Option.all_some, decide_eq_true_eq]
      by_contra hne
      exact hclash p hp (.inr (.inr (.inl ⟨old, want, hpold, by rw [hpart, hwant], hne⟩)))
  | NameLength => exact fun hop value hvalue => h.name_len _ (hlen value hvalue hop (.inl rfl))
  | PathLength => exact fun hop value hvalue => h.path_len _ (hlen value hvalue hop (.inr rfl))
  | _ => trivial

/-- The test of one predicate, its field by its name. -/
def hot_check_one (parse_time_bound : TimeParser) (now_us : Int64) (env : Env) (fold : CaseFold) (rec : CompactRecord)
    (names : List UInt8) (predicate : SearchPredicate) : Bool :=
  match FieldId.parse predicate.field with
  | none => true
  | some field => hot_check parse_time_bound now_us env fold rec names field predicate

/-- The filters test all the predicates, one by one. -/
theorem compile_predicates_run (hhot : predicates_require_post_filter predicates = false)
    (hclash : predicates.Pairwise fun p q => ¬Clash p q) :
    Built (compile_predicates_into_filters parse_time_bound now_us {} predicates) predicates ∧
      (compile_predicates_into_filters parse_time_bound now_us {} predicates).matches_record env rec names fold =
        predicates.all (hot_check_one parse_time_bound now_us env fold rec names) := by
  induction predicates using List.reverseRecOn with
  | nil => exact ⟨built_nil, rfl⟩
  | append_singleton predicates predicate ih =>
    simp only [predicates_require_post_filter, List.any_append, Bool.or_eq_false_iff, List.any_cons, List.any_nil,
      Bool.or_false] at hhot
    rw [List.pairwise_append] at hclash
    obtain ⟨hbuilt, hmatch⟩ := ih hhot.1 hclash.1
    rw [compile_append_one]
    refine ⟨hbuilt.compile_one predicate, ?_⟩
    rw [List.all_append, List.all_cons, List.all_nil, Bool.and_true, ← hmatch]
    cases hfield : FieldId.parse predicate.field with
    | none => simp [hfield] at hhot
    | some field =>
      have hfree := hbuilt.free hfield fun p hp => hclash.2.2 p hp predicate (by simp)
      have hcompiled : compiled_to_hot_path field predicate = true := by simpa [hfield] using hhot.2
      simp only [compile_one, hot_check_one, hfield]
      exact compile_predicate_step hcompiled hfree

end run

end uffs.daemon
