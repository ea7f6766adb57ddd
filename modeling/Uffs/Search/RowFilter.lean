import Uffs.Search.Filters

open uffs.mft uffs.text uffs.bloom uffs.compact

namespace uffs.search

/-- What stands behind the last backslash. -/
def last_segment (path : Str) : Str := path.drop (name_start_of path)

theorem last_segment_eq (path : Str) : last_segment path = (path.reverse.takeWhile (· ≠ '\\')).reverse := by
  have hsplit := List.takeWhile_append_dropWhile (p := (· ≠ '\\')) (l := path.reverse)
  have hlen := congrArg List.length hsplit
  rw [List.length_append, List.length_reverse] at hlen
  have hpath : path = (path.reverse.dropWhile (· ≠ '\\')).reverse ++ (path.reverse.takeWhile (· ≠ '\\')).reverse := by
    rw [← List.reverse_append, hsplit, List.reverse_reverse]
  have hstart : name_start_of path = (path.reverse.dropWhile (· ≠ '\\')).reverse.length := by
    rw [name_start_of, List.length_reverse]
    omega
  rw [last_segment, hstart]
  exact (congrArg (List.drop _) hpath).trans List.drop_left

theorem last_segment_append (dir name : Str) : last_segment (dir ++ '\\' :: name) = last_segment name := by
  rw [last_segment_eq, last_segment_eq, List.reverse_append, List.reverse_cons, List.append_assoc, List.takeWhile_append]
  split
  next hall =>
    rw [(List.takeWhile_sublist _).eq_of_length hall]
    simp
  next => rfl

/-- Behind the last backslash stands the name. -/
theorem last_segment_of_clean {name : Str} (hname : '\\' ∉ name) : last_segment name = name := by
  have hall : ∀ ch ∈ name.reverse, decide (ch ≠ '\\') = true := fun ch hmem =>
    decide_eq_true fun heq => hname (heq ▸ List.mem_reverse.mp hmem)
  rw [last_segment_eq, List.takeWhile_eq_self_iff.mpr hall, List.reverse_reverse]

variable {path : Str}

/-- A component ends up behind a backslash. -/
theorem push_component_eq (hpath : path ≠ []) (name : Str) :
    ∃ dir, push_component path name = dir ++ '\\' :: name := by
  unfold push_component
  by_cases hlast : path.getLast? = some '\\'
  · obtain ⟨dir, rfl⟩ := List.getLast?_eq_some_iff.mp hlast
    exact ⟨dir, by simp⟩
  · refine ⟨path, ?_⟩
    rw [if_pos ⟨hlast, hpath⟩]
    simp

/-- The name of a record is text, not a lone dot, and without a backslash. -/
structure WellFormedName (names : List UInt8) (rec : CompactRecord) (name : Str) : Prop where
  bytes : rec.name_bytes names = as_bytes name
  ne_nil : name ≠ []
  ne_dot : name ≠ ['.']
  no_separator : '\\' ∉ name

variable {names : List UInt8} {rec : CompactRecord} {name : Str} {drive : DriveCompactIndex} {filters : SearchFilters}

theorem WellFormedName.name_eq (h : WellFormedName names rec name) : rec.name names = name := by
  rw [CompactRecord.name, h.bytes, from_utf8_as_bytes, Option.getD_some]

theorem WellFormedName.ends_climb (h : WellFormedName names rec name) : ends_climb (rec.name_bytes names) = false := by
  rw [h.bytes, Bool.eq_false_iff, Ne, ends_climb_iff h.ne_nil]
  exact h.ne_dot

section shown

variable {render : Render} {dir_cache : DirCache}

/-- A path that ends in the name of a slot. -/
def EndsInName (drive : DriveCompactIndex) (render : Render) (idx : Nat) (path : Str) : Prop :=
  ∃ rec dir, drive.records[idx]? = some rec ∧ path = dir ++ '\\' :: name_display_with render rec drive.names

theorem EndsInName.ne_nil {idx : Nat} (h : EndsInName drive render idx path) : path ≠ [] := by
  obtain ⟨rec, dir, -, rfl⟩ := h
  simp

def CacheEnds (drive : DriveCompactIndex) (render : Render) (dir_cache : DirCache) : Prop :=
  ∀ key cached, dir_cache key = some cached → EndsInName drive render key.toNat cached.1

theorem push_cached_ends {state : (Str × Bool) × DirCache} {idx : Nat} (hidx : idx < UInt32.size) (hpath : state.1.1 ≠ [])
    (hends : CacheEnds drive render state.2) :
    let pushed := push_cached drive render state idx
    pushed.1.1 ≠ [] ∧ CacheEnds drive render pushed.2 ∧
      ∀ rec, drive.records[idx]? = some rec → uffs.search.ends_climb (rec.name_bytes drive.names) = false →
        EndsInName drive render idx pushed.1.1 := by
  rw [push_cached]
  cases hget : drive.records[idx]? with
  | none => exact ⟨hpath, hends, by rintro _ ⟨⟩⟩
  | some rec =>
    dsimp only
    split
    next hclimb => exact ⟨hpath, hends, fun _ hrec hlive => by simp_all⟩
    next =>
      obtain ⟨dir, hdir⟩ := push_component_eq hpath (name_display_with render rec drive.names)
      have hname : EndsInName drive render idx (push_component state.1.1 (name_display_with render rec drive.names)) :=
        ⟨rec, dir, hget, hdir⟩
      refine ⟨hname.ne_nil, fun key cached hkey => ?_, fun _ _ _ => hname⟩
      dsimp only at hkey
      split at hkey
      next hown =>
        obtain ⟨-, rfl, -⟩ := hown
        rw [len_to_u32_toNat hidx, ← Option.some.inj hkey]
        exact hname
      next => exact hends key cached hkey

theorem foldl_push_cached_ends {chain : List Nat} (hchain : ∀ idx ∈ chain, idx < UInt32.size)
    {state : (Str × Bool) × DirCache} (hpath : state.1.1 ≠ []) (hends : CacheEnds drive render state.2) :
    (chain.foldl (push_cached drive render) state).1.1 ≠ [] ∧
      CacheEnds drive render (chain.foldl (push_cached drive render) state).2 := by
  induction chain generalizing state with
  | nil => exact ⟨hpath, hends⟩
  | cons idx chain ih =>
    obtain ⟨hpath', hends', -⟩ := push_cached_ends (hchain idx List.mem_cons_self) hpath hends
    exact ih (fun _ hmem => hchain _ (List.mem_cons_of_mem idx hmem)) hpath' hends'

/-- The climb stays among the slots a `u32` can name, and what it ends on is in the cache. -/
theorem cached_chain_spec (drive : DriveCompactIndex) (dir_cache : DirCache) (fuel : Nat) {idx : Nat} (hidx : idx < UInt32.size) :
    (∀ above ∈ (cached_chain drive dir_cache fuel idx).1, above < UInt32.size) ∧
      ∀ cached, (cached_chain drive dir_cache fuel idx).2 = some cached → ∃ key, dir_cache key = some cached := by
  induction fuel generalizing idx with
  | zero => exact ⟨List.forall_mem_nil _, by rintro _ ⟨⟩⟩
  | succ fuel ih =>
    rw [cached_chain]
    split
    next cached hkey => exact ⟨List.forall_mem_nil _, fun _ heq => ⟨_, hkey.trans heq⟩⟩
    next =>
      split
      next => exact ⟨List.forall_mem_nil _, by rintro _ ⟨⟩⟩
      next rec _ =>
        split
        · exact ⟨List.forall_mem_nil _, by rintro _ ⟨⟩⟩
        · split
          · exact ⟨by simpa using hidx, by rintro _ ⟨⟩⟩
          · obtain ⟨hchain, hhit⟩ := ih rec.parent_idx.toNat_lt
            exact ⟨List.forall_mem_cons.mpr ⟨hidx, hchain⟩, hhit⟩

/-- Whatever the cache holds, the path of a slot with a name ends in that name. -/
theorem resolve_path_cached_ends (hends : CacheEnds drive render dir_cache) {idx : Nat} (hidx : idx < UInt32.size) :
    let resolved := resolve_path_cached_with_malformed drive idx ( stack_volume_prefix drive.letter) dir_cache render
    CacheEnds drive render resolved.2 ∧
      ∀ rec, drive.records[idx]? = some rec → uffs.search.ends_climb (rec.name_bytes drive.names) = false →
        EndsInName drive render idx resolved.1.1 := by
  have hstart : ∀ {hit : Option (Str × Bool)}, (∀ cached, hit = some cached → ∃ key, dir_cache key = some cached) →
      (hit.getD ( stack_volume_prefix drive.letter, false)).1 ≠ [] := by
    intro hit hfrom
    cases hit with
    | none => simp [ stack_volume_prefix]
    | some cached =>
      obtain ⟨key, hkey⟩ := hfrom cached rfl
      exact (hends key cached hkey).ne_nil
  rw [resolve_path_cached_with_malformed, MAX_DEPTH, cached_chain]
  cases hkey : dir_cache (len_to_u32 idx) with
  | some cached =>
    refine ⟨hends, fun _ _ _ => ?_⟩
    have := hends _ cached hkey
    rwa [len_to_u32_toNat hidx] at this
  | none =>
    cases hget : drive.records[idx]? with
    | none => exact ⟨hends, by rintro _ ⟨⟩⟩
    | some rec =>
      dsimp only
      split
      next hclimb => exact ⟨hends, fun _ hrec hlive => by simp_all⟩
      next =>
        have hlast {chain : List Nat} {hit : Option (Str × Bool)} (hchain : ∀ above ∈ chain, above < UInt32.size)
            (hhit : ∀ cached, hit = some cached → ∃ key, dir_cache key = some cached) :
            let resolved := (idx :: chain).reverse.foldl (push_cached drive render)
              (hit.getD ( stack_volume_prefix drive.letter, false), dir_cache)
            CacheEnds drive render resolved.2 ∧ ∀ rec, drive.records[idx]? = some rec →
              uffs.search.ends_climb (rec.name_bytes drive.names) = false → EndsInName drive render idx resolved.1.1 := by
          rw [List.reverse_cons, List.foldl_append]
          obtain ⟨hpath, habove⟩ := @foldl_push_cached_ends drive render _ (fun _ hmem => hchain _ (List.mem_reverse.mp hmem))
            (hit.getD ( stack_volume_prefix drive.letter, false), dir_cache) (hstart hhit) hends
          exact (push_cached_ends hidx hpath habove).2
        rw [← hget]
        split
        · exact hlast (List.forall_mem_nil _) (by rintro _ ⟨⟩)
        · obtain ⟨hchain, hhit⟩ := cached_chain_spec drive dir_cache 256 rec.parent_idx.toNat_lt
          exact hlast hchain hhit

theorem Warmed.ends (hwarm : Warmed drive render dir_cache) : CacheEnds drive render dir_cache := by
  induction hwarm with
  | empty => exact nofun
  | next _ rec_idx ih => exact (resolve_path_cached_ends ih rec_idx.toNat_lt).1

/-- The row of a record carries the name of the record, whatever rows were built before it. -/
theorem build_row_cached_name (hwarm : Warmed drive render dir_cache) {idx : UInt32}
    (hget : drive.records[idx.toNat]? = some rec) (hname : WellFormedName drive.names rec name) :
    (build_row_cached drive idx rec ( stack_volume_prefix drive.letter) dir_cache render).1.name = name := by
  obtain ⟨own, dir, hown, hpath⟩ := (resolve_path_cached_ends hwarm.ends idx.toNat_lt).2 rec hget hname.ends_climb
  obtain rfl := Option.some.inj (hget.symm.trans hown)
  have hdisplay : name_display_with render rec drive.names = name := by
    rw [name_display_with, hname.bytes, from_utf8_as_bytes, Option.getD_some]
  rw [hdisplay] at hpath
  have hlast := (last_segment_append dir name).trans (last_segment_of_clean hname.no_separator)
  rwa [← hpath] at hlast

end shown

/-- No criterion on the path, the type or an excluded pattern. -/
structure SearchFilters.Plain (filters : SearchFilters) : Prop where
  path_contains : filters.path_contains_lower = none
  path_excludes : filters.path_excludes_lower = none
  type_filter : filters.type_filter = none
  exclude : filters.exclude_lower = none

/-- The criteria that both levels read from the same data. -/
def shared_checks (filters : SearchFilters) (rec : CompactRecord) (names : List UInt8) : Bool :=
  let name_len := len_to_u16 (rec.name names).length
  !(filters.hide_ads && decide (':' ∈ rec.name names)) &&
    at_least filters.min_size rec.size && at_most filters.max_size rec.size &&
    at_least filters.newer_us rec.modified && older_than filters.older_us rec.modified &&
    at_least filters.newer_created_us rec.created && older_than filters.older_created_us rec.created &&
    at_least filters.newer_accessed_us rec.accessed && older_than filters.older_accessed_us rec.accessed &&
    !(filters.attr_require != 0 && rec.flags &&& filters.attr_require != filters.attr_require) &&
    !(filters.attr_exclude != 0 && rec.flags &&& filters.attr_exclude != 0) &&
    at_least filters.min_descendants rec.descendants && at_most filters.max_descendants rec.descendants &&
    at_least filters.min_name_len name_len && at_most filters.max_name_len name_len &&
    at_least filters.min_allocated rec.allocated && at_most filters.max_allocated rec.allocated &&
    at_least filters.min_treesize rec.treesize && at_most filters.max_treesize rec.treesize &&
    at_least filters.min_tree_allocated rec.tree_allocated && at_most filters.max_tree_allocated rec.tree_allocated &&
    (filters.allowed_months.isEmpty || decide (month_from_unix_micros rec.modified ∈ filters.allowed_months)) &&
    filters.malformed.all fun want => (from_utf8 (rec.name_bytes names)).isNone == want

/-- Lengths of the path within the bounds. -/
def path_len_checks (filters : SearchFilters) (path_len : UInt16) : Bool :=
  at_least filters.min_path_len path_len && at_most filters.max_path_len path_len

def bulkiness_checks (filters : SearchFilters) (bulk : UInt64) : Bool :=
  at_least filters.min_bulkiness bulk && at_most filters.max_bulkiness bulk

/-- The other criteria as the scan reads them: the cached first byte, the tombstone bit, the
interned id, the stored length and the sizes of the record. -/
def record_checks (filters : SearchFilters) (env : Env) (rec : CompactRecord) (names : List UInt8) : Bool :=
  !(filters.hide_system && is_system_metafile rec names) &&
    (filters.deleted.all fun want_deleted => (rec.flags &&& DELETED_TOMBSTONE_FLAG != 0) == want_deleted) &&
    filters.matches_extension env rec names && path_len_checks filters rec.path_len &&
    bulkiness_checks filters (bulkiness_for_record rec)

/-- The same criteria as the row shows them: the name, its extension, the path, and the sizes of a
file for the stream of a directory. No row is tested for the tombstone bit. -/
def row_checks (filters : SearchFilters) (env : Env) (rec : CompactRecord) (names : List UInt8) (path : Str) : Bool :=
  !(filters.hide_system && is_ntfs_metafile_name (rec.name names)) &&
    (filters.extensions.isEmpty || filters.name_has_extension env (rec.name names)) &&
    path_len_checks filters (len_to_u16 path.length) &&
    bulkiness_checks filters (if rec.is_directory && !decide (':' ∈ rec.name names)
      then bulkiness_from_sizes rec.treesize rec.tree_allocated else bulkiness_from_sizes rec.size rec.allocated)

theorem matches_record_eq (hplain : filters.Plain) (env : Env) (rec : CompactRecord) (names : List UInt8) (fold : CaseFold) :
    filters.matches_record env rec names fold = (shared_checks filters rec names && record_checks filters env rec names) := by
  unfold SearchFilters.matches_record SearchFilters.matches_derived shared_checks record_checks path_len_checks
    bulkiness_checks
  rw [hplain.exclude]
  simp only [Option.all_none, Bool.and_true]
  ac_rfl

/-- Filters at their defaults let every row through. -/
theorem checks_of_is_empty (hempty : filters.is_empty = true) (env : Env) (rec : CompactRecord) (names : List UInt8)
    (path : Str) : (shared_checks filters rec names && row_checks filters env rec names path) = true := by
  simp only [SearchFilters.is_empty, Bool.and_eq_true, Bool.not_eq_true', Option.isNone_iff_eq_none, List.isEmpty_iff,
    beq_iff_eq] at hempty
  simp [shared_checks, row_checks, path_len_checks, bulkiness_checks, at_least, at_most, older_than, hempty]

theorem row_passes_filters_eq (hplain : filters.Plain) (env : Env) (categories : List (Str × List Str)) {idx : UInt32}
    {letter : Char} { path_malformed : Bool} {row : DisplayRow} (hrow : row.name = rec.name names)
    (hmade : row = make_display_row idx letter rec (rec.name names) path (row_forensics rec names path_malformed))
    (fold : CaseFold) :
    row_passes_filters env categories row filters fold =
      (shared_checks filters rec names && row_checks filters env rec names path) := by
  by_cases hempty : filters.is_empty = true
  · rw [row_passes_filters, hempty, checks_of_is_empty hempty, Bool.true_or]
  · rw [row_passes_filters, Bool.not_eq_true _ |>.mp hempty, Bool.false_or]
    unfold apply_derived_filters shared_checks row_checks path_len_checks bulkiness_checks is_system_name
    rw [hrow, hplain.exclude, hplain.path_contains, hplain.path_excludes, hplain.type_filter, hmade]
    simp only [Option.all_none, Bool.and_true, bulkiness_for_row, make_display_row, row_forensics]
    ac_rfl

section rejected

variable {α : Type} [LT α] [DecidableLT α]

/-- A value below a lower bound or above an upper one. -/
def Outside (min max : Option α) (value : α) : Prop :=
  (∃ bound, min = some bound ∧ value < bound) ∨ ∃ bound, max = some bound ∧ bound < value

/-- A time before the first or not before the last. -/
def OutsideDates (newer older : Option Int64) (value : Int64) : Prop :=
  (∃ bound, newer = some bound ∧ value < bound) ∨ ∃ bound, older = some bound ∧ ¬ value < bound

theorem at_least_eq_false {min : Option α} {value : α} :
    at_least min value = false ↔ ∃ bound, min = some bound ∧ value < bound := by
  cases min <;> simp [at_least]

theorem at_most_eq_false {max : Option α} {value : α} :
    at_most max value = false ↔ ∃ bound, max = some bound ∧ bound < value := by
  cases max <;> simp [at_most]

theorem older_than_eq_false {older : Option α} {value : α} :
    older_than older value = false ↔ ∃ bound, older = some bound ∧ ¬ value < bound := by
  cases older <;> simp [older_than]

/-- A criterion that both levels read from the same data rules the record out. -/
@[mk_iff] inductive RuledOut (filters : SearchFilters) (rec : CompactRecord) (names : List UInt8) : Prop
  | ads (hide : filters.hide_ads = true) (stream : ':' ∈ rec.name names)
  | size (h : Outside filters.min_size filters.max_size rec.size)
  | modified (h : OutsideDates filters.newer_us filters.older_us rec.modified)
  | created (h : OutsideDates filters.newer_created_us filters.older_created_us rec.created)
  | accessed (h : OutsideDates filters.newer_accessed_us filters.older_accessed_us rec.accessed)
  | attr_require (lacks : rec.flags &&& filters.attr_require ≠ filters.attr_require)
  | attr_exclude (has : rec.flags &&& filters.attr_exclude ≠ 0)
  | descendants (h : Outside filters.min_descendants filters.max_descendants rec.descendants)
  | name_len (h : Outside filters.min_name_len filters.max_name_len (len_to_u16 (rec.name names).length))
  | allocated (h : Outside filters.min_allocated filters.max_allocated rec.allocated)
  | treesize (h : Outside filters.min_treesize filters.max_treesize rec.treesize)
  | tree_allocated (h : Outside filters.min_tree_allocated filters.max_tree_allocated rec.tree_allocated)
  | month (asked : filters.allowed_months ≠ []) (other : month_from_unix_micros rec.modified ∉ filters.allowed_months)
  | malformed (other : filters.malformed = some (!(from_utf8 (rec.name_bytes names)).isNone))

/-- The scan finds the first byte of a metafile, another tombstone bit, an extension or a stored
length that is not asked for, or the ratio of the record out of bounds. -/
@[mk_iff] inductive RecordRejects (filters : SearchFilters) (env : Env) (rec : CompactRecord) (names : List UInt8) : Prop
  | system (hide : filters.hide_system = true) (first : rec.name_first_byte = 0x24)
      (named : is_ntfs_metafile_name (rec.name names) = true)
  | tombstone (other : filters.deleted = some (rec.flags &&& DELETED_TOMBSTONE_FLAG == 0))
  | extension (asked : filters.resolved_ext_ids ≠ []) (other : rec.extension_id ∉ filters.resolved_ext_ids)
  | unresolved (asked : filters.extensions ≠ []) (names_only : filters.resolved_ext_ids = [])
      (other : filters.name_has_extension env (rec.name names) = false)
  | path_len (h : Outside filters.min_path_len filters.max_path_len rec.path_len)
  | bulkiness (h : Outside filters.min_bulkiness filters.max_bulkiness (bulkiness_for_record rec))

/-- The row shows the name of a metafile, an extension that is not asked for, or a path or a ratio
out of bounds. -/
@[mk_iff] inductive RowRejects (filters : SearchFilters) (env : Env) (rec : CompactRecord) (names : List UInt8)
    (path : Str) : Prop
  | system (hide : filters.hide_system = true) (named : is_ntfs_metafile_name (rec.name names) = true)
  | extension (asked : filters.extensions ≠ []) (other : filters.name_has_extension env (rec.name names) = false)
  | path_len (h : Outside filters.min_path_len filters.max_path_len (len_to_u16 path.length))
  | bulkiness (h : Outside filters.min_bulkiness filters.max_bulkiness
      (if rec.is_directory && !decide (':' ∈ rec.name names)
        then bulkiness_from_sizes rec.treesize rec.tree_allocated else bulkiness_from_sizes rec.size rec.allocated))

theorem ruledOut_iff_checks : RuledOut filters rec names ↔ shared_checks filters rec names = false := by
  have hrequire : (!(filters.attr_require != 0 && rec.flags &&& filters.attr_require != filters.attr_require)) = false ↔
      rec.flags &&& filters.attr_require ≠ filters.attr_require := by
    by_cases hzero : filters.attr_require = 0 <;> simp [hzero]
  have hexclude : (!(filters.attr_exclude != 0 && rec.flags &&& filters.attr_exclude != 0)) = false ↔
      rec.flags &&& filters.attr_exclude ≠ 0 := by
    by_cases hzero : filters.attr_exclude = 0 <;> simp [hzero]
  have hmonth : (filters.allowed_months.isEmpty || decide (month_from_unix_micros rec.modified ∈ filters.allowed_months)) = false ↔
      filters.allowed_months ≠ [] ∧ month_from_unix_micros rec.modified ∉ filters.allowed_months := by
    simp
  have hmalformed : (filters.malformed.all fun want => (from_utf8 (rec.name_bytes names)).isNone == want) = false ↔
      filters.malformed = some (!(from_utf8 (rec.name_bytes names)).isNone) := by
    cases filters.malformed with
    | none => simp
    | some want => cases want <;> simp
  rw [ruledOut_iff, shared_checks]
  simp only [Outside, OutsideDates, Bool.and_eq_false_iff, at_least_eq_false, at_most_eq_false, older_than_eq_false, or_assoc,
    hrequire, hexclude, hmonth, hmalformed, Bool.not_eq_false', Bool.and_eq_true, decide_eq_true_eq]

theorem recordRejects_iff_checks {env : Env} :
    RecordRejects filters env rec names ↔ record_checks filters env rec names = false := by
  have hdeleted : (filters.deleted.all fun want_deleted => (rec.flags &&& DELETED_TOMBSTONE_FLAG != 0) == want_deleted) = false ↔
      filters.deleted = some (rec.flags &&& DELETED_TOMBSTONE_FLAG == 0) := by
    cases filters.deleted with
    | none => simp
    | some want => cases want <;> simp
  have hextension : filters.matches_extension env rec names = false ↔
      (filters.resolved_ext_ids ≠ [] ∧ rec.extension_id ∉ filters.resolved_ext_ids) ∨
        filters.extensions ≠ [] ∧ filters.resolved_ext_ids = [] ∧ filters.name_has_extension env (rec.name names) = false := by
    rw [SearchFilters.matches_extension]
    cases filters.resolved_ext_ids <;> cases filters.extensions <;> simp
  rw [recordRejects_iff, record_checks, path_len_checks, bulkiness_checks]
  simp only [Outside, Bool.and_eq_false_iff, at_least_eq_false, at_most_eq_false, or_assoc, hdeleted, hextension,
    Bool.not_eq_false', Bool.and_eq_true, is_system_metafile, beq_iff_eq]

theorem rowRejects_iff_checks {env : Env} :
    RowRejects filters env rec names path ↔ row_checks filters env rec names path = false := by
  rw [rowRejects_iff, row_checks, path_len_checks, bulkiness_checks]
  simp only [Outside, Bool.and_eq_false_iff, at_least_eq_false, at_most_eq_false, or_assoc, Bool.not_eq_false', Bool.and_eq_true,
    Bool.or_eq_false_iff, List.isEmpty_eq_false_iff, ne_eq]

end rejected

/-- No criterion is read differently on the two levels: the cached first byte is that of a metafile's
name, the tombstone bit is as asked for, the id stands for the extension of the name, the stored
length and the length of the path fall on the same side of the bounds, and so do the two ratios of a
stream that sits on a directory. -/
structure Undisputed (filters : SearchFilters) (env : Env) (rec : CompactRecord) (names : List UInt8) (path : Str) : Prop where
  first_byte : filters.hide_system = true → is_ntfs_metafile_name (rec.name names) = true → rec.name_first_byte = 0x24
  tombstone : ∀ want_deleted, filters.deleted = some want_deleted → (rec.flags &&& DELETED_TOMBSTONE_FLAG != 0) = want_deleted
  extension : filters.matches_extension env rec names =
    (filters.extensions.isEmpty || filters.name_has_extension env (rec.name names))
  path_len : path_len_checks filters rec.path_len = path_len_checks filters (len_to_u16 path.length)
  bulkiness : rec.is_directory = true → ':' ∈ rec.name names →
    bulkiness_checks filters (bulkiness_from_sizes rec.treesize rec.tree_allocated) =
      bulkiness_checks filters (bulkiness_from_sizes rec.size rec.allocated)

theorem deleted_all_iff {bit : Bool} :
    (filters.deleted.all fun want_deleted => bit == want_deleted) = true ↔
      ∀ want_deleted, filters.deleted = some want_deleted → bit = want_deleted := by
  cases filters.deleted <;> simp

theorem Undisputed.checks_eq {env : Env} (h : Undisputed filters env rec names path) :
    record_checks filters env rec names = row_checks filters env rec names path := by
  have hsystem : (filters.hide_system && is_system_metafile rec names) =
      (filters.hide_system && is_ntfs_metafile_name (rec.name names)) := by
    cases hhide : filters.hide_system with
    | false => simp
    | true =>
      cases hmeta : is_ntfs_metafile_name (rec.name names) with
      | false => simp [is_system_metafile, hmeta]
      | true => simp [is_system_metafile, hmeta, h.first_byte hhide hmeta]
  have hbulk : bulkiness_checks filters (bulkiness_for_record rec) =
      bulkiness_checks filters (if rec.is_directory && !decide (':' ∈ rec.name names)
        then bulkiness_from_sizes rec.treesize rec.tree_allocated else bulkiness_from_sizes rec.size rec.allocated) := by
    unfold bulkiness_for_record
    cases hdir : rec.is_directory with
    | false => simp
    | true =>
      by_cases hstream : ':' ∈ rec.name names
      · simpa [hstream] using h.bulkiness hdir hstream
      · simp [hstream]
  rw [record_checks, row_checks, hsystem, deleted_all_iff.mpr h.tombstone, h.extension, h.path_len, hbulk, Bool.and_true]

/-- Where both levels accept, there is nothing to dispute. -/
theorem undisputed_of_accepted {env : Env} (hrecord : record_checks filters env rec names = true)
    (hrow : row_checks filters env rec names path = true) : Undisputed filters env rec names path := by
  simp only [record_checks, row_checks, Bool.and_eq_true] at hrecord hrow
  obtain ⟨⟨⟨⟨-, hdeleted⟩, hid⟩, hstored⟩, hratio⟩ := hrecord
  obtain ⟨⟨⟨hmeta, hext⟩, hlength⟩, hshown⟩ := hrow
  constructor
  · intro hhide hname
    simp [hhide, hname] at hmeta
  · exact deleted_all_iff.mp hdeleted
  · rw [hid, hext]
  · rw [hstored, hlength]
  · intro hdir hstream
    simp only [bulkiness_for_record, hdir, if_true] at hratio
    have hown : bulkiness_checks filters (bulkiness_from_sizes rec.size rec.allocated) = true := by
      simpa [hdir, hstream] using hshown
    rw [hratio, hown]

/-- The two levels agree on a record exactly if no criterion is disputed, one that both read alike
rules the record out, or each level has a criterion of its own that rejects it. The row is built
behind any rows of the drive, through the directories they left in the cache. -/
theorem record_and_row_agree_iff {env : Env} {categories : List (Str × List Str)} {drive : DriveCompactIndex} {idx : UInt32}
    {rec : CompactRecord} {name : Str} (hget : drive.records[idx.toNat]? = some rec)
    (hname : WellFormedName drive.names rec name) {filters : SearchFilters} (hplain : filters.Plain)
    {render : Render} {dir_cache : DirCache} (hwarm : Warmed drive render dir_cache) (fold : CaseFold) :
    let row := (build_row_cached drive idx rec ( stack_volume_prefix drive.letter) dir_cache render).1
    filters.matches_record env rec drive.names drive.fold = row_passes_filters env categories row filters fold ↔
      Undisputed filters env rec drive.names row.path ∨ RuledOut filters rec drive.names ∨
        (RecordRejects filters env rec drive.names ∧ RowRejects filters env rec drive.names row.path) := by
  intro row
  have hverdict : row_passes_filters env categories row filters fold =
      (shared_checks filters rec drive.names && row_checks filters env rec drive.names row.path) :=
    row_passes_filters_eq hplain env categories ((build_row_cached_name hwarm hget hname).trans hname.name_eq.symm) rfl fold
  rw [matches_record_eq hplain, hverdict, ruledOut_iff_checks, recordRejects_iff_checks, rowRejects_iff_checks]
  generalize row.path = path
  constructor
  · intro hagree
    cases hshared : shared_checks filters rec drive.names with
    | false => exact Or.inr (Or.inl rfl)
    | true =>
      rw [hshared, Bool.true_and, Bool.true_and] at hagree
      cases hrecord : record_checks filters env rec drive.names with
      | false => exact Or.inr (Or.inr ⟨rfl, hagree.symm.trans hrecord⟩)
      | true => exact Or.inl (undisputed_of_accepted hrecord (hagree.symm.trans hrecord))
  · rintro (hundisputed | hshared | ⟨hrecord, hrow⟩)
    · rw [hundisputed.checks_eq]
    · simp [hshared]
    · rw [hrecord, hrow]

/-- A drive with one file in its root. -/
def one_file_drive : DriveCompactIndex :=
  { bare_drive with
    records := [{ name_len := 1, parent_idx := NO_ENTRY, path_len := 4, name_first_byte := 0x61 }]
    names := [0x61]
    children := { offsets := [0, 0], values := [] }
    ext_index := { offsets := [0, 1], values := [0] } }

theorem one_file_wellFormedName : WellFormedName one_file_drive.names one_file_drive.records[0] ['a'] where
  bytes := by decide
  ne_nil := by decide
  ne_dot := by decide
  no_separator := by decide

/-- A filter on the length of the path is read alike on both levels, also behind another row. -/
theorem record_and_row_agree_path_len :
    SearchFilters.matches_record { min_path_len := some 4 } sample_env one_file_drive.records[0] one_file_drive.names one_file_drive.fold =
      row_passes_filters sample_env [] (build_row_cached one_file_drive 0 one_file_drive.records[0] ( stack_volume_prefix 'C')
        (resolve_path_cached_with_malformed one_file_drive 0 ( stack_volume_prefix 'C') (fun _ => none) fun _ => []).2 fun _ => []).1
        { min_path_len := some 4 } ⟨[]⟩ := by
  apply (record_and_row_agree_iff (by decide) one_file_wellFormedName ⟨rfl, rfl, rfl, rfl⟩ (Warmed.empty.next 0) _).mpr
  left
  refine ⟨by simp, by simp, by decide, by decide, by decide⟩

/-- The tombstones of a diff are asked for: the record is rejected and its row is not. -/
theorem row_ignores_tombstone :
    SearchFilters.matches_record { deleted := some true } sample_env one_file_drive.records[0] one_file_drive.names one_file_drive.fold ≠
      row_passes_filters sample_env [] (build_row_cached one_file_drive 0 one_file_drive.records[0] ( stack_volume_prefix 'C')
        (fun _ => none) fun _ => []).1 { deleted := some true } ⟨[]⟩ := by
  decide

end uffs.search
