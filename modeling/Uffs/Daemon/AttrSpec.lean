import Mathlib.Data.List.DropRight
import Uffs.Daemon.PredicateCompile

open uffs.lib uffs.text uffs.compact uffs.search

namespace uffs.compact

theorem trim_front (text : Str) : trim text <+: text.dropWhile is_whitespace := by
  have hback := List.reverse_prefix.mpr (List.dropWhile_suffix (l := (text.dropWhile is_whitespace).reverse) is_whitespace)
  rwa [List.reverse_reverse] at hback

theorem trim_trim (text : Str) : trim (trim text) = trim text := by
  have hfront : (trim text).dropWhile is_whitespace = trim text := by
    obtain ⟨back, hback⟩ := trim_front text
    have hhead := List.head?_dropWhile_not is_whitespace text
    rw [← hback] at hhead
    cases htrim : trim text with
    | nil => rfl
    | cons ch rest =>
      rw [htrim] at hhead
      exact List.dropWhile_cons_of_neg (by simpa using hhead)
  rw [trim, hfront, trim, List.reverse_reverse, List.dropWhile_idempotent]

end uffs.compact

namespace uffs.daemon

/-! The text of attributes with its presets unfolded, against the two parsers. -/

def expand_attr_preset (token : Str) : Option Str :=
  if token ∈ ["system-files", "system_files", "sysfiles"].map String.toList then some "hidden,system".toList
  else if token ∈ ["user-files", "user_files", "userfiles"].map String.toList then some "!hidden,!system".toList
  else if token ∈ ["compressed-encrypted", "compressed_encrypted", "compenc"].map String.toList then
    some "compressed,encrypted".toList
  else none

/-- Bits of the attributes that a text wants set, presets unfolded as often as the fuel lasts. -/
def parse_attr_require_within : Nat → Str → UInt32
  | 0, _ => 0
  | fuel + 1, spec =>
    (split ',' spec).foldl (fun bits raw_part =>
      let lowered := to_ascii_lowercase (trim raw_part)
      if (strip_head ['!'] lowered).isSome then bits
      else
        match expand_attr_preset lowered with
        | some expanded => bits ||| parse_attr_require_within fuel expanded
        | none => bits ||| attr_bit lowered) 0

/-- Bits of the attributes that a text wants clear. -/
def parse_attr_exclude_within : Nat → Str → UInt32
  | 0, _ => 0
  | fuel + 1, spec =>
    (split ',' spec).foldl (fun bits raw_part =>
      let lowered := to_ascii_lowercase (trim raw_part)
      match strip_head ['!'] lowered with
      | some name =>
        match expand_attr_preset name with
        | some expanded => bits ||| parse_attr_exclude_within fuel expanded
        | none => bits ||| attr_bit name
      | none =>
        match expand_attr_preset lowered with
        | some expanded => bits ||| parse_attr_exclude_within fuel expanded
        | none => bits) 0

/-- No preset names another one. -/
def parse_attr_require (spec : Str) : UInt32 := parse_attr_require_within 2 spec

def parse_attr_exclude (spec : Str) : UInt32 := parse_attr_exclude_within 2 spec

/-- The names of the presets, and what each stands for. -/
def presets : List (List String × String) :=
  [(["system-files", "system_files", "sysfiles"], "hidden,system"),
    (["user-files", "user_files", "userfiles"], "!hidden,!system"),
    (["compressed-encrypted", "compressed_encrypted", "compenc"], "compressed,encrypted")]

theorem preset_mem {token expanded : Str} (h : expand_attr_preset token = some expanded) :
    ∃ entry ∈ presets, token ∈ entry.1.map String.toList ∧ entry.2.toList = expanded := by
  unfold expand_attr_preset at h
  split at h
  next hmem => exact ⟨_, List.mem_cons_self, hmem, Option.some.inj h⟩
  next =>
    split at h
    next hmem => exact ⟨_, List.mem_cons_of_mem _ List.mem_cons_self, hmem, Option.some.inj h⟩
    next =>
      split at h
      next hmem => exact ⟨_, List.mem_cons_of_mem _ (List.mem_cons_of_mem _ List.mem_cons_self), hmem, Option.some.inj h⟩
      next => cases h

/-- A preset has no bit of its own and is not negated. -/
theorem attr_bit_of_preset {token expanded : Str} (h : expand_attr_preset token = some expanded) :
    attr_bit token = 0 ∧ strip_head ['!'] token = none := by
  have hnames : ∀ entry ∈ presets, ∀ name ∈ entry.1.map String.toList, attr_bit name = 0 ∧ strip_head ['!'] name = none := by
    decide
  obtain ⟨entry, hentry, hname, -⟩ := preset_mem h
  exact hnames entry hentry token hname

/-- Bits that one part of the text adds to what is wanted set. -/
def required_bits (fuel : Nat) (raw_part : Str) : UInt32 :=
  let lowered := to_ascii_lowercase (trim raw_part)
  if (strip_head ['!'] lowered).isSome then 0
  else ((expand_attr_preset lowered).map (parse_attr_require_within fuel)).getD (attr_bit lowered)

/-- Bits that one part of the text adds to what is wanted clear. -/
def excluded_bits (fuel : Nat) (raw_part : Str) : UInt32 :=
  let lowered := to_ascii_lowercase (trim raw_part)
  match strip_head ['!'] lowered with
  | some name => ((expand_attr_preset name).map (parse_attr_exclude_within fuel)).getD (attr_bit name)
  | none => ((expand_attr_preset lowered).map (parse_attr_exclude_within fuel)).getD 0

theorem parse_attr_require_eq_put (fuel : Nat) (spec : Str) :
    parse_attr_require_within (fuel + 1) spec = mask.put (required_bits fuel) 0 (split ',' spec) := by
  rw [parse_attr_require_within, mask.put]
  refine List.foldl_ext _ _ _ fun bits raw_part _ => ?_
  dsimp only [required_bits]
  split
  · rw [UInt32.or_zero]
  · cases expand_attr_preset (to_ascii_lowercase (trim raw_part)) <;> rfl

theorem parse_attr_exclude_eq_put (fuel : Nat) (spec : Str) :
    parse_attr_exclude_within (fuel + 1) spec = mask.put (excluded_bits fuel) 0 (split ',' spec) := by
  rw [parse_attr_exclude_within, mask.put]
  refine List.foldl_ext _ _ _ fun bits raw_part _ => ?_
  dsimp only [excluded_bits]
  cases strip_head ['!'] (to_ascii_lowercase (trim raw_part)) with
  | none =>
    cases expand_attr_preset (to_ascii_lowercase (trim raw_part)) with
    | none => exact (UInt32.or_zero).symm
    | some expanded => rfl
  | some name =>
    dsimp only
    cases expand_attr_preset name <;> rfl

/-- The text of a preset names no other one. -/
theorem preset_parts {token expanded raw_part : Str} (h : expand_attr_preset token = some expanded)
    (hpart : raw_part ∈ split ',' expanded) (fuel fuel' : Nat) :
    required_bits fuel raw_part = required_bits fuel' raw_part ∧ excluded_bits fuel raw_part = excluded_bits fuel' raw_part := by
  have hparts : ∀ entry ∈ presets, ∀ part ∈ split ',' entry.2.toList,
      expand_attr_preset (to_ascii_lowercase (trim part)) = none ∧
        ∀ name, strip_head ['!'] (to_ascii_lowercase (trim part)) = some name → expand_attr_preset name = none := by
    decide
  obtain ⟨entry, hentry, -, rfl⟩ := preset_mem h
  obtain ⟨hnone, hname⟩ := hparts entry hentry raw_part hpart
  simp only [required_bits, excluded_bits, hnone, Option.map_none, true_and]
  cases hbang : strip_head ['!'] (to_ascii_lowercase (trim raw_part)) with
  | none => rfl
  | some name => simp only [hname name hbang, Option.map_none]

/-- Two levels of presets are enough. -/
theorem parse_attr_within_eq (fuel : Nat) (spec : Str) :
    parse_attr_require_within (fuel + 2) spec = parse_attr_require spec ∧
      parse_attr_exclude_within (fuel + 2) spec = parse_attr_exclude spec := by
  have hrequire : ∀ text, (expand_attr_preset text).map (parse_attr_require_within (fuel + 1)) =
      (expand_attr_preset text).map (parse_attr_require_within 1) := by
    refine fun text => Option.map_congr fun expanded hexpand => ?_
    rw [parse_attr_require_eq_put, parse_attr_require_eq_put]
    exact mask.put_congr (fun part hpart => (preset_parts hexpand hpart _ _).1) 0
  have hexclude : ∀ text, (expand_attr_preset text).map (parse_attr_exclude_within (fuel + 1)) =
      (expand_attr_preset text).map (parse_attr_exclude_within 1) := by
    refine fun text => Option.map_congr fun expanded hexpand => ?_
    rw [parse_attr_exclude_eq_put, parse_attr_exclude_eq_put]
    exact mask.put_congr (fun part hpart => (preset_parts hexpand hpart _ _).2) 0
  constructor
  · rw [parse_attr_require, parse_attr_require_eq_put, parse_attr_require_eq_put]
    exact mask.put_congr (fun raw_part _ => by simp only [required_bits, hrequire]) 0
  · rw [parse_attr_exclude, parse_attr_exclude_eq_put, parse_attr_exclude_eq_put]
    exact mask.put_congr (fun raw_part _ => by simp only [excluded_bits, hexclude]) 0

/-- What a part of the text becomes. -/
def expand_token (raw : Str) : List Str :=
  let token := trim raw
  let lower := to_ascii_lowercase token
  match (strip_head ['!'] lower).bind expand_attr_preset with
  | some expanded => split ',' expanded
  | none =>
    match expand_attr_preset lower with
    | some expanded => split ',' expanded
    | none => [token]

def expand_attr_spec (spec : Str) : Str := join ',' ((split ',' spec).flatMap expand_token)

/-- A `!` and the name of a preset, whatever the case. -/
def NegatedPreset (raw name : Str) : Prop :=
  strip_head ['!'] (to_ascii_lowercase (trim raw)) = some name ∧ (expand_attr_preset name).isSome = true

theorem split_expand_attr_spec (spec : Str) : split ',' (expand_attr_spec spec) = (split ',' spec).flatMap expand_token := by
  apply split_join
  · obtain ⟨raw, hraw⟩ := List.exists_mem_of_ne_nil _ (split_ne_nil ',' spec)
    have htoken : expand_token raw ≠ [] := by
      rw [expand_token]
      split
      · exact split_ne_nil _ _
      · split
        · exact split_ne_nil _ _
        · exact List.cons_ne_nil _ _
    obtain ⟨token, hmem⟩ := List.exists_mem_of_ne_nil _ htoken
    exact List.ne_nil_of_mem (List.mem_flatMap.mpr ⟨raw, hraw, hmem⟩)
  · intro token htoken
    obtain ⟨raw, hraw, htoken⟩ := List.mem_flatMap.mp htoken
    rw [expand_token] at htoken
    split at htoken
    · exact not_mem_of_mem_split htoken
    · split at htoken
      · exact not_mem_of_mem_split htoken
      · intro hcomma
        rw [List.mem_singleton.mp htoken] at hcomma
        exact not_mem_of_mem_split hraw ((List.dropWhile_suffix _).subset ((trim_front raw).subset hcomma))

/-- Where it negates no preset, a part has the bits of what it becomes. -/
theorem bits_expand_token {raw : Str} (h : ∀ name, ¬ NegatedPreset raw name) :
    mask.put (required_bits 1) 0 (expand_token raw) = required_bits 1 raw ∧
      mask.put (excluded_bits 1) 0 (expand_token raw) = excluded_bits 1 raw := by
  have hnegated : (strip_head ['!'] (to_ascii_lowercase (trim raw))).bind expand_attr_preset = none := by
    rw [Option.bind_eq_none_iff]
    intro name hname
    exact Option.not_isSome_iff_eq_none.mp fun hsome => h name ⟨hname, hsome⟩
  rw [expand_token, hnegated]
  cases hexpand : expand_attr_preset (to_ascii_lowercase (trim raw)) with
  | none =>
    constructor
    · rw [mask.put, List.foldl_cons, List.foldl_nil, UInt32.zero_or, required_bits, trim_trim, required_bits]
    · rw [mask.put, List.foldl_cons, List.foldl_nil, UInt32.zero_or, excluded_bits, trim_trim, excluded_bits]
  | some expanded =>
    have hhead := (attr_bit_of_preset hexpand).2
    constructor
    · rw [required_bits, hexpand, hhead, Option.isSome_none, if_neg Bool.false_ne_true, Option.map_some, Option.getD_some,
        parse_attr_require_eq_put]
      exact mask.put_congr (fun part hpart => (preset_parts hexpand hpart _ _).1) 0
    · rw [excluded_bits, hexpand, hhead]
      rw [Option.map_some, Option.getD_some, parse_attr_exclude_eq_put]
      exact mask.put_congr (fun part hpart => (preset_parts hexpand hpart _ _).2) 0

/-- The masks are those of the unfolded text, and a negated preset excludes what it would require, exactly
if the text negates no preset. -/
theorem attr_spec_composes_iff (spec : Str) :
    (parse_attr_require spec = parse_attr_require (expand_attr_spec spec) ∧
        parse_attr_exclude spec = parse_attr_exclude (expand_attr_spec spec) ∧
        ∀ raw ∈ split ',' spec, ∀ name, NegatedPreset raw name → parse_attr_exclude ('!' :: name) = parse_attr_require name) ↔
      ∀ raw ∈ split ',' spec, ∀ name, ¬ NegatedPreset raw name := by
  constructor
  · rintro ⟨-, -, h⟩ raw hraw name hnegated
    have hpresets : ∀ entry ∈ presets, ∀ name ∈ entry.1.map String.toList,
        parse_attr_exclude ('!' :: name) ≠ parse_attr_require name := by
      decide
    obtain ⟨expanded, hexpand⟩ := Option.isSome_iff_exists.mp hnegated.2
    obtain ⟨entry, hentry, hname, -⟩ := preset_mem hexpand
    exact hpresets entry hentry name hname (h raw hraw name hnegated)
  · intro h
    refine ⟨?_, ?_, fun raw hraw name hnegated => absurd hnegated (h raw hraw name)⟩
    · rw [parse_attr_require, parse_attr_require, parse_attr_require_eq_put, parse_attr_require_eq_put, split_expand_attr_spec,
        mask.put_flatMap fun raw hraw => (bits_expand_token (h raw hraw)).1]
    · rw [parse_attr_exclude, parse_attr_exclude, parse_attr_exclude_eq_put, parse_attr_exclude_eq_put, split_expand_attr_spec,
        mask.put_flatMap fun raw hraw => (bits_expand_token (h raw hraw)).2]

/-- `!system-files` becomes `hidden,system`, and excludes nothing itself. -/
theorem attr_spec_composes_fails_system_files :
    parse_attr_require "!system-files".toList ≠ parse_attr_require (expand_attr_spec "!system-files".toList) ∧
      parse_attr_exclude "!system-files".toList ≠ parse_attr_require "system-files".toList := by
  decide

end uffs.daemon
