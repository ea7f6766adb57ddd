import Uffs.Search.Names

open uffs.lib uffs.text

namespace uffs.search

/-- `strip_prefix`. -/
def strip_head (lead text : Str) : Option Str :=
  if lead.isPrefixOf text then some (text.drop lead.length) else none

/-- `strip_suffix` with one character. -/
def strip_last (last : Char) (text : Str) : Option Str :=
  if text.getLast? = some last then some text.dropLast else none

def to_ascii_lowercase (text : Str) : Str := text.map Char.toLower

/-- A pure extension: not empty, and word characters only. -/
def is_pure_ext (ext : Str) : Bool := !ext.isEmpty && ext.all is_word

/-- Split a leading drive letter and colon off a pattern. -/
def split_drive_prefix (pattern : Str) : Option (Char × Str) :=
  match pattern with
  | letter :: ':' :: rest =>
    if letter.isAlpha then
      let core := rest.dropWhile fun ch => ch = '\\' || ch = '/'
      some (letter.toUpper, if core.isEmpty then ['*'] else core)
    else none
  | _ => none

/-- Exactly a star, a dot and a pure extension. -/
def is_pure_ext_glob (pattern : Str) : Bool :=
  match strip_head ['*', '.'] pattern with
  | none => false
  | some rest => is_pure_ext rest

/-- What is left between the dot and the end: a group of extensions, or a single one. -/
def choice_extensions (body : Str) : List Str :=
  match (strip_head ['('] body).bind (strip_last ')') with
  | none => [to_ascii_lowercase body]
  | some group => (split '|' group).map to_ascii_lowercase

/-- Extensions of a regex that ends in a dot and a choice of pure extensions. -/
def extract_extensions_from_regex (pattern : Str) : Option (List Str) := do
  let body ← strip_head ['>'] pattern
  if body.isEmpty then none
  let body := (strip_head ['(', '?', 'i', ')'] body).getD body
  let body := (strip_head ['^'] body).getD body
  let body := (strip_head ['.', '*'] body).getD body
  let body ← strip_head ['\\', '.'] body
  let body ← strip_last '$' body
  if (choice_extensions body).all is_pure_ext then some (choice_extensions body) else none

/-- What the rewrites may change: the pattern, the extension filter and the drives. -/
structure Dispatch where
  pattern : Str
  extensions : List Str
  drives : List Char
deriving DecidableEq

/-- First rewrite: a drive letter in front of the pattern becomes a drive filter. -/
def drive_net (match_path drives_filter_empty : Bool) (query : Dispatch) : Dispatch :=
  if drives_filter_empty && !match_path then
    match split_drive_prefix query.pattern with
    | none => query
    | some (letter, rest) => { query with pattern := rest, drives := query.drives ++ [letter] }
  else query

/-- Second rewrite: a pure extension glob becomes an extension filter. -/
def glob_net (match_path case_sensitive : Bool) (query : Dispatch) : Dispatch :=
  if !match_path && !case_sensitive && query.extensions.isEmpty && is_pure_ext_glob query.pattern then
    { query with
      pattern := ['*']
      extensions := query.extensions ++ [to_ascii_lowercase ((strip_head ['*', '.'] query.pattern).getD [])] }
  else query

/-- Third rewrite: a regex that only asks for extensions becomes an extension filter. -/
def regex_net (match_path case_sensitive : Bool) (query : Dispatch) : Dispatch :=
  if !match_path && !case_sensitive && query.extensions.isEmpty then
    match extract_extensions_from_regex query.pattern with
    | none => query
    | some exts => { query with pattern := ['*'], extensions := query.extensions ++ exts }
  else query

def apply_dispatch_safety_nets (match_path case_sensitive drives_filter_empty : Bool) (query : Dispatch) : Dispatch :=
  regex_net match_path case_sensitive (glob_net match_path case_sensitive (drive_net match_path drives_filter_empty query))

/-- The choice at the end of such a regex: one extension, or a group of them. -/
inductive RegexTail where
  | single (word : Str)
  | group (words : List Str)

def RegexTail.words : RegexTail → List Str
  | .single word => [word]
  | .group words => words

def RegexTail.text : RegexTail → Str
  | .single word => word
  | .group words => '(' :: join '|' words ++ [')']

/-- A regex for a trailing extension, without its flag: the anchor, the free start, the dot, the
choice and the end. -/
def regex_text (caret dots : Bool) (tail : RegexTail) : Str :=
  (if caret then ['^'] else []) ++ ((if dots then ['.', '*'] else []) ++ (['\\', '.'] ++ (tail.text ++ ['$'])))

/-- The patterns that the rewrites turn into an extension filter. -/
inductive ExtPattern where
  | glob (ext : Str)
  | regex (flag caret dots : Bool) (tail : RegexTail)

def ExtPattern.words : ExtPattern → List Str
  | .glob ext => [ext]
  | .regex _ _ _ tail => tail.words

def ExtPattern.text : ExtPattern → Str
  | .glob ext => '*' :: '.' :: ext
  | .regex flag caret dots tail => '>' :: ((if flag then ['(', '?', 'i', ')'] else []) ++ regex_text caret dots tail)

/-- The filter that replaces the pattern. -/
def ExtPattern.extensions (self : ExtPattern) : List Str := self.words.map to_ascii_lowercase

structure ExtPattern.Pure (p : ExtPattern) : Prop where
  ne_nil : p.words ≠ []
  pure_words : ∀ word ∈ p.words, is_pure_ext word = true

theorem is_pure_ext_iff {ext : Str} : is_pure_ext ext = true ↔ ext ≠ [] ∧ ∀ ch ∈ ext, is_word ch = true := by
  cases ext <;> simp [is_pure_ext]

theorem strip_head_eq_some {lead text rest : Str} : strip_head lead text = some rest ↔ text = lead ++ rest := by
  unfold strip_head
  constructor
  · intro h
    split at h
    next hlead =>
      obtain ⟨tail, rfl⟩ := List.isPrefixOf_iff_prefix.mp hlead
      rw [List.drop_left] at h
      rw [Option.some.inj h]
    next => cases h
  · rintro rfl
    rw [if_pos (List.isPrefixOf_iff_prefix.mpr (List.prefix_append _ _)), List.drop_left]

theorem strip_last_eq_some {last : Char} {text rest : Str} : strip_last last text = some rest ↔ text = rest ++ [last] := by
  unfold strip_last
  constructor
  · intro h
    split at h
    next hlast =>
      obtain ⟨front, rfl⟩ := List.getLast?_eq_some_iff.mp hlast
      rw [List.dropLast_concat] at h
      rw [Option.some.inj h]
    next => cases h
  · rintro rfl
    rw [if_pos List.getLast?_concat, List.dropLast_concat]

/-- An optional start that is stripped if it is there. -/
theorem strip_head_getD (lead text : Str) :
    ∃ here : Bool, text = (if here then lead else []) ++ (strip_head lead text).getD text := by
  cases h : strip_head lead text with
  | none => exact ⟨false, rfl⟩
  | some rest => exact ⟨true, strip_head_eq_some.mp h⟩

theorem toLower_toNat (ch : Char) :
    ch.toLower.toNat = if 0x41 ≤ ch.toNat ∧ ch.toNat ≤ 0x5A then ch.toNat + 0x20 else ch.toNat := by
  have hrange : ('A'.val ≤ ch.val ∧ ch.val ≤ 'Z'.val) ↔ (0x41 ≤ ch.toNat ∧ ch.toNat ≤ 0x5A) := by
    rw [UInt32.le_iff_toNat_le, UInt32.le_iff_toNat_le]
    exact Iff.rfl
  unfold Char.toLower
  split
  next h =>
    rw [if_pos (hrange.mp h)]
    have hbound := (hrange.mp h).2
    change (ch.val + 0x20).toNat = ch.toNat + 0x20
    rw [UInt32.toNat_add]
    exact Nat.mod_eq_of_lt (show ch.toNat + 0x20 < 2 ^ 32 by omega)
  next h => rw [if_neg fun hr => h (hrange.mpr hr)]

theorem is_pure_ext_lowercase {word : Str} (h : is_pure_ext (to_ascii_lowercase word) = true) : is_pure_ext word = true := by
  rw [is_pure_ext_iff] at h ⊢
  refine ⟨fun hnil => h.1 (by rw [hnil]; rfl), fun ch hmem => ?_⟩
  have hlower := is_word_iff.mp (h.2 ch.toLower (List.mem_map_of_mem hmem))
  rw [toLower_toNat] at hlower
  rw [is_word_iff]
  split at hlower <;> omega

/-- The choice that is left between the dot and the end. -/
theorem choice_of_body (body : Str) :
    ∃ tail : RegexTail, body = tail.text ∧ tail.words ≠ [] ∧
      choice_extensions body = tail.words.map to_ascii_lowercase := by
  unfold choice_extensions
  cases hgroup : (strip_head ['('] body).bind (strip_last ')') with
  | none => exact ⟨.single body, rfl, List.cons_ne_nil _ _, rfl⟩
  | some group =>
    obtain ⟨rest, hopen, hclose⟩ := Option.bind_eq_some_iff.mp hgroup
    refine ⟨.group (split '|' group), ?_, split_ne_nil _ _, rfl⟩
    rw [RegexTail.text, join_split, strip_head_eq_some.mp hopen, strip_last_eq_some.mp hclose]
    rfl

/-- What the third rewrite accepts. -/
theorem extract_eq_some {pattern : Str} {exts : List Str} (h : extract_extensions_from_regex pattern = some exts) :
    ∃ flag caret dots tail, pattern = (ExtPattern.regex flag caret dots tail).text ∧
      (ExtPattern.regex flag caret dots tail).Pure ∧ exts = (ExtPattern.regex flag caret dots tail).extensions := by
  obtain ⟨body, hbody, h⟩ := Option.bind_eq_some_iff.mp h
  split at h
  · cases h
  next =>
    obtain ⟨rest, hrest, h⟩ := Option.bind_eq_some_iff.mp h
    obtain ⟨choice, hchoice, h⟩ := Option.bind_eq_some_iff.mp h
    split at h
    next hpure =>
      obtain ⟨flag, hflag⟩ := strip_head_getD ['(', '?', 'i', ')'] body
      obtain ⟨caret, hcaret⟩ := strip_head_getD ['^'] ((strip_head ['(', '?', 'i', ')'] body).getD body)
      obtain ⟨dots, hdots⟩ := strip_head_getD ['.', '*']
        ((strip_head ['^'] ((strip_head ['(', '?', 'i', ')'] body).getD body)).getD
          ((strip_head ['(', '?', 'i', ')'] body).getD body))
      obtain ⟨tail, htail, hne, hwords⟩ := choice_of_body choice
      rw [strip_head_eq_some.mp hrest, strip_last_eq_some.mp hchoice, htail] at hdots
      rw [hdots] at hcaret
      rw [hcaret] at hflag
      refine ⟨flag, caret, dots, tail, ?_, ⟨hne, fun word hword => ?_⟩, (Option.some.inj h).symm.trans hwords⟩
      · rw [strip_head_eq_some.mp hbody, hflag]
        rfl
      · rw [hwords, List.all_map, List.all_eq_true] at hpure
        exact is_pure_ext_lowercase (hpure word hword)
    next => cases h

/-- What the second rewrite accepts. -/
theorem is_pure_ext_glob_iff {pattern : Str} :
    is_pure_ext_glob pattern = true ↔ ∃ ext, pattern = (ExtPattern.glob ext).text ∧ (ExtPattern.glob ext).Pure := by
  unfold is_pure_ext_glob
  constructor
  · intro h
    split at h
    · cases h
    next rest hrest =>
      refine ⟨rest, strip_head_eq_some.mp hrest, List.cons_ne_nil _ _, fun word hword => ?_⟩
      rw [List.mem_singleton.mp hword]
      exact h
  · rintro ⟨ext, rfl, hpure⟩
    have hstrip : strip_head ['*', '.'] (ExtPattern.glob ext).text = some ext := strip_head_eq_some.mpr rfl
    rw [hstrip]
    exact hpure.pure_words ext List.mem_cons_self

/-- A filter that is there already keeps the rewrites away. -/
theorem regex_net_of_extensions {match_path case_sensitive : Bool} {query : Dispatch} (h : query.extensions ≠ []) :
    regex_net match_path case_sensitive query = query := by
  have hempty : query.extensions.isEmpty = false := List.isEmpty_eq_false_iff.mpr h
  rw [regex_net, hempty, Bool.and_false]
  rfl

theorem drive_net_extensions (match_path drives_filter_empty : Bool) (query : Dispatch) :
    (drive_net match_path drives_filter_empty query).extensions = query.extensions := by
  unfold drive_net
  split
  · split
    · rfl
    · rfl
  · rfl

/-- A query that gets an extension filter was, behind its drive letter, one of these patterns. -/
theorem rewritten_pattern {match_path case_sensitive drives_filter_empty : Bool} {query : Dispatch}
    (hnone : query.extensions = [])
    (h : (apply_dispatch_safety_nets match_path case_sensitive drives_filter_empty query).extensions ≠ []) :
    ∃ p : ExtPattern, p.Pure ∧ (drive_net match_path drives_filter_empty query).pattern = p.text ∧
      (apply_dispatch_safety_nets match_path case_sensitive drives_filter_empty query).pattern = ['*'] ∧
      (apply_dispatch_safety_nets match_path case_sensitive drives_filter_empty query).extensions = p.extensions := by
  have hdrive := (drive_net_extensions match_path drives_filter_empty query).trans hnone
  unfold apply_dispatch_safety_nets at h ⊢
  generalize drive_net match_path drives_filter_empty query = stripped at hdrive h ⊢
  by_cases hglob : (!match_path && !case_sensitive && stripped.extensions.isEmpty && is_pure_ext_glob stripped.pattern) = true
  · simp only [Bool.and_eq_true] at hglob
    obtain ⟨ext, htext, hpure⟩ := is_pure_ext_glob_iff.mp hglob.2
    have hstrip : strip_head ['*', '.'] stripped.pattern = some ext := strip_head_eq_some.mpr htext
    have hnet : glob_net match_path case_sensitive stripped =
        { stripped with pattern := ['*'], extensions := [to_ascii_lowercase ext] } := by
      rw [glob_net, if_pos (by simp only [Bool.and_eq_true]; exact hglob), hstrip, hdrive]
      rfl
    rw [hnet, regex_net_of_extensions (List.cons_ne_nil _ _)]
    exact ⟨.glob ext, hpure, htext, rfl, rfl⟩
  · have hnet : glob_net match_path case_sensitive stripped = stripped := if_neg hglob
    rw [hnet] at h ⊢
    unfold regex_net at h ⊢
    split at h
    next hopen =>
      rw [if_pos hopen]
      cases hextract : extract_extensions_from_regex stripped.pattern with
      | none =>
        rw [hextract] at h
        exact absurd hdrive h
      | some exts =>
        obtain ⟨flag, caret, dots, tail, htext, hpure, hexts⟩ := extract_eq_some hextract
        exact ⟨.regex flag caret dots tail, hpure, htext, rfl, by rw [hdrive]; exact hexts⟩
    next => exact absurd hdrive h

end uffs.search
