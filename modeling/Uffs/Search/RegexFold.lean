import Uffs.Lib.RegexText
import Uffs.Search.ExtFilter

open uffs.lib uffs.text

namespace uffs.search

/-- The documented meaning of a case-insensitive regex: a literal stands for all its case variants, so
that the literals of a text may be written in any case. -/
def RegexEngine.CaseInsensitive (engine : RegexEngine) : Prop :=
  ∀ text text', regex.Recased engine.ci_eq text text' →
    Option.Rel (fun is_match is_match' => ∀ name, is_match name = is_match' name) (engine.build text) (engine.build text')

/-- A name matches a regex, taken case-insensitively; a text that is no regex matches nothing. -/
def regex_accepts (engine : RegexEngine) (pattern name : Str) : Bool := (engine.build pattern).any fun is_match => is_match name

/-- One folded character; one that is no character is kept here. -/
def fold_kept (fold : CaseFold) (ch : Char) : Char := (fold.folded_char ch).getD ch

/-- Folding the characters of a regex changes nothing but the case of its literals: no character is lost,
none of its syntax has another case, a folded literal is a variant of the literal, ranges have the
same variants, and group names stay apart. -/
def FoldsCleanly (engine : RegexEngine) (fold : CaseFold) (pattern : Str) : Prop :=
  (∀ ch ∈ pattern, (fold.folded_char ch).isSome = true) ∧
    ∃ list, regex.roles {} pattern = some list ∧ regex.Recases engine.ci_eq list pattern (pattern.map (fold_kept fold))

theorem punctuation_uncased : ∀ p ∈ regex.punctuation,
    p.toNat < 0x80 ∧ ¬ (0x41 ≤ p.toNat ∧ p.toNat ≤ 0x5A) ∧ ¬ (0x61 ≤ p.toNat ∧ p.toNat ≤ 0x7A) := by
  have hall : (regex.punctuation.all fun p =>
      decide (p.toNat < 0x80 ∧ ¬ (0x41 ≤ p.toNat ∧ p.toNat ≤ 0x5A) ∧ ¬ (0x61 ≤ p.toNat ∧ p.toNat ≤ 0x7A))) = true := by
    decide
  exact fun p hmem => of_decide_eq_true (List.all_eq_true.mp hall p hmem)

variable {fold : CaseFold}

theorem fold_kept_ascii (hfold : fold.Upcase) {ch : Char} (hascii : ch.toNat < 0x80) :
    (fold_kept fold ch).toNat = ascii_upper ch.toNat := by
  rw [fold_kept, hfold.folded_char_ascii hascii, Option.getD_some]
  exact upper_char_toNat hascii

/-- What folds to an ASCII character is that character, or its small letter. -/
theorem fold_kept_of_ascii (hfold : fold.Upcase) {ch : Char} (hascii : (fold_kept fold ch).toNat < 0x80) :
    (fold_kept fold ch).toNat = ascii_upper ch.toNat := by
  apply fold_kept_ascii hfold
  cases hfolded : fold.folded_char ch with
  | none => rwa [fold_kept, hfolded, Option.getD_none] at hascii
  | some folded =>
    rw [fold_kept, hfolded, Option.getD_some] at hascii
    exact hfold.ascii_of_folded hfolded hascii

/-- Folding keeps punctuation, and makes none. -/
theorem fold_kept_punctuation (hfold : fold.Upcase) : regex.KeepsPunctuation (fold_kept fold) := by
  intro p hp ch
  obtain ⟨hascii, hupper, hlower⟩ := punctuation_uncased p hp
  constructor
  · intro heq
    have hnat := fold_kept_of_ascii hfold (heq ▸ hascii)
    rw [heq] at hnat
    apply Char.toNat_inj.mp
    unfold ascii_upper at hnat
    split at hnat <;> omega
  · rintro rfl
    apply Char.toNat_inj.mp
    rw [fold_kept_ascii hfold hascii]
    exact if_neg hlower

theorem class_letters {body : Str} (hbody : body ∈ regex.ascii_classes) {ch : Char} (hch : ch ∈ body) :
    ch ∈ regex.punctuation ∨ 0x61 ≤ ch.toNat ∧ ch.toNat ≤ 0x7A := by
  have hall : (regex.ascii_classes.all fun body => body.all fun ch =>
      regex.punctuation.contains ch || (Nat.ble 0x61 ch.toNat && Nat.ble ch.toNat 0x7A)) = true := by
    decide +kernel
  simpa using List.all_eq_true.mp (List.all_eq_true.mp hall body hbody) ch hch

/-- Folding makes no small letters, so no class by name. -/
theorem fold_kept_makes_no_class (hfold : fold.Upcase) : regex.MakesNoClass (fold_kept fold) := by
  intro ch hmem
  obtain ⟨body, hbody, hletter⟩ := List.mem_flatten.mp hmem
  rcases class_letters hbody hletter with hpunct | hletter
  · exact ((fold_kept_punctuation hfold _ hpunct ch).mp rfl).symm
  · have hnat := @fold_kept_of_ascii fold hfold ch (by omega)
    unfold ascii_upper at hnat
    split at hnat <;> omega

theorem fold_needle_eq_map (hfold : fold.Upcase) {pattern : Str}
    (hkept : ∀ ch ∈ pattern, (fold.folded_char ch).isSome = true) :
    fold_needle fold pattern = pattern.map (fold_kept fold) := by
  rw [fold_needle, hfold.fold_into_eq]
  induction pattern with
  | nil => rfl
  | cons ch pattern ih =>
    obtain ⟨folded, hfolded⟩ := Option.isSome_iff_exists.mp (hkept ch List.mem_cons_self)
    rw [List.filterMap_cons_some hfolded, ih fun c hc => hkept c (List.mem_cons_of_mem _ hc), List.map_cons, fold_kept,
      hfolded, Option.getD_some]

/-- A pattern that folds cleanly is only written in another case. -/
theorem FoldsCleanly.recased {engine : RegexEngine} (hfold : fold.Upcase) {pattern : Str}
    (h : FoldsCleanly engine fold pattern) : regex.Recased engine.ci_eq pattern (fold_needle fold pattern) := by
  obtain ⟨hkept, list, hroles, hrecases⟩ := h
  rw [fold_needle_eq_map hfold hkept]
  exact regex.recased_map (fold_kept_punctuation hfold) (fold_kept_makes_no_class hfold) hroles hrecases

/-- The match of a name against a regex query: the folded needle without its mark. -/
theorem original_matches_regex (engine : RegexEngine) (hfold : fold.Upcase) {pattern : Str} (hne : pattern ≠ []) (name : Str) :
    original_matches engine fold ('>' :: pattern) name =
      (!name.isEmpty && regex_accepts engine (fold_needle fold pattern) name) := by
  have hregex : ('>' :: pattern).head? = some '>' ∧ 1 < (as_bytes ('>' :: pattern)).length := by
    refine ⟨rfl, ?_⟩
    have hpos : 0 < (as_bytes pattern).length := by
      rwa [List.length_pos_iff, Ne, as_bytes_eq_nil]
    exact Nat.succ_lt_succ hpos
  have hmark : fold_needle fold ('>' :: pattern) = '>' :: fold_needle fold pattern := by
    have hascii := @CaseFold.Upcase.fold_into_ascii fold hfold ['>'] (List.forall_mem_singleton.mpr (by decide))
    exact (hfold.fold_into_append ['>'] pattern).trans (congrArg (· ++ _) hascii)
  unfold original_matches
  rw [if_pos hregex, hmark, @strip_head_eq_some ['>'] ('>' :: fold_needle fold pattern) (fold_needle fold pattern) |>.mpr rfl,
    Option.getD_some, regex_accepts]
  cases engine.build (fold_needle fold pattern) with
  | none => simp
  | some is_match => rfl

/-- Where folding changes only the case of literals, the needle keeps all of the syntax of the regex,
escapes included, and matches what the regex matches. -/
theorem folded_regex_agrees {engine : RegexEngine} (hengine : engine.CaseInsensitive) {fold : CaseFold} (hfold : fold.Upcase)
    {pattern : Str} (hne : pattern ≠ []) (hclean : FoldsCleanly engine fold pattern) :
    regex.skeleton (fold_needle fold pattern) = regex.skeleton pattern ∧
      ∀ name, original_matches engine fold ('>' :: pattern) name = (!name.isEmpty && regex_accepts engine pattern name) := by
  have hrecased := hclean.recased hfold
  refine ⟨hrecased.skeleton_eq, fun name => ?_⟩
  rw [original_matches_regex engine hfold hne, regex_accepts, regex_accepts]
  have hrel := hengine pattern (fold_needle fold pattern) hrecased
  generalize engine.build pattern = original, engine.build (fold_needle fold pattern) = folded at hrel
  cases hrel with
  | none => rfl
  | some hsame => rw [Option.any_some, Option.any_some, hsame name]

theorem upper_char_eq_toUpper (c : Char) : upper_char c = c.toUpper := by
  have hle : ('a'.val ≤ c.val ∧ c.val ≤ 'z'.val) ↔ 0x61 ≤ c.toNat ∧ c.toNat ≤ 0x7A :=
    and_congr UInt32.le_iff_toNat_le UInt32.le_iff_toNat_le
  apply Char.toNat_inj.mp
  unfold upper_char ascii_upper Char.toUpper
  by_cases h : 0x61 ≤ c.toNat ∧ c.toNat ≤ 0x7A
  · rw [if_pos h, dif_pos (hle.mpr h), toNat_ofNat_of_valid (isValidChar_of_lt (by omega))]
    change _ = (c.val + ('A'.val - 'a'.val)).toNat
    rw [UInt32.toNat_add]
    change _ = (c.toNat + 4294967264) % 2 ^ 32
    omega
  · rw [if_neg h, dif_neg fun hc => h (hle.mp hc), Char.ofNat_toNat]

/-- Letters in another case. -/
def letters_eq (ch literal : Char) : Bool := upper_char ch == upper_char literal

/-- A regex library that goes by the syntax of a text and by its letters, and knows digits, what is no
digit, and two letters with a dot between. -/
def letters_engine : RegexEngine where
  build text :=
    let reads (pattern : String) : Bool := text.map upper_char == pattern.toList.map upper_char &&
      regex.skeleton text == regex.skeleton pattern.toList
    if reads "\\d" then some fun name => name.any Char.isDigit
    else if reads "\\D" then some fun name => name.any fun ch => !ch.isDigit
    else if reads "[ab]\\.c" then
      some fun name => decide ("A.C".toList <:+: name.map upper_char) || decide ("B.C".toList <:+: name.map upper_char)
    else none
  ci_eq := letters_eq

theorem upper_eq_of_chars {text text' : Str} {list : List regex.Role} (hlen : text.length = text'.length)
    (h : List.Forall₂ (fun pair role => regex.SameIn letters_eq role pair.1 pair.2) (text.zip text') list) :
    text.map upper_char = text'.map upper_char := by
  induction text generalizing text' list with
  | nil => rw [List.length_eq_zero_iff.mp hlen.symm]
  | cons c text ih =>
    obtain ⟨c', text', rfl⟩ := List.exists_cons_of_length_eq_add_one hlen.symm
    rw [List.zip_cons_cons] at h
    obtain ⟨role, list, hsame, hrest, rfl⟩ := List.forall₂_cons_left_iff.mp h
    rw [List.map_cons, List.map_cons, ih (Nat.succ.inj hlen) hrest]
    congr 1
    cases role with
    | syn | dash => exact congrArg upper_char (show c = c' from hsame)
    | payload =>
      rw [upper_char_eq_toUpper, upper_char_eq_toUpper]
      exact hsame
    | literal | item | high | name => exact beq_iff_eq.mp (show letters_eq c c' = true from hsame)

theorem letters_engine_caseInsensitive : letters_engine.CaseInsensitive := by
  intro text text' hrecased
  have hskeleton := hrecased.skeleton_eq
  obtain ⟨list, hroles, hroles', h⟩ := hrecased
  have hlen := (regex.roles_length hroles).symm.trans (regex.roles_length hroles')
  have hbuild : letters_engine.build text = letters_engine.build text' := by
    simp only [letters_engine, upper_eq_of_chars hlen h.chars, hskeleton]
  rw [hbuild]
  cases letters_engine.build text' with
  | none => exact Option.Rel.none
  | some is_match => exact Option.Rel.some fun _ => rfl

/-- A class, an escape and a letter behind them. -/
theorem folded_regex_agrees_letters :
    regex.skeleton (fold_needle sample_fold "[ab]\\.c".toList) = regex.skeleton "[ab]\\.c".toList ∧
      ∀ name, original_matches letters_engine sample_fold ('>' :: "[ab]\\.c".toList) name =
        (!name.isEmpty && regex_accepts letters_engine "[ab]\\.c".toList name) := by
  apply folded_regex_agrees letters_engine_caseInsensitive sample_fold_upcase (by decide)
  have hkept : ("[ab]\\.c".toList.all fun ch => (sample_fold.folded_char ch).isSome) = true := by decide
  refine ⟨List.all_eq_true.mp hkept, [.syn, .item, .item, .syn, .syn, .syn, .literal], by decide, ?_⟩
  have hfolded : "[ab]\\.c".toList.map (fold_kept sample_fold) = "[AB]\\.C".toList := by decide
  rw [hfolded]
  exact ⟨by simp [regex.SameIn, letters_engine, letters_eq]; decide, by simp [regex.ranges], by simp [regex.group_names]⟩

/-- The needle for a digit asks for anything else. -/
theorem folded_digit_class : letters_engine.CaseInsensitive ∧
    original_matches letters_engine sample_fold ['>', '\\', 'd'] ['1'] = false ∧
      regex_accepts letters_engine ['\\', 'd'] ['1'] = true := by
  exact ⟨letters_engine_caseInsensitive, by decide, by decide⟩

end uffs.search
