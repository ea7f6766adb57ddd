import Uffs.Search.Dispatch

open uffs.lib uffs.text uffs.compact

namespace uffs.search

/-- The regex library: a case-insensitive regex compiled from its text, if the text is one, and
its comparison of a character with a literal. -/
structure RegexEngine where
  build : Str → Option (Str → Bool)
  ci_eq : Char → Char → Bool

/-- What may stand before the dot of a trailing extension. -/
def Leads (caret dots : Bool) (before : Str) : Prop :=
  caret = true → if dots then '\n' ∉ before else before = []

/-- A segment is a literal up to case. -/
def RegexEngine.Literal (engine : RegexEngine) (segment word : Str) : Prop :=
  List.Forall₂ (fun ch literal => engine.ci_eq ch literal = true) segment word

def RegexTail.Pure (tail : RegexTail) : Prop := tail.words ≠ [] ∧ ∀ word ∈ tail.words, is_pure_ext word = true

/-- The documented meaning of the regexes at hand: the match is unanchored unless `^` stands
first, `.` is any character but a newline, `$` is the end of the text, the choice is literal, and
an unknown flag is an error. -/
structure RegexEngine.Documented (engine : RegexEngine) : Prop where
  trailing : ∀ caret dots tail, RegexTail.Pure tail →
    ∃ is_match, engine.build (regex_text caret dots tail) = some is_match ∧
      ∀ text, is_match text = true ↔ ∃ before segment, text = before ++ '.' :: segment ∧ Leads caret dots before ∧
        ∃ word ∈ tail.words, engine.Literal segment word
  unknown_flag : ∀ rest, engine.build (['(', '?', 'I', ')'] ++ rest) = none
  word_ne_dot : ∀ ch, is_word ch = true → engine.ci_eq '.' ch = false

/-- The needle of a case-insensitive query. -/
def fold_needle (fold : CaseFold) (pattern : Str) : Str := fold.fold_into pattern

/-- The match of a name against a pattern that no rewrite has touched. -/
def original_matches (engine : RegexEngine) (fold : CaseFold) (pattern name : Str) : Bool :=
  let needle := fold_needle fold pattern
  if pattern.head? = some '>' ∧ 1 < (as_bytes pattern).length then
    match engine.build ((strip_head ['>'] needle).getD needle) with
    | none => false
    | some is_match => !name.isEmpty && is_match name
  else name_matches (fold.fold_into name) needle

/-- The choice of a regex in upper case, as the folded needle has it. -/
def RegexTail.upper : RegexTail → RegexTail
  | .single word => .single (word.map upper_char)
  | .group words => .group (words.map (List.map upper_char))

/-- Whether a pattern accepts a name that is split at its last dot. -/
def ExtPattern.Accepts (engine : RegexEngine) (fold : CaseFold) : ExtPattern → Str → Str → Prop
  | .glob ext, before, segment =>
    fold.fold_into segment = fold.fold_into ext ∧
      ((fold.fold_into before).head? = some '*' → fold.fold_into before = ['*'])
  | .regex flag caret dots tail, before, segment =>
    flag = false ∧ Leads caret dots before ∧ ∃ word ∈ tail.upper.words, engine.Literal segment word

theorem RegexTail.words_upper (tail : RegexTail) : tail.upper.words = tail.words.map (List.map upper_char) := by
  cases tail with
  | single word => rfl
  | group words => rfl

theorem is_word_upper {ch : Char} (h : is_word ch = true) : is_word (upper_char ch) = true := by
  have hascii := is_word_ascii h
  have hrange := is_word_iff.mp h
  rw [is_word_iff, upper_char_toNat hascii]
  unfold ascii_upper
  split <;> omega

theorem is_pure_ext_upper {word : Str} (h : is_pure_ext word = true) : is_pure_ext (word.map upper_char) = true := by
  rw [is_pure_ext_iff] at h ⊢
  refine ⟨fun hnil => h.1 (List.map_eq_nil_iff.mp hnil), fun ch hmem => ?_⟩
  obtain ⟨source, hsource, rfl⟩ := List.mem_map.mp hmem
  exact is_word_upper (h.2 source hsource)

variable {tail : RegexTail} {fold : CaseFold}

theorem RegexTail.pure_upper (h : tail.Pure) : tail.upper.Pure := by
  rw [RegexTail.Pure, RegexTail.words_upper]
  refine ⟨fun hnil => h.1 (List.map_eq_nil_iff.mp hnil), fun word hmem => ?_⟩
  obtain ⟨source, hsource, rfl⟩ := List.mem_map.mp hmem
  exact is_pure_ext_upper (h.2 source hsource)

theorem map_join (f : Char → Char) (sep : Char) (pieces : List Str) :
    (join sep pieces).map f = join (f sep) (pieces.map (List.map f)) := by
  induction pieces using join.induct with
  | case1 => rfl
  | case2 piece => rfl
  | case3 piece pieces hnil ih =>
    obtain ⟨next, rest, rfl⟩ := List.exists_cons_of_ne_nil hnil
    rw [join, List.map_append, List.map_cons, ih]
    · rfl
    · exact hnil

theorem RegexTail.text_upper (tail : RegexTail) : tail.text.map upper_char = tail.upper.text := by
  cases tail with
  | single word => rfl
  | group words =>
    have hbar : upper_char '|' = '|' := by decide
    rw [RegexTail.text, RegexTail.upper, RegexTail.text, List.cons_append, List.map_cons, List.map_append, map_join, hbar]
    rfl

theorem regex_text_upper (caret dots : Bool) (tail : RegexTail) :
    (regex_text caret dots tail).map upper_char = regex_text caret dots tail.upper := by
  simp only [regex_text, List.map_append, RegexTail.text_upper]
  cases caret <;> cases dots <;> rfl

/-- Two splits at the last dot are the same. -/
theorem last_dot_inj {before after before' after' : Str} (h : before ++ '.' :: after = before' ++ '.' :: after')
    (hafter : '.' ∉ after) (hafter' : '.' ∉ after') : before = before' ∧ after = after' := by
  have hsplit := @rsplit_dot_append before after hafter
  rw [h, rsplit_dot_append hafter'] at hsplit
  have hpair := Option.some.inj hsplit
  exact ⟨(congrArg Prod.fst hpair).symm, (congrArg Prod.snd hpair).symm⟩

theorem word_not_dot {word : Str} (h : ∀ ch ∈ word, is_word ch = true) : '.' ∉ word :=
  fun hmem => not_is_word_ne (h _ hmem) rfl rfl

/-- A glob matches the names whose last segment is its extension. -/
theorem glob_matches_iff (hfold : fold.Upcase) {ext : Str} (hne : ext ≠ []) (hword : ∀ ch ∈ ext, is_word ch = true)
    (name : Str) :
    name_matches (fold.fold_into name) (fold_needle fold ('*' :: '.' :: ext)) = true ↔
      ∃ before segment, rsplit_dot name = some (before, segment) ∧
        fold.fold_into segment = fold.fold_into ext ∧
        ((fold.fold_into before).head? = some '*' → fold.fold_into before = ['*']) := by
  have hneedle : fold_needle fold ('*' :: '.' :: ext) = '*' :: '.' :: ext.map upper_char := by
    rw [fold_needle, hfold.fold_into_ascii]
    · rfl
    · intro ch hmem
      simp only [List.mem_cons] at hmem
      rcases hmem with rfl | rfl | hmem
      · decide
      · decide
      · exact is_word_ascii (hword ch hmem)
  have hext : fold.fold_into ext = ext.map upper_char := hfold.fold_into_ascii fun ch hmem => is_word_ascii (hword ch hmem)
  have hupper : ∀ ch ∈ ext.map upper_char, is_word ch = true := by
    intro ch hmem
    obtain ⟨source, hsource, rfl⟩ := List.mem_map.mp hmem
    exact is_word_upper (hword source hsource)
  have hupperDot := word_not_dot hupper
  rw [hneedle, hext, name_matches_ext_glob (fun hnil => hne (List.map_eq_nil_iff.mp hnil)) hupper]
  have hdot : fold.fold_into ['.'] = ['.'] := by
    rw [hfold.fold_into_ascii (List.forall_mem_singleton.mpr (by decide))]
    rfl
  -- The folded name split at its last dot.
  have hfolded : ∀ before segment, rsplit_dot name = some (before, segment) →
      fold.fold_into name = fold.fold_into before ++ '.' :: fold.fold_into segment ∧
        '.' ∉ fold.fold_into segment := by
    intro before segment hsplit
    obtain ⟨rfl, hsegment⟩ := rsplit_dot_eq_some.mp hsplit
    refine ⟨?_, fun hmem => hsegment ((hfold.mem_fold_into_iff (by decide)).mp hmem)⟩
    rw [hfold.fold_into_append, ← List.singleton_append, hfold.fold_into_append, hdot]
    rfl
  constructor
  · intro h
    have hmem : '.' ∈ name := by
      rw [← hfold.mem_fold_into_iff (by decide)]
      rcases h with h | ⟨-, hsuffix⟩
      · rw [h]
        exact List.mem_cons_of_mem _ List.mem_cons_self
      · exact hsuffix.mem List.mem_cons_self
    obtain ⟨before, segment, hname, hsegment⟩ := exists_last_dot hmem
    have hsplit : rsplit_dot name = some (before, segment) := rsplit_dot_eq_some.mpr ⟨hname, hsegment⟩
    obtain ⟨hsplitFold, hsegmentFold⟩ := hfolded before segment hsplit
    refine ⟨before, segment, hsplit, ?_⟩
    rw [hsplitFold] at h
    rcases h with h | ⟨hhead, front, hfront⟩
    · obtain ⟨hb, hs⟩ := @last_dot_inj _ _ ['*'] _ h hsegmentFold hupperDot
      exact ⟨hs, fun _ => hb⟩
    · obtain ⟨-, hs⟩ := last_dot_inj hfront hupperDot hsegmentFold
      refine ⟨hs.symm, fun hstar => absurd ?_ hhead⟩
      rw [List.head?_append, hstar]
      rfl
  · rintro ⟨before, segment, hsplit, hsegment, hstar⟩
    obtain ⟨hsplitFold, -⟩ := hfolded before segment hsplit
    rw [hsplitFold, hsegment]
    by_cases hhead : (fold.fold_into before).head? = some '*'
    · left
      rw [hstar hhead]
      rfl
    · right
      refine ⟨fun h => hhead ?_, List.suffix_append _ _⟩
      cases hbefore : fold.fold_into before with
      | nil =>
        rw [hbefore] at h
        exact absurd (Option.some.inj h) (by decide)
      | cons ch rest =>
        rw [hbefore] at h
        exact h

/-- A literal has no dot if its word has none. -/
theorem RegexEngine.Documented.literal_not_dot {engine : RegexEngine} (h : engine.Documented) {segment word : Str}
    (hword : ∀ ch ∈ word, is_word ch = true) (hliteral : engine.Literal segment word) : '.' ∉ segment := by
  induction hliteral with
  | nil => exact List.not_mem_nil
  | cons heq _ ih =>
    intro hmem
    cases List.mem_cons.mp hmem with
    | inl hdot =>
      rw [← hdot, h.word_ne_dot _ (hword _ List.mem_cons_self)] at heq
      cases heq
    | inr hmem => exact ih (fun ch hch => hword ch (List.mem_cons_of_mem _ hch)) hmem

theorem mem_join {sep ch : Char} {pieces : List Str} (h : ch ∈ join sep pieces) : ch = sep ∨ ∃ piece ∈ pieces, ch ∈ piece := by
  induction pieces using join.induct with
  | case1 => cases h
  | case2 piece => exact Or.inr ⟨piece, List.mem_cons_self, h⟩
  | case3 piece pieces hnil ih =>
    rw [join] at h
    · cases List.mem_append.mp h with
      | inl h => exact Or.inr ⟨piece, List.mem_cons_self, h⟩
      | inr h =>
        cases List.mem_cons.mp h with
        | inl h => exact Or.inl h
        | inr h =>
          refine (ih h).imp_right ?_
          rintro ⟨piece', hpiece', hch⟩
          exact ⟨piece', List.mem_cons_of_mem _ hpiece', hch⟩
    · exact hnil

theorem regex_text_ascii (caret dots : Bool) (htail : tail.Pure) : ∀ ch ∈ regex_text caret dots tail, ch.toNat < 0x80 := by
  have hwords : ∀ word ∈ tail.words, ∀ ch ∈ word, ch.toNat < 0x80 := fun word hword ch hch =>
    is_word_ascii ((is_pure_ext_iff.mp (htail.2 word hword)).2 ch hch)
  have htext : ∀ ch ∈ tail.text, ch.toNat < 0x80 := by
    cases tail with
    | single word => exact hwords word List.mem_cons_self
    | group words =>
      intro ch hmem
      simp only [RegexTail.text, List.mem_append, List.mem_cons, List.not_mem_nil, or_false] at hmem
      rcases hmem with (rfl | hmem) | rfl
      · decide
      · rcases mem_join hmem with rfl | ⟨piece, hpiece, hch⟩
        · decide
        · exact hwords piece hpiece ch hch
      · decide
  have hliteral : ∀ literal : Str, (literal.all fun ch => decide (ch.toNat < 0x80)) = true →
      ∀ ch ∈ literal, ch.toNat < 0x80 := fun literal h ch hch => of_decide_eq_true (List.all_eq_true.mp h ch hch)
  intro ch hmem
  unfold regex_text at hmem
  simp only [List.mem_append] at hmem
  rcases hmem with hmem | hmem | hmem | hmem | hmem
  · exact hliteral (if caret then ['^'] else []) (by cases caret <;> decide) ch hmem
  · exact hliteral (if dots then ['.', '*'] else []) (by cases dots <;> decide) ch hmem
  · exact hliteral ['\\', '.'] (by decide) ch hmem
  · exact htext ch hmem
  · exact hliteral ['$'] (by decide) ch hmem

/-- The needle of such a regex: upper case, and an unknown flag where there was one. -/
theorem fold_needle_regex (hfold : fold.Upcase) (flag caret dots : Bool) (htail : tail.Pure) :
    fold_needle fold (ExtPattern.regex flag caret dots tail).text =
      '>' :: ((if flag then ['(', '?', 'I', ')'] else []) ++ regex_text caret dots tail.upper) := by
  have htext := regex_text_ascii caret dots htail
  rw [fold_needle, hfold.fold_into_ascii]
  · rw [ExtPattern.text, List.map_cons, List.map_append, regex_text_upper]
    cases flag <;> rfl
  · intro ch hmem
    cases List.mem_cons.mp hmem with
    | inl h => rw [h]; decide
    | inr h =>
      cases List.mem_append.mp h with
      | inl h =>
        cases flag with
        | false => cases h
        | true =>
          simp only [if_true, List.mem_cons, List.not_mem_nil, or_false] at h
          rcases h with rfl | rfl | rfl | rfl <;> decide
      | inr h => exact htext ch h

/-- A regex for a trailing extension matches the names whose last segment is one of its words;
with the flag in its text it does not compile once it is folded. -/
theorem regex_matches_iff {engine : RegexEngine} (hengine : engine.Documented) (hfold : fold.Upcase) {flag caret dots : Bool}
    (htail : tail.Pure) (name : Str) :
    original_matches engine fold (ExtPattern.regex flag caret dots tail).text name = true ↔
      ∃ before segment, rsplit_dot name = some (before, segment) ∧
        (ExtPattern.regex flag caret dots tail).Accepts engine fold before segment := by
  have hregex : (ExtPattern.regex flag caret dots tail).text.head? = some '>' ∧
      1 < (as_bytes (ExtPattern.regex flag caret dots tail).text).length := by
    refine ⟨rfl, ?_⟩
    have hpos : 0 < (as_bytes ((if flag then ['(', '?', 'i', ')'] else []) ++ regex_text caret dots tail)).length := by
      rw [List.length_pos_iff, Ne, as_bytes_eq_nil]
      intro hnil
      cases caret <;> cases dots <;> simp [regex_text] at hnil
    exact Nat.succ_lt_succ hpos
  unfold original_matches
  rw [if_pos hregex, fold_needle_regex hfold flag caret dots htail]
  have hstrip : ∀ body : Str, (strip_head ['>'] ('>' :: body)).getD ('>' :: body) = body := by
    intro body
    rw [@strip_head_eq_some ['>'] ('>' :: body) body |>.mpr rfl, Option.getD_some]
  rw [hstrip]
  cases flag with
  | true =>
    rw [if_pos rfl, hengine.unknown_flag]
    constructor
    · intro h
      cases h
    · rintro ⟨before, segment, -, hflag, -⟩
      cases hflag
  | false =>
    obtain ⟨is_match, hbuild, hmatch⟩ := hengine.trailing caret dots tail.upper (RegexTail.pure_upper htail)
    rw [if_neg Bool.false_ne_true, List.nil_append, hbuild]
    rw [Bool.and_eq_true, hmatch]
    constructor
    · rintro ⟨-, before, segment, hname, hleads, word, hword, hliteral⟩
      have hpure := is_pure_ext_iff.mp ((RegexTail.pure_upper htail).2 word hword)
      have hsegment := hengine.literal_not_dot hpure.2 hliteral
      exact ⟨before, segment, rsplit_dot_eq_some.mpr ⟨hname, hsegment⟩, rfl, hleads, word, hword, hliteral⟩
    · rintro ⟨before, segment, hsplit, -, hleads, hword⟩
      obtain ⟨hname, -⟩ := rsplit_dot_eq_some.mp hsplit
      refine ⟨?_, before, segment, hname, hleads, hword⟩
      rw [hname]
      cases before <;> rfl

/-- A pattern matches the names that it accepts at their last dot. -/
theorem original_matches_iff {engine : RegexEngine} (hengine : engine.Documented) (hfold : fold.Upcase) {p : ExtPattern}
    (hpure : p.Pure) (name : Str) :
    original_matches engine fold p.text name = true ↔
      ∃ before segment, rsplit_dot name = some (before, segment) ∧ p.Accepts engine fold before segment := by
  cases p with
  | glob ext =>
    obtain ⟨hne, hword⟩ := is_pure_ext_iff.mp (hpure.pure_words ext List.mem_cons_self)
    have hglob : ¬ ((ExtPattern.glob ext).text.head? = some '>' ∧ 1 < (as_bytes (ExtPattern.glob ext).text).length) :=
      fun h => absurd (Option.some.inj h.1) (by decide)
    rw [original_matches, if_neg hglob]
    exact glob_matches_iff hfold hne hword name
  | regex flag caret dots tail => exact regex_matches_iff hengine hfold ⟨hpure.ne_nil, hpure.pure_words⟩ name

end uffs.search
