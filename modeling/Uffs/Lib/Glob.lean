import Mathlib.Data.List.Forall2

/-! Wildcard matching over any alphabet, and the loop that backtracks to the last star only. -/

namespace uffs.lib.glob

variable {α : Type} {star any : α}

/-- A star covers any run of symbols, `any` exactly one, every other symbol itself. -/
inductive Matches (star any : α) : List α → List α → Prop where
  | nil : Matches star any [] []
  | star {pattern text : List α} (skipped : List α) (h : Matches star any pattern text) :
      Matches star any (star :: pattern) (skipped ++ text)
  | one {p c : α} {pattern text : List α} (hstar : p ≠ star) (hone : p = any ∨ p = c)
      (h : Matches star any pattern text) : Matches star any (p :: pattern) (c :: text)

/-- A run of symbols without a star lies over a run of the text. -/
def Over (star any : α) : List α → List α → Prop := List.Forall₂ fun p c => p ≠ star ∧ (p = any ∨ p = c)

variable {pattern text run laid : List α}

theorem Matches.star_iff :
    Matches star any (star :: pattern) text ↔ ∃ skipped rest, text = skipped ++ rest ∧ Matches star any pattern rest := by
  constructor
  · intro h
    cases h with
    | star skipped h => exact ⟨skipped, _, rfl, h⟩
    | one hstar => exact absurd rfl hstar
  · rintro ⟨skipped, rest, rfl, h⟩
    exact Matches.star skipped h

theorem Matches.one_iff {p : α} (hp : p ≠ star) :
    Matches star any (p :: pattern) text ↔
      ∃ c rest, text = c :: rest ∧ (p = any ∨ p = c) ∧ Matches star any pattern rest := by
  constructor
  · intro h
    cases h with
    | star => exact absurd rfl hp
    | one _ hone h => exact ⟨_, _, rfl, hone, h⟩
  · rintro ⟨c, rest, rfl, hone, h⟩
    exact Matches.one hp hone h

theorem Matches.text_nil_iff {pattern : List α} : Matches star any pattern [] ↔ ∀ p ∈ pattern, p = star := by
  induction pattern with
  | nil => exact ⟨fun _ p hp => absurd hp List.not_mem_nil, fun _ => Matches.nil⟩
  | cons p pattern ih =>
    by_cases hp : p = star
    · subst hp
      rw [Matches.star_iff]
      constructor
      · rintro ⟨skipped, rest, htext, h⟩ q hq
        obtain ⟨-, rfl⟩ := List.append_eq_nil_iff.mp htext.symm
        cases List.mem_cons.mp hq with
        | inl hq => exact hq
        | inr hq => exact ih.mp h q hq
      · intro h
        exact ⟨[], [], rfl, ih.mpr fun q hq => h q (List.mem_cons_of_mem _ hq)⟩
    · rw [Matches.one_iff hp]
      constructor
      · rintro ⟨c, rest, htext, -⟩
        cases htext
      · intro h
        exact absurd (h p List.mem_cons_self) hp

/-- A pattern in two parts covers a text in two parts. -/
theorem Matches.append_iff {back : List α} : Matches star any (pattern ++ back) text ↔
    ∃ head tail, text = head ++ tail ∧ Matches star any pattern head ∧ Matches star any back tail := by
  constructor
  · intro h
    induction pattern generalizing text with
    | nil => exact ⟨[], text, rfl, .nil, h⟩
    | cons p pattern ih =>
      by_cases hp : p = star
      · subst hp
        obtain ⟨skipped, rest, rfl, hrest⟩ := Matches.star_iff.mp h
        obtain ⟨head, tail, rfl, hhead, htail⟩ := ih hrest
        exact ⟨skipped ++ head, tail, (List.append_assoc ..).symm, .star skipped hhead, htail⟩
      · obtain ⟨c, rest, rfl, hone, hrest⟩ := (Matches.one_iff hp).mp h
        obtain ⟨head, tail, rfl, hhead, htail⟩ := ih hrest
        exact ⟨c :: head, tail, rfl, .one hp hone hhead, htail⟩
  · rintro ⟨head, tail, rfl, hhead, htail⟩
    induction hhead with
    | nil => exact htail
    | star skipped _ ih => exact List.append_assoc .. ▸ .star skipped ih
    | one hstar hone _ ih => exact .one hstar hone ih

/-- A star at the end covers what is left of the text. -/
theorem Matches.concat_star_iff :
    Matches star any (pattern ++ [star]) text ↔ ∃ head, head <+: text ∧ Matches star any pattern head := by
  rw [Matches.append_iff]
  constructor
  · rintro ⟨head, tail, rfl, hhead, -⟩
    exact ⟨head, List.prefix_append head tail, hhead⟩
  · rintro ⟨head, ⟨tail, rfl⟩, hhead⟩
    exact ⟨head, tail, rfl, hhead, Matches.star_iff.mpr ⟨tail, [], (List.append_nil tail).symm, .nil⟩⟩

/-- A run without a star is cut off together with the text it lies over. -/
theorem Over.matches_append (h : Over star any run laid) (hrest : Matches star any pattern text) :
    Matches star any (run ++ pattern) (laid ++ text) := by
  induction h with
  | nil => exact hrest
  | cons hone _ ih => exact Matches.one hone.1 hone.2 ih

section

variable (hover : Over star any run laid)

include hover

theorem Over.matches_split (h : Matches star any (run ++ pattern) text) :
    ∃ before rest, text = before ++ rest ∧ before.length = laid.length ∧ Matches star any pattern rest := by
  induction hover generalizing text with
  | nil => exact ⟨[], text, rfl, rfl, h⟩
  | cons hone _ ih =>
    obtain ⟨c, rest, rfl, -, hrest⟩ := (Matches.one_iff hone.1).mp h
    obtain ⟨before, rest, rfl, hlen, hmatch⟩ := ih hrest
    exact ⟨c :: before, rest, rfl, congrArg (· + 1) hlen, hmatch⟩

/-- After a star, a run without a star may be laid over the text as early as possible. -/
theorem matches_star_run :
    Matches star any (star :: (run ++ star :: pattern)) (laid ++ text) ↔ Matches star any (star :: pattern) text := by
  constructor
  · intro h
    obtain ⟨skipped, behind, htext, hrun⟩ := Matches.star_iff.mp h
    obtain ⟨before, tail, rfl, hlen, htail⟩ := hover.matches_split hrun
    obtain ⟨covered, rest, rfl, hrest⟩ := Matches.star_iff.mp htail
    -- What is left behind the run in the text is part of `text`.
    have hdrop : text = (skipped ++ before ++ (covered ++ rest)).drop laid.length := by
      rw [List.append_assoc, ← htext, List.drop_left]
    have hsplit : text = (skipped ++ before).drop laid.length ++ (covered ++ rest) := by
      rw [hdrop, List.drop_append_of_le_length (by rw [List.length_append]; omega)]
    rw [hsplit, ← List.append_assoc]
    exact Matches.star _ hrest
  · intro h
    exact Matches.star [] (hover.matches_append h)

/-- At the end of the text only stars may be left. -/
theorem matches_star_end {pattern : List α} :
    Matches star any (star :: (run ++ pattern)) laid ↔ ∀ p ∈ pattern, p = star := by
  rw [← @Matches.text_nil_iff _ _ any]
  constructor
  · intro h
    obtain ⟨skipped, behind, htext, hrun⟩ := Matches.star_iff.mp h
    obtain ⟨before, rest, rfl, hlen, hrest⟩ := hover.matches_split hrun
    have hcount := congrArg List.length htext
    rw [List.length_append, List.length_append, hlen] at hcount
    have hnil : rest = [] := List.length_eq_zero_iff.mp (by omega)
    exact hnil ▸ hrest
  · intro h
    have hwhole := hover.matches_append h
    rw [List.append_nil] at hwhole
    exact Matches.star [] hwhole

/-- A symbol that does not fit behind a run moves the star on by one. -/
theorem matches_star_next {pattern : List α} {c : α} {text : List α} (hmiss : ¬ Matches star any pattern (c :: text)) :
    Matches star any (star :: (run ++ pattern)) (laid ++ c :: text) ↔
      Matches star any (star :: (run ++ pattern)) (laid ++ c :: text).tail := by
  constructor
  · intro h
    obtain ⟨skipped, behind, htext, hrun⟩ := Matches.star_iff.mp h
    cases skipped with
    | cons s skipped =>
      rw [htext]
      exact Matches.star skipped hrun
    | nil =>
      obtain ⟨before, rest, hbehind, hlen, hrest⟩ := hover.matches_split hrun
      rw [List.nil_append, hbehind] at htext
      obtain ⟨-, htail⟩ := List.append_inj htext hlen.symm
      exact absurd (htail ▸ hrest) hmiss
  · intro h
    obtain ⟨skipped, behind, htext, hrun⟩ := Matches.star_iff.mp h
    cases laid with
    | nil =>
      rw [List.nil_append, List.tail_cons] at htext
      rw [List.nil_append, htext]
      exact Matches.star (c :: skipped) hrun
    | cons o laid =>
      rw [List.cons_append, List.tail_cons] at htext
      rw [List.cons_append, htext]
      exact Matches.star (o :: skipped) hrun

end

section loop

variable [DecidableEq α]

/-- The loop over what is left of text and pattern. `back` is what was left of both right behind
the last star: the pattern there, and the text from which it is tried. -/
@[grind] def loop (star any : α) : Nat → Option (List α × List α) → List α → List α → Bool
  | 0, _, _, _ => false
  | _ + 1, _, [], pattern => pattern.all (· = star)
  | fuel + 1, back, c :: text, pattern =>
    let resume :=
      match back with
      | none => false
      | some (after_star, star_text) => loop star any fuel (some (after_star, star_text.tail)) star_text.tail after_star
    match pattern with
    | [] => resume
    | p :: pattern =>
      if p = any ∨ p = c then loop star any fuel back text pattern
      else if p = star then loop star any fuel (some (pattern, c :: text)) (c :: text) pattern
      else resume

/-- Iterations that are left at most. -/
@[grind] def budget : Option (List α × List α) → List α → List α → Nat
  | none, text, pattern => text.length * (pattern.length + 2) + pattern.length
  | some (after_star, star_text), _, pattern => star_text.length * (after_star.length + 2) + pattern.length

/-- Behind a star: the loop decides whether the pattern matches from that star on. -/
theorem loop_some (hdiff : any ≠ star) {fuel : Nat} {after_star star_text run laid text pattern : List α}
    (hfuel : budget (some (after_star, star_text)) text pattern < fuel) (hpattern : after_star = run ++ pattern)
    (htext : star_text = laid ++ text) (hover : Over star any run laid) (hclean : star ∉ star_text ∨ star ∉ after_star) :
    loop star any fuel (some (after_star, star_text)) text pattern = true ↔
      Matches star any (star :: after_star) star_text := by
  induction fuel generalizing after_star star_text run laid text pattern with
  | zero => exact absurd hfuel (Nat.not_lt_zero _)
  | succ fuel ih =>
    cases text with
    | nil =>
      rw [loop, hpattern, htext, List.append_nil, matches_star_end hover, List.all_eq_true]
      simp only [decide_eq_true_eq]
    | cons c text =>
      -- The step that moves the star on by one symbol, shared by both kinds of misfit.
      have hresume : ¬ Matches star any pattern (c :: text) →
          (loop star any fuel (some (after_star, star_text.tail)) star_text.tail after_star = true ↔
            Matches star any (star :: after_star) star_text) := by
        intro hmiss
        have hlen : star_text.tail.length + 1 = star_text.length := by
          rw [htext, List.length_tail, List.length_append, List.length_cons]
          omega
        have hnext : budget (some (after_star, star_text.tail)) star_text.tail after_star < fuel := by
          simp only [budget] at hfuel ⊢
          have hmul : star_text.length * (after_star.length + 2) =
              star_text.tail.length * (after_star.length + 2) + (after_star.length + 2) := by
            rw [← hlen, Nat.succ_mul]
          omega
        rw [@ih after_star star_text.tail [] [] star_text.tail after_star hnext rfl rfl List.Forall₂.nil
          (hclean.imp_left fun h hmem => h (List.mem_of_mem_tail hmem))]
        rw [hpattern, htext, matches_star_next hover hmiss]
      cases pattern with
      | nil =>
        rw [loop]
        refine hresume fun h => ?_
        cases h
      | cons p pattern =>
        rw [loop]
        split
        next hone =>
          have hstar : p ≠ star := by
            rintro rfl
            cases hone with
            | inl h => exact hdiff h.symm
            | inr h =>
              subst h
              cases hclean with
              | inl hclean => exact hclean (htext ▸ List.mem_append_right _ List.mem_cons_self)
              | inr hclean => exact hclean (hpattern ▸ List.mem_append_right _ List.mem_cons_self)
          refine @ih _ _ (run ++ [p]) (laid ++ [c]) _ _ ?_ ?_ ?_ ?_ hclean
          · simp only [budget, List.length_cons] at hfuel ⊢
            omega
          · rw [hpattern, List.append_assoc]
            rfl
          · rw [htext, List.append_assoc]
            rfl
          · exact List.rel_append hover (List.Forall₂.cons ⟨hstar, hone⟩ List.Forall₂.nil)
        next hone =>
          split
          next hstar =>
            subst hstar
            have hcleanText : p ∉ star_text :=
              hclean.resolve_right fun h => h (hpattern ▸ List.mem_append_right _ List.mem_cons_self)
            rw [@ih pattern (c :: text) [] [] (c :: text) pattern ?_ rfl rfl List.Forall₂.nil
              (Or.inl fun hmem => hcleanText (htext ▸ List.mem_append_right _ hmem))]
            · rw [hpattern, htext, matches_star_run hover]
            · have hpatternLen : pattern.length + 1 ≤ after_star.length := by
                rw [hpattern, List.length_append, List.length_cons]
                omega
              have htextLen : (c :: text).length ≤ star_text.length := by
                rw [htext, List.length_append]
                omega
              simp only [budget, List.length_cons] at hfuel htextLen ⊢
              have hmul : (text.length + 1) * (pattern.length + 2) ≤ star_text.length * (after_star.length + 2) :=
                Nat.mul_le_mul htextLen (by omega)
              omega
          next hstar =>
            refine hresume fun h => ?_
            obtain ⟨c', rest, hcons, hfit, -⟩ := (Matches.one_iff hstar).mp h
            cases hcons
            exact hone hfit

/-- Before the first star: the loop decides whether the pattern matches. -/
theorem loop_none (hdiff : any ≠ star) {fuel : Nat} {text pattern : List α} (hfuel : budget none text pattern < fuel)
    (hclean : star ∉ text ∨ star ∉ pattern) :
    loop star any fuel none text pattern = true ↔ Matches star any pattern text := by
  induction fuel generalizing text pattern with
  | zero => exact absurd hfuel (Nat.not_lt_zero _)
  | succ fuel ih =>
    cases text with
    | nil =>
      rw [loop, Matches.text_nil_iff, List.all_eq_true]
      simp only [decide_eq_true_eq]
    | cons c text =>
      cases pattern with
      | nil =>
        rw [loop]
        exact ⟨fun h => absurd h Bool.false_ne_true, fun h => by cases h⟩
      | cons p pattern =>
        rw [loop]
        split
        next hone =>
          have hstar : p ≠ star := by
            rintro rfl
            cases hone with
            | inl h => exact hdiff h.symm
            | inr h =>
              subst h
              cases hclean with
              | inl hclean => exact hclean List.mem_cons_self
              | inr hclean => exact hclean List.mem_cons_self
          rw [ih ?_ (hclean.imp (fun h hmem => h (List.mem_cons_of_mem _ hmem))
            fun h hmem => h (List.mem_cons_of_mem _ hmem)), Matches.one_iff hstar]
          · constructor
            · intro h
              exact ⟨c, text, rfl, hone, h⟩
            · rintro ⟨c', rest, hcons, -, h⟩
              cases hcons
              exact h
          · simp only [budget, List.length_cons] at hfuel ⊢
            have hmul : text.length * (pattern.length + 2) ≤ (text.length + 1) * (pattern.length + 1 + 2) :=
              Nat.mul_le_mul (by omega) (by omega)
            omega
        next hone =>
          split
          next hstar =>
            subst hstar
            have hcleanText : p ∉ c :: text := hclean.resolve_right fun h => h List.mem_cons_self
            refine @loop_some _ _ _ _ hdiff _ _ _ [] [] _ _ ?_ rfl rfl List.Forall₂.nil (Or.inl hcleanText)
            simp only [budget, List.length_cons] at hfuel ⊢
            have hmul : (text.length + 1) * (pattern.length + 2) ≤ (text.length + 1) * (pattern.length + 1 + 2) :=
              Nat.mul_le_mul_left _ (by omega)
            omega
          next hstar =>
            rw [Matches.one_iff hstar]
            constructor
            · intro h
              exact absurd h Bool.false_ne_true
            · rintro ⟨c', rest, hcons, hfit, -⟩
              cases hcons
              exact absurd hfit hone

/-- A run of plain symbols and a star: the text starts with the run. A star right behind the run
passes for the one of the pattern, and then nothing may follow it. -/
theorem loop_run_star (hdiff : any ≠ star) {run : List α} (hrun : ∀ p ∈ run, p ≠ star ∧ p ≠ any) {fuel : Nat} {text : List α}
    (hfuel : budget none text (run ++ [star]) < fuel) :
    loop star any fuel none text (run ++ [star]) = true ↔
      run <+: text ∧ ∀ c rest, text ≠ run ++ star :: c :: rest := by
  induction run generalizing fuel text with
  | nil =>
    rw [List.nil_append] at hfuel ⊢
    cases fuel with
    | zero => exact absurd hfuel (Nat.not_lt_zero _)
    | succ fuel =>
      cases text with
      | nil => simp [loop]
      | cons c text =>
        by_cases hc : c = star
        · subst hc
          cases fuel with
          | zero => simp [budget] at hfuel
          | succ fuel =>
            rw [loop, if_pos (Or.inr rfl)]
            cases text with
            | nil => simp [loop]
            | cons d text => simp [loop]
        · rw [loop, if_neg (by rintro (h | h); exacts [hdiff h.symm, hc h.symm]), if_pos rfl]
          have hbudget : budget (some ([], c :: text)) (c :: text) [] < fuel := by
            simp only [budget, List.length_cons, List.length_nil] at hfuel ⊢
            omega
          rw [@loop_some _ _ _ _ hdiff _ [] (c :: text) [] [] (c :: text) [] hbudget rfl rfl List.Forall₂.nil
            (Or.inr List.not_mem_nil), Matches.star_iff]
          constructor
          · intro _
            refine ⟨List.nil_prefix, ?_⟩
            intro d rest h
            exact hc (List.cons.inj h).1
          · intro _
            exact ⟨c :: text, [], (List.append_nil _).symm, Matches.nil⟩
  | cons p run ih =>
    obtain ⟨hstar, hany⟩ := hrun p List.mem_cons_self
    cases fuel with
    | zero => exact absurd hfuel (Nat.not_lt_zero _)
    | succ fuel =>
      cases text with
      | nil => simp [loop, hstar]
      | cons c text =>
        rw [List.cons_append, loop]
        by_cases hp : p = c
        · subst hp
          have hbudget : budget none text (run ++ [star]) < fuel := by
            simp only [budget, List.length_cons, List.length_append, List.length_nil] at hfuel ⊢
            have hmul : text.length * (run.length + (0 + 1) + 2) ≤ (text.length + 1) * (run.length + 1 + (0 + 1) + 2) :=
              Nat.mul_le_mul (by omega) (by omega)
            omega
          rw [if_pos (Or.inr rfl), ih (fun q hq => hrun q (List.mem_cons_of_mem _ hq)) hbudget]
          simp only [List.cons_prefix_cons, true_and, List.cons_append, ne_eq, List.cons.injEq]
        · rw [if_neg (by rintro (h | h); exacts [hany h, hp h]), if_neg hstar]
          constructor
          · intro h
            exact absurd h Bool.false_ne_true
          · rintro ⟨h, -⟩
            exact absurd (List.cons_prefix_cons.mp h).1 hp

end loop

end uffs.lib.glob
