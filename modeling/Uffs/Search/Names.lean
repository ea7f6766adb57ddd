import Uffs.Lib.Glob
import Uffs.Compact.Index

open uffs.lib uffs.text uffs.compact

namespace uffs.search

/-- Iterative glob matching over bytes: `*` matches any sequence, `?` one byte. -/
def glob_match (text pattern : List UInt8) : Bool :=
  glob.loop 0x2A 0x3F (glob.budget none text pattern + 1) none text pattern

/-- A single pattern: without wildcards a plain substring. -/
def name_matches_single (name pattern : Str) : Bool :=
  if pattern = ['*'] then true
  else if '*' ∉ pattern ∧ '?' ∉ pattern then decide (pattern <:+: name)
  else glob_match (as_bytes name) (as_bytes pattern)

/-- A pattern with `|` is a choice of single patterns. -/
def name_matches (name pattern : Str) : Bool :=
  if name = [] ∨ name = ['.'] then false
  else if pattern = ['*'] then true
  else if '|' ∈ pattern then (split '|' pattern).any (name_matches_single name)
  else name_matches_single name pattern

theorem exists_last_dot {filename : Str} (h : '.' ∈ filename) :
    ∃ before after, filename = before ++ '.' :: after ∧ '.' ∉ after := by
  obtain ⟨after, before, hreverse, hafter⟩ := List.eq_append_cons_of_mem (List.mem_reverse.mpr h)
  refine ⟨before.reverse, after.reverse, ?_, fun hmem => hafter (List.mem_reverse.mp hmem)⟩
  rw [← List.reverse_reverse filename, hreverse, List.reverse_append, List.reverse_cons, List.append_assoc]
  rfl

theorem rsplit_dot_append {before after : Str} (hafter : '.' ∉ after) :
    rsplit_dot (before ++ '.' :: after) = some (before, after) := by
  have htail : ((before ++ '.' :: after).reverse.takeWhile (· ≠ '.')).reverse = after := by
    have hall : ∀ ch ∈ after.reverse, decide (ch ≠ '.') = true := by
      intro ch hmem
      exact decide_eq_true fun heq => hafter (heq ▸ List.mem_reverse.mp hmem)
    rw [List.reverse_append, List.reverse_cons, List.append_assoc, List.takeWhile_append_of_pos hall]
    change (after.reverse ++ []).reverse = after
    rw [List.append_nil, List.reverse_reverse]
  unfold rsplit_dot
  rw [htail, if_pos (List.mem_append_right _ List.mem_cons_self), List.length_append, List.length_cons]
  have hlen : before.length + (after.length + 1) - after.length - 1 = before.length := by omega
  rw [hlen, List.take_left]

/-- The last dot of a name. -/
theorem rsplit_dot_eq_some {filename before after : Str} :
    rsplit_dot filename = some (before, after) ↔ filename = before ++ '.' :: after ∧ '.' ∉ after := by
  constructor
  · intro h
    have hdot : '.' ∈ filename := by
      by_contra hnot
      unfold rsplit_dot at h
      rw [if_neg hnot] at h
      cases h
    obtain ⟨before', after', rfl, hafter⟩ := exists_last_dot hdot
    rw [rsplit_dot_append hafter] at h
    cases h
    exact ⟨rfl, hafter⟩
  · rintro ⟨rfl, hafter⟩
    exact rsplit_dot_append hafter

/-- A run of literals matches itself only. -/
theorem matches_literal_iff {run text : List UInt8} (hrun : ∀ byte ∈ run, byte ≠ 0x2A ∧ byte ≠ 0x3F) :
    glob.Matches 0x2A 0x3F run text ↔ text = run := by
  induction run generalizing text with
  | nil =>
    constructor
    · intro h
      cases h
      rfl
    · rintro rfl
      exact glob.Matches.nil
  | cons byte run ih =>
    obtain ⟨hstar, hany⟩ := hrun byte List.mem_cons_self
    rw [glob.Matches.one_iff hstar]
    have hrest : ∀ b ∈ run, b ≠ 0x2A ∧ b ≠ 0x3F := fun b hb => hrun b (List.mem_cons_of_mem _ hb)
    constructor
    · rintro ⟨c, rest, rfl, hone, h⟩
      rw [hone.resolve_left hany, (ih hrest).mp h]
    · rintro rfl
      exact ⟨byte, run, rfl, Or.inr rfl, (ih hrest).mpr rfl⟩

/-- A star and a run of literals: the text ends in the run. A text that starts with a star is
special, since a star of the text passes for the one of the pattern. -/
theorem glob_match_star_literal {run text : List UInt8} (hrun : ∀ byte ∈ run, byte ≠ 0x2A ∧ byte ≠ 0x3F)
    (hne : run ≠ []) :
    glob_match text (0x2A :: run) = true ↔
      text = 0x2A :: run ∨ (text.head? ≠ some 0x2A ∧ run <:+ text) := by
  have hstar : (0x2A : UInt8) ∉ run := fun hmem => (hrun _ hmem).1 rfl
  have hdiff : (0x3F : UInt8) ≠ 0x2A := by decide
  unfold glob_match
  cases text with
  | nil =>
    rw [glob.loop_none hdiff (Nat.lt_succ_self _) (Or.inl List.not_mem_nil), glob.Matches.text_nil_iff]
    constructor
    · intro h
      obtain ⟨byte, hbyte⟩ := List.exists_mem_of_ne_nil run hne
      exact absurd (h byte (List.mem_cons_of_mem _ hbyte)) (hrun byte hbyte).1
    · rintro (h | ⟨-, hsuffix⟩)
      · cases h
      · exact absurd (List.suffix_nil.mp hsuffix) hne
  | cons c text =>
    by_cases hc : c = 0x2A
    · subst hc
      have hstep : glob.loop 0x2A 0x3F (glob.budget none (0x2A :: text) (0x2A :: run) + 1) none (0x2A :: text) (0x2A :: run) =
          glob.loop 0x2A 0x3F (glob.budget none (0x2A :: text) (0x2A :: run)) none text run := by
        rw [glob.loop]
        exact if_pos (Or.inr rfl)
      have hbudget : glob.budget none text run < glob.budget none (0x2A :: text) (0x2A :: run) := by
        simp only [glob.budget, List.length_cons]
        have hmul : text.length * (run.length + 2) ≤ (text.length + 1) * (run.length + 1 + 2) :=
          Nat.mul_le_mul (by omega) (by omega)
        omega
      rw [hstep, glob.loop_none hdiff hbudget (Or.inr hstar), matches_literal_iff hrun]
      constructor
      · rintro rfl
        exact Or.inl rfl
      · rintro (h | ⟨hhead, -⟩)
        · exact (List.cons.inj h).2
        · exact absurd rfl hhead
    · have hstep : glob.loop 0x2A 0x3F (glob.budget none (c :: text) (0x2A :: run) + 1) none (c :: text) (0x2A :: run) =
          glob.loop 0x2A 0x3F (glob.budget none (c :: text) (0x2A :: run)) (some (run, c :: text)) (c :: text) run := by
        rw [glob.loop]
        rw [if_neg (by rintro (h | h); exacts [hdiff h.symm, hc h.symm]), if_pos rfl]
      have hbudget : glob.budget (some (run, c :: text)) (c :: text) run < glob.budget none (c :: text) (0x2A :: run) := by
        simp only [glob.budget, List.length_cons]
        have hmul : (text.length + 1) * (run.length + 2) ≤ (text.length + 1) * (run.length + 1 + 2) :=
          Nat.mul_le_mul_left _ (by omega)
        omega
      rw [hstep, @glob.loop_some _ _ _ _ hdiff _ run (c :: text) [] [] (c :: text) run hbudget rfl rfl List.Forall₂.nil
        (Or.inr hstar), glob.Matches.star_iff]
      constructor
      · rintro ⟨skipped, rest, htext, hrest⟩
        rw [matches_literal_iff hrun] at hrest
        refine Or.inr ⟨fun h => hc (Option.some.inj h), skipped, ?_⟩
        rw [htext, hrest]
      · rintro (h | ⟨-, skipped, htext⟩)
        · exact absurd (List.cons.inj h).1 hc
        · exact ⟨skipped, run, htext.symm, (matches_literal_iff hrun).mpr rfl⟩

/-- The bytes of a text without wildcards are literals. -/
theorem as_bytes_literal {run : Str} (hstar : '*' ∉ run) (hany : '?' ∉ run) :
    ∀ byte ∈ as_bytes run, byte ≠ 0x2A ∧ byte ≠ 0x3F := by
  intro byte hbyte
  constructor
  · rintro rfl
    exact hstar (@mem_of_ascii_byte run '*' (by decide) hbyte)
  · rintro rfl
    exact hany (@mem_of_ascii_byte run '?' (by decide) hbyte)

/-- A run of literals and a star: the name starts with the run, and if a star follows it there, the
name ends with that star. -/
theorem name_matches_single_run_star {run name : Str} (hne : run ≠ []) (hstar : '*' ∉ run) (hany : '?' ∉ run) :
    name_matches_single name (run ++ ['*']) = true ↔
      run <+: name ∧ ∀ ch rest, name ≠ run ++ '*' :: ch :: rest := by
  have hrun := as_bytes_literal hstar hany
  have hpattern : run ++ ['*'] ≠ ['*'] := by
    intro h
    have hlen := congrArg List.length h
    rw [List.length_append, List.length_singleton] at hlen
    exact hne (List.length_eq_zero_iff.mp (by omega))
  have hbytes : as_bytes (run ++ ['*']) = as_bytes run ++ [0x2A] := as_bytes_append _ _
  rw [name_matches_single, if_neg hpattern, if_neg fun h => h.1 (List.mem_append_right _ List.mem_cons_self), glob_match, hbytes,
    glob.loop_run_star (by decide) hrun (Nat.lt_succ_self _), as_bytes_prefix_iff]
  apply and_congr_right
  intro _
  constructor
  · rintro h ch rest rfl
    obtain ⟨byte, bytes, hch⟩ := List.exists_cons_of_ne_nil (@String.utf8EncodeChar_ne_nil ch)
    apply h byte (bytes ++ as_bytes rest)
    rw [as_bytes_append, as_bytes_cons, as_bytes_cons, hch]
    rfl
  · intro h byte bytes hbytes'
    have hhead : as_bytes (run ++ ['*']) <+: as_bytes name := by
      rw [hbytes, hbytes']
      exact ⟨byte :: bytes, by simp⟩
    obtain ⟨back, rfl⟩ := as_bytes_prefix_iff.mp hhead
    cases back with
    | nil =>
      have hlen := congrArg List.length hbytes'
      rw [List.append_nil, hbytes] at hlen
      simp at hlen
    | cons ch rest => exact h ch rest (by rw [List.append_assoc]; rfl)

/-- A character of a pure extension: an ASCII letter, a digit or an underscore. -/
def is_word (ch : Char) : Bool := ch.isAlphanum || ch = '_'

theorem is_word_iff {ch : Char} :
    is_word ch = true ↔ (0x41 ≤ ch.toNat ∧ ch.toNat ≤ 0x5A) ∨ (0x61 ≤ ch.toNat ∧ ch.toNat ≤ 0x7A) ∨
      (0x30 ≤ ch.toNat ∧ ch.toNat ≤ 0x39) ∨ ch.toNat = 0x5F := by
  have hunder : ch = '_' ↔ ch.toNat = 0x5F := Char.toNat_inj.symm
  have halnum : ch.isAlphanum = (decide (65 ≤ ch.val ∧ ch.val ≤ 90) ||
      decide (97 ≤ ch.val) && decide (ch.val ≤ 122) || decide (48 ≤ ch.val) && decide (ch.val ≤ 57)) := rfl
  simp only [is_word, halnum, Bool.or_eq_true, Bool.and_eq_true, decide_eq_true_eq, hunder, UInt32.le_iff_toNat_le, or_assoc]
  rfl

theorem is_word_ascii {ch : Char} (h : is_word ch = true) : ch.toNat < 0x80 := by
  have hrange := is_word_iff.mp h
  omega

/-- A character that no word has. -/
theorem not_is_word_ne {ch special : Char} (h : is_word ch = true) (hspecial : is_word special = false) : ch ≠ special := by
  rintro rfl
  rw [h] at hspecial
  cases hspecial

/-- A star, a dot and a word: the name ends in the dot and the word. -/
theorem name_matches_ext_glob {name ext : Str} (hne : ext ≠ []) (hword : ∀ ch ∈ ext, is_word ch = true) :
    name_matches name ('*' :: '.' :: ext) = true ↔
      name = '*' :: '.' :: ext ∨ (name.head? ≠ some '*' ∧ '.' :: ext <:+ name) := by
  have hascii : ∀ ch ∈ '.' :: ext, ch.toNat < 0x80 := by
    intro ch hmem
    cases List.mem_cons.mp hmem with
    | inl h => rw [h]; decide
    | inr h => exact is_word_ascii (hword ch h)
  have hplain : ∀ ch, is_word ch = false → ch ≠ '.' → ch ∉ '.' :: ext := by
    intro ch hch hdot hmem
    have hext := (List.mem_cons.mp hmem).resolve_left hdot
    exact Bool.false_ne_true (hch.symm.trans (hword ch hext))
  have hrun := as_bytes_literal (hplain '*' (by decide) (by decide)) (hplain '?' (by decide) (by decide))
  have hrunNe : as_bytes ('.' :: ext) ≠ [] := by
    rw [Ne, as_bytes_eq_nil]
    exact List.cons_ne_nil _ _
  have hbytes : as_bytes ('*' :: '.' :: ext) = 0x2A :: as_bytes ('.' :: ext) := rfl
  have hglob : glob_match (as_bytes name) (as_bytes ('*' :: '.' :: ext)) = true ↔
      name = '*' :: '.' :: ext ∨ (name.head? ≠ some '*' ∧ '.' :: ext <:+ name) := by
    rw [hbytes, glob_match_star_literal hrun hrunNe, ← hbytes, as_bytes_suffix_iff hascii]
    have hhead : (as_bytes name).head? = some 0x2A ↔ name.head? = some '*' :=
      @head?_as_bytes_iff name '*' (by decide)
    rw [Ne, hhead]
    exact or_congr_left ⟨as_bytes_injective, congrArg as_bytes⟩
  have hbar : '|' ∉ '*' :: '.' :: ext := by
    simp only [List.mem_cons, not_or]
    exact ⟨by decide, by decide, fun h => not_is_word_ne (hword _ h) rfl rfl⟩
  have hpattern : ('*' :: '.' :: ext : Str) ≠ ['*'] := by
    intro h
    cases h
  have hsingle : name_matches_single name ('*' :: '.' :: ext) = glob_match (as_bytes name) (as_bytes ('*' :: '.' :: ext)) := by
    rw [name_matches_single, if_neg hpattern, if_neg fun h => h.1 List.mem_cons_self]
  rw [name_matches, if_neg hpattern, if_neg hbar, hsingle]
  split
  next hempty =>
    constructor
    · intro h
      cases h
    · intro h
      exfalso
      have hlen : 2 ≤ name.length := by
        have hpos := List.length_pos_iff.mpr hne
        rcases h with rfl | ⟨-, hsuffix⟩
        · simp
        · have hle := hsuffix.length_le
          rw [List.length_cons] at hle
          omega
      rcases hempty with rfl | rfl
      · exact absurd hlen (by decide)
      · exact absurd hlen (by decide)
  next => exact hglob

end uffs.search
