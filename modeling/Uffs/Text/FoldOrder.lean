import Uffs.Lib.PrefixCode
import Uffs.Text.CaseFold

open uffs.lib

namespace uffs.text

/-! The order of texts by their folded characters, beside that of the bytes that are folded. -/

section bytes

theorem compare_byte_cons {m n : Nat} (hle : m ≤ n) (hn : n < 256) {s t : List UInt8} (htail : m = n → compare s t = .lt) :
    compare (UInt8.ofNat m :: s) (UInt8.ofNat n :: t) = .lt := by
  rw [List.compare_cons_cons]
  by_cases heq : m = n
  · rw [heq, Std.ReflOrd.compare_self, htail heq, Ordering.eq_then]
  · have hlt : UInt8.ofNat m < UInt8.ofNat n := by
      rw [UInt8.lt_iff_toNat_lt, UInt8.toNat_ofNat', UInt8.toNat_ofNat']
      omega
    rw [Std.compare_eq_lt.mpr hlt]
    rfl

/-- UTF-8 keeps the order of the characters. -/
theorem compare_utf8_lt {ch other : Char} (hlt : ch.toNat < other.toNat) (front back : List UInt8) :
    compare (String.utf8EncodeChar ch ++ front) (String.utf8EncodeChar other ++ back) = .lt := by
  have hval : ch.val.toNat < other.val.toNat := hlt
  have hmax : other.val.toNat < 0x110000 := by
    have hvalid : other.toNat < 0xD800 ∨ 0xDFFF < other.toNat ∧ other.toNat < 0x110000 := other.valid
    have hsame : other.val.toNat = other.toNat := rfl
    omega
  unfold String.utf8EncodeChar
  dsimp only
  -- A shorter encoding starts with a smaller byte; of two that are as long, the digits decide.
  split_ifs
  all_goals
    repeat refine compare_byte_cons (by omega) (by omega) fun _ => ?_
    omega

theorem utf8_ordered : prefix_code.Ordered String.utf8EncodeChar := by
  intro ch other hne front back
  have hchar : ∀ a b : Char, a.toNat < b.toNat → compare a b = .lt := fun a b hlt => if_pos hlt
  rcases Nat.lt_trichotomy ch.toNat other.toNat with hlt | heq | hlt
  · rw [compare_utf8_lt hlt, hchar _ _ hlt]
  · exact absurd (Char.toNat_inj.mp heq) hne
  · rw [cmp_flip compare _ (String.utf8EncodeChar ch ++ front), cmp_flip compare _ ch, compare_utf8_lt hlt, hchar _ _ hlt]

theorem compare_as_bytes (text other : Str) : compare (as_bytes text) (as_bytes other) = compare text other :=
  utf8_ordered.compare_flatMap (fun _ => String.utf8EncodeChar_ne_nil) text other

end bytes

/-- `Ord for str`: the order of the bytes. -/
def str_cmp (text other : Str) : Ordering := compare (as_bytes text) (as_bytes other)

namespace CaseFold

variable (fold : CaseFold) (used : Char → Prop)

/-- Texts over these characters are in the order of their folded texts, which is a total preorder. -/
structure ComparesFolded : Prop where
  agree : ∀ a b : Str, (∀ ch ∈ a, used ch) → (∀ ch ∈ b, used ch) →
    fold.cmp_str a b = str_cmp (fold.fold_into a) (fold.fold_into b)
  refl : ∀ a : Str, fold.cmp_str a a = .eq
  total : ∀ a b : Str, fold.cmp_str b a = (fold.cmp_str a b).swap
  trans : ∀ a b c : Str, (fold.cmp_str a b).isLE → (fold.cmp_str b c).isLE → (fold.cmp_str a c).isLE
  antisymm : ∀ a b : Str, (∀ ch ∈ a, used ch) → (∀ ch ∈ b, used ch) → fold.cmp_str a b = .eq →
    fold.fold_into a = fold.fold_into b

/-- The character is written as this one. -/
def FoldsTo (ch folded : Char) : Prop := fold.fold_bytes ch = String.utf8EncodeChar folded

/-- Each character is written as one character, and the code units are in the order of what is written. -/
structure UnitsInOrder : Prop where
  whole : ∀ ch, used ch → ∃ folded, fold.FoldsTo ch folded
  order : ∀ ch other folded folded', used ch → used other → fold.FoldsTo ch folded → fold.FoldsTo other folded' →
    compare (fold.fold_char ch) (fold.fold_char other) = compare folded folded'

variable {fold used}

theorem cmp_str_eq_compare (a b : Str) : fold.cmp_str a b = compare (fold.fold_to_u16 a) (fold.fold_to_u16 b) := by
  fun_induction cmp_str fold a b with
  | case1 => rfl
  | case2 => rfl
  | case3 => rfl
  | case4 ca lhs cb rhs heq ih =>
    rw [ih, fold_to_u16, fold_to_u16, fold_to_u16, fold_to_u16, List.map_cons, List.map_cons, List.compare_cons_cons, heq]
    rfl
  | case5 ca lhs cb rhs hne =>
    rw [fold_to_u16, fold_to_u16, List.map_cons, List.map_cons, List.compare_cons_cons]
    cases hcmp : compare (fold.fold_char ca) (fold.fold_char cb) with
    | eq => exact absurd hcmp hne
    | lt => rfl
    | gt => rfl

theorem FoldsTo.fold_into {text folded : Str} (h : List.Forall₂ fold.FoldsTo text folded) : fold.fold_into text = folded := by
  have hbytes : text.flatMap fold.fold_bytes = as_bytes folded := by
    induction h with
    | nil => rfl
    | cons hch _ ih => rw [List.flatMap_cons, hch, ih, as_bytes_cons]
  rw [CaseFold.fold_into, hbytes, from_utf8_as_bytes, Option.getD_some]

/-- Nothing, one byte or one character is written for a character. -/
theorem fold_bytes_cases (ch : Char) :
    fold.fold_bytes ch = [] ∨ (∃ byte, fold.fold_bytes ch = [byte]) ∨ ∃ folded, fold.FoldsTo ch folded := by
  unfold FoldsTo CaseFold.fold_bytes
  dsimp only
  split
  · exact Or.inr (Or.inl ⟨_, rfl⟩)
  · split
    · split
      · exact Or.inr (Or.inr ⟨_, rfl⟩)
      · exact Or.inl rfl
    · exact Or.inr (Or.inr ⟨ch, rfl⟩)

theorem foldsTo_of_fold_into {ch : Char} (h : fold.fold_into [ch] ≠ []) : ∃ folded, fold.FoldsTo ch folded := by
  rw [CaseFold.fold_into, List.flatMap_singleton] at h
  cases hread : from_utf8 (fold.fold_bytes ch) with
  | none =>
    rw [hread] at h
    exact absurd rfl h
  | some text =>
    rw [hread, Option.getD_some] at h
    have hbytes := as_bytes_of_from_utf8 hread
    obtain ⟨folded, rest, rfl⟩ := List.exists_cons_of_ne_nil h
    rw [as_bytes_cons] at hbytes
    rcases @fold_bytes_cases fold ch with hnone | ⟨byte, hone⟩ | hfolds
    · rw [hnone] at hbytes
      exact absurd (List.append_eq_nil_iff.mp hbytes).1 String.utf8EncodeChar_ne_nil
    · rw [hone] at hbytes
      rcases List.append_eq_singleton_iff.mp hbytes with ⟨hnil, -⟩ | ⟨hchar, -⟩
      · exact absurd hnil String.utf8EncodeChar_ne_nil
      · exact ⟨folded, hone.trans hchar.symm⟩
    · exact hfolds

theorem UnitsInOrder.exists_folded (h : fold.UnitsInOrder used) {text : Str} (htext : ∀ ch ∈ text, used ch) :
    ∃ folded, List.Forall₂ fold.FoldsTo text folded := by
  induction text with
  | nil => exact ⟨[], List.Forall₂.nil⟩
  | cons ch text ih =>
    obtain ⟨folded, hfolded⟩ := h.whole ch (htext ch List.mem_cons_self)
    obtain ⟨rest, hrest⟩ := ih fun later hlater => htext later (List.mem_cons_of_mem _ hlater)
    exact ⟨folded :: rest, List.Forall₂.cons hfolded hrest⟩

theorem UnitsInOrder.compare_units (h : fold.UnitsInOrder used) {a b folded folded' : Str} (ha : ∀ ch ∈ a, used ch)
    (hb : ∀ ch ∈ b, used ch) (hfolded : List.Forall₂ fold.FoldsTo a folded) (hfolded' : List.Forall₂ fold.FoldsTo b folded') :
    compare (fold.fold_to_u16 a) (fold.fold_to_u16 b) = compare folded folded' := by
  induction hfolded generalizing b folded' with
  | nil =>
    cases hfolded' with
    | nil => rfl
    | cons _ _ => rfl
  | @cons ch _ text _ hch _ ih =>
    cases hfolded' with
    | nil => rfl
    | @cons other _ text' _ hother hrest =>
      have hhead := h.order _ _ _ _ (ha ch List.mem_cons_self) (hb other List.mem_cons_self) hch hother
      have htail := ih (fun later hlater => ha later (List.mem_cons_of_mem _ hlater))
        (fun later hlater => hb later (List.mem_cons_of_mem _ hlater)) hrest
      rw [fold_to_u16, fold_to_u16] at htail ⊢
      rw [List.map_cons, List.map_cons, List.compare_cons_cons, List.compare_cons_cons, hhead, htail]

end CaseFold

/-- Folded comparison is comparison of the folded texts exactly where every character is written as one character, in the
order of the code units. -/
theorem cmp_str_compares_folded_iff (fold : CaseFold) (used : Char → Prop) : fold.ComparesFolded used ↔ fold.UnitsInOrder used := by
  constructor
  · intro h
    have hone : ∀ ch, used ch → ∀ c ∈ [ch], used c := fun ch hch c hc => List.mem_singleton.mp hc ▸ hch
    refine ⟨fun ch hch => ?_, fun ch other folded folded' hch hother hfolded hfolded' => ?_⟩
    · refine CaseFold.foldsTo_of_fold_into fun hnil => ?_
      have hagree := h.agree [ch] [] (hone ch hch) (fun c hc => absurd hc List.not_mem_nil)
      rw [hnil] at hagree
      cases hagree
    · have hagree := h.agree [ch] [other] (hone ch hch) (hone other hother)
      rw [CaseFold.cmp_str_eq_compare, str_cmp, compare_as_bytes, CaseFold.FoldsTo.fold_into (.cons hfolded .nil),
        CaseFold.FoldsTo.fold_into (.cons hfolded' .nil)] at hagree
      simpa [CaseFold.fold_to_u16, List.compare_cons_cons] using hagree
  · intro h
    have hagree : ∀ a b : Str, (∀ ch ∈ a, used ch) → (∀ ch ∈ b, used ch) →
        fold.cmp_str a b = str_cmp (fold.fold_into a) (fold.fold_into b) := by
      intro a b ha hb
      obtain ⟨folded, hfolded⟩ := h.exists_folded ha
      obtain ⟨folded', hfolded'⟩ := h.exists_folded hb
      rw [CaseFold.cmp_str_eq_compare, h.compare_units ha hb hfolded hfolded', CaseFold.FoldsTo.fold_into hfolded,
        CaseFold.FoldsTo.fold_into hfolded', str_cmp,
        compare_as_bytes]
    refine ⟨hagree, fun a => ?_, fun a b => ?_, fun a b c => ?_, fun a b ha hb heq => ?_⟩
    · rw [CaseFold.cmp_str_eq_compare, Std.ReflOrd.compare_self]
    · rw [CaseFold.cmp_str_eq_compare, CaseFold.cmp_str_eq_compare]
      exact cmp_flip compare _ _
    · simp only [CaseFold.cmp_str_eq_compare]
      exact Std.TransOrd.isLE_trans
    · rw [hagree a b ha hb] at heq
      exact as_bytes_injective (Std.LawfulEqOrd.eq_of_compare heq)

/-- A table that folds every character to itself. -/
def identity_table : CaseFold := ⟨(List.range 0x10000).map UInt16.ofNat⟩

/-- U+10041 is found equal to the letter that its low half is. -/
theorem cmp_str_folds_apart :
    identity_table.cmp_str [Char.ofNat 0x10041] ['A'] ≠
      str_cmp (identity_table.fold_into [Char.ofNat 0x10041]) (identity_table.fold_into ['A']) := by
  have hletter : identity_table.table[0x41]? = some 0x41 := by
    rw [identity_table, List.getElem?_map, List.getElem?_range (by decide)]
    rfl
  have hwide : ¬ (Char.ofNat 0x10041).toNat < 0x10000 := by decide
  have hunit : identity_table.fold_char 'A' = identity_table.fold_char (Char.ofNat 0x10041) := by
    simp only [CaseFold.fold_char, if_neg hwide, show 'A'.toNat = 0x41 from rfl, hletter]
    decide
  have hfolds : identity_table.FoldsTo 'A' 'A' := by
    simp only [CaseFold.FoldsTo, CaseFold.fold_bytes, show 'A'.toNat = 0x41 from rfl, hletter]
    rfl
  have hpassed : identity_table.FoldsTo (Char.ofNat 0x10041) (Char.ofNat 0x10041) := by
    simp only [CaseFold.FoldsTo, CaseFold.fold_bytes, if_neg hwide, if_neg (show ¬ (Char.ofNat 0x10041).toNat < 0x80 by decide)]
  rw [CaseFold.FoldsTo.fold_into (.cons hfolds .nil), CaseFold.FoldsTo.fold_into (.cons hpassed .nil), CaseFold.cmp_str_eq_compare,
    CaseFold.fold_to_u16, CaseFold.fold_to_u16, List.map_singleton, List.map_singleton, hunit, Std.ReflOrd.compare_self]
  decide

end uffs.text
