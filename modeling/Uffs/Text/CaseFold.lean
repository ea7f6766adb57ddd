import Uffs.Lib.Slice
import Uffs.Text.Utf8

namespace uffs.text

/-- The case-folding engine: the live `$UpCase` table of a volume. -/
structure CaseFold where
  table : List UInt16

/-- Fold one character to a 16-bit code unit. Characters outside the BMP keep their low half. -/
def CaseFold.fold_char (fold : CaseFold) (ch : Char) : UInt16 :=
  let cp := ch.toNat
  if cp < 0x10000 then fold.table[cp]?.getD (UInt16.ofNat cp)
  else UInt16.ofNat (cp % 0x10000)

def CaseFold.fold_to_u16 (fold : CaseFold) (text : Str) : List UInt16 :=
  text.map fold.fold_char

/-- The order of two texts by their folded characters. -/
def CaseFold.cmp_str (fold : CaseFold) : Str → Str → Ordering
  | [], [] => .eq
  | [], _ :: _ => .lt
  | _ :: _, [] => .gt
  | ca :: lhs, cb :: rhs =>
    match compare (fold.fold_char ca) (fold.fold_char cb) with
    | .eq => fold.cmp_str lhs rhs
    | ord => ord

/-- Bytes `fold_into` writes for one character. An ASCII character folds to a single byte, a
value that does not fit being written as 0; a value that is no character is dropped. -/
def CaseFold.fold_bytes (fold : CaseFold) (ch : Char) : List UInt8 :=
  let cp := ch.toNat
  let folded := (fold.table[cp]?.getD (UInt16.ofNat cp)).toNat
  if cp < 0x80 then [if folded < 0x100 then UInt8.ofNat folded else 0]
  else if cp < 0x10000 then
    if folded.isValidChar then String.utf8EncodeChar (Char.ofNat folded) else []
  else String.utf8EncodeChar ch

/-- Folded text in a byte buffer; empty when the buffer is not UTF-8. -/
def CaseFold.fold_into (fold : CaseFold) (name : Str) : Str :=
  (from_utf8 (name.flatMap fold.fold_bytes)).getD []

/-- Whether the folded input has the folded needle as a contiguous run. -/
def CaseFold.contains_folded (fold : CaseFold) (input : Str) (needle_folded : List UInt16) : Bool :=
  needle_folded.isEmpty || (lib.windows needle_folded.length (fold.fold_to_u16 input)).any (· == needle_folded)

variable {fold : CaseFold}

theorem CaseFold.contains_folded_iff {input : Str} {needle_folded : List UInt16} :
    fold.contains_folded input needle_folded = true ↔ needle_folded <:+: fold.fold_to_u16 input := by
  cases needle_folded with
  | nil => simp [contains_folded]
  | cons unit rest => simp [contains_folded, lib.mem_windows]

@[simp] theorem CaseFold.fold_to_u16_length (fold : CaseFold) (text : Str) :
    (fold.fold_to_u16 text).length = text.length := by
  simp [fold_to_u16]

/-- Upper case within ASCII. -/
def ascii_upper (cp : Nat) : Nat := if 0x61 ≤ cp ∧ cp ≤ 0x7A then cp - 0x20 else cp

/-- What every `$UpCase` table has in common: ASCII letters go to upper case, other ASCII
characters stay, and nothing else folds to an ASCII character. -/
structure CaseFold.Upcase (fold : CaseFold) : Prop where
  ascii : ∀ cp < 0x80, fold.table[cp]?.getD (UInt16.ofNat cp) = UInt16.ofNat (ascii_upper cp)
  other : ∀ cp, 0x80 ≤ cp → cp < 0x10000 → 0x80 ≤ (fold.table[cp]?.getD (UInt16.ofNat cp)).toNat

/-- One folded character; a value that is no character is dropped. -/
def CaseFold.folded_char (fold : CaseFold) (ch : Char) : Option Char :=
  let cp := ch.toNat
  if cp < 0x10000 then
    let folded := (fold.table[cp]?.getD (UInt16.ofNat cp)).toNat
    if folded.isValidChar then some (Char.ofNat folded) else none
  else some ch

theorem ascii_upper_lt {cp : Nat} (h : cp < 0x80) : ascii_upper cp < 0x80 := by
  unfold ascii_upper
  split <;> omega

theorem isValidChar_of_lt {n : Nat} (h : n < 0xD800) : n.isValidChar := Or.inl h

theorem toNat_ofNat_of_valid {n : Nat} (h : n.isValidChar) : (Char.ofNat n).toNat = n := by
  rw [Char.ofNat, dif_pos h]
  rfl

theorem CaseFold.Upcase.fold_bytes_eq (h : fold.Upcase) (ch : Char) :
    fold.fold_bytes ch = as_bytes (fold.folded_char ch).toList := by
  unfold CaseFold.fold_bytes CaseFold.folded_char
  dsimp only
  by_cases hascii : ch.toNat < 0x80
  · have hupper := ascii_upper_lt hascii
    have hnat : (UInt16.ofNat (ascii_upper ch.toNat)).toNat = ascii_upper ch.toNat := by
      rw [UInt16.toNat_ofNat']
      exact Nat.mod_eq_of_lt (by omega)
    have hvalid : (ascii_upper ch.toNat).isValidChar := isValidChar_of_lt (by omega)
    rw [h.ascii _ hascii, hnat, if_pos hascii, if_pos (by omega), if_pos (by omega), if_pos hvalid, Option.toList_some,
      as_bytes_singleton, utf8EncodeChar_ascii (by rw [toNat_ofNat_of_valid hvalid]; exact hupper),
      toNat_ofNat_of_valid hvalid]
  · rw [if_neg hascii]
    split
    · split
      · rw [Option.toList_some, as_bytes_singleton]
      · rfl
    · rw [Option.toList_some, as_bytes_singleton]

theorem CaseFold.Upcase.fold_into_eq (h : fold.Upcase) (name : Str) :
    fold.fold_into name = name.filterMap fold.folded_char := by
  have hbytes : name.flatMap fold.fold_bytes = as_bytes (name.filterMap fold.folded_char) := by
    induction name with
    | nil => rfl
    | cons ch name ih =>
      rw [List.flatMap_cons, ih, h.fold_bytes_eq]
      cases hch : fold.folded_char ch with
      | none =>
        rw [List.filterMap_cons_none hch]
        rfl
      | some folded =>
        rw [List.filterMap_cons_some hch, Option.toList_some, as_bytes_singleton]
        rfl
  rw [CaseFold.fold_into, hbytes, from_utf8_as_bytes, Option.getD_some]

theorem CaseFold.Upcase.folded_char_ascii (h : fold.Upcase) {ch : Char} (hascii : ch.toNat < 0x80) :
    fold.folded_char ch = some (Char.ofNat (ascii_upper ch.toNat)) := by
  have hnat : (UInt16.ofNat (ascii_upper ch.toNat)).toNat = ascii_upper ch.toNat := by
    rw [UInt16.toNat_ofNat']
    exact Nat.mod_eq_of_lt (Nat.lt_trans (ascii_upper_lt hascii) (by decide))
  unfold CaseFold.folded_char
  rw [if_pos (by omega), h.ascii _ hascii, hnat, if_pos (isValidChar_of_lt (Nat.lt_trans (ascii_upper_lt hascii) (by decide)))]

/-- Only an ASCII character folds to an ASCII character. -/
theorem CaseFold.Upcase.ascii_of_folded (h : fold.Upcase) {ch folded : Char} (hfold : fold.folded_char ch = some folded)
    (hascii : folded.toNat < 0x80) : ch.toNat < 0x80 := by
  by_contra hnot
  unfold CaseFold.folded_char at hfold
  dsimp only at hfold
  split at hfold
  next hbmp =>
    split at hfold
    next hvalid =>
      have hlarge := h.other ch.toNat (Nat.le_of_not_lt hnot) hbmp
      rw [← Option.some.inj hfold, toNat_ofNat_of_valid hvalid] at hascii
      omega
    next => cases hfold
  next =>
    rw [← Option.some.inj hfold] at hascii
    exact hnot hascii

def upper_char (ch : Char) : Char := Char.ofNat (ascii_upper ch.toNat)

theorem upper_char_toNat {ch : Char} (h : ch.toNat < 0x80) : (upper_char ch).toNat = ascii_upper ch.toNat :=
  toNat_ofNat_of_valid (isValidChar_of_lt (Nat.lt_trans (ascii_upper_lt h) (by decide)))

/-- ASCII text folds to its upper case. -/
theorem CaseFold.Upcase.fold_into_ascii {fold : CaseFold} (h : fold.Upcase) {text : Str}
    (htext : ∀ ch ∈ text, ch.toNat < 0x80) : fold.fold_into text = text.map upper_char := by
  rw [h.fold_into_eq]
  induction text with
  | nil => rfl
  | cons ch text ih =>
    rw [List.filterMap_cons_some (h.folded_char_ascii (htext ch List.mem_cons_self)), List.map_cons,
      ih fun c hc => htext c (List.mem_cons_of_mem _ hc)]
    rfl

theorem CaseFold.Upcase.fold_into_append (h : fold.Upcase) (left right : Str) :
    fold.fold_into (left ++ right) = fold.fold_into left ++ fold.fold_into right := by
  rw [h.fold_into_eq, h.fold_into_eq, h.fold_into_eq, List.filterMap_append]

/-- A character without case that is ASCII stays, and nothing else folds to it. -/
theorem CaseFold.Upcase.mem_fold_into_caseless_iff (h : fold.Upcase) {ch : Char} (hascii : ch.toNat < 0x80)
    (hupper : ch.toNat < 0x41 ∨ 0x5A < ch.toNat) (hlower : ch.toNat < 0x61 ∨ 0x7A < ch.toNat) {text : Str} :
    ch ∈ fold.fold_into text ↔ ch ∈ text := by
  rw [h.fold_into_eq, List.mem_filterMap]
  constructor
  · rintro ⟨source, hmem, hfold⟩
    have hsource := h.ascii_of_folded hfold hascii
    rw [h.folded_char_ascii hsource] at hfold
    have hnat := congrArg Char.toNat (Option.some.inj hfold)
    change (upper_char source).toNat = ch.toNat at hnat
    rw [upper_char_toNat hsource] at hnat
    have hsame : source.toNat = ch.toNat := by
      unfold ascii_upper at hnat
      split at hnat
      · omega
      · exact hnat
    exact Char.toNat_inj.mp hsame ▸ hmem
  · intro hmem
    refine ⟨ch, hmem, ?_⟩
    have hkept : ascii_upper ch.toNat = ch.toNat := if_neg (by omega)
    rw [h.folded_char_ascii hascii, hkept, Char.ofNat_toNat]

theorem CaseFold.Upcase.mem_fold_into_iff (h : fold.Upcase) {ch : Char} (hascii : ch.toNat < 0x40) {text : Str} :
    ch ∈ fold.fold_into text ↔ ch ∈ text :=
  h.mem_fold_into_caseless_iff (by omega) (by omega) (by omega)

/-- A `$UpCase` table of characters: no character folds to a surrogate. -/
structure CaseFold.Whole (fold : CaseFold) : Prop extends fold.Upcase where
  chars : ∀ ch, (fold.folded_char ch).isSome

/-- The code unit of a character is the low half of the folded one. -/
theorem CaseFold.fold_char_of_folded {ch folded : Char} (h : fold.folded_char ch = some folded) :
    fold.fold_char ch = UInt16.ofNat (folded.toNat % 0x10000) := by
  unfold CaseFold.folded_char at h
  unfold CaseFold.fold_char
  dsimp only at h ⊢
  by_cases hbmp : ch.toNat < 0x10000
  · rw [if_pos hbmp] at h ⊢
    split at h
    next hvalid =>
      have hlt := (fold.table[ch.toNat]?.getD (UInt16.ofNat ch.toNat)).toNat_lt
      rw [← Option.some.inj h, toNat_ofNat_of_valid hvalid, Nat.mod_eq_of_lt hlt, UInt16.ofNat_toNat]
    next => cases h
  · rw [if_neg hbmp] at h ⊢
    rw [Option.some.inj h]

/-- A text folds to as many characters, and what starts alike folded starts alike in code units. -/
theorem CaseFold.Whole.fold_to_u16_prefix (h : fold.Whole) {head text : Str}
    (hhead : fold.fold_into head <+: fold.fold_into text) : fold.fold_to_u16 head <+: fold.fold_to_u16 text := by
  rw [h.fold_into_eq, h.fold_into_eq] at hhead
  induction head generalizing text with
  | nil => exact List.nil_prefix
  | cons ch head ih =>
    obtain ⟨folded, hch⟩ := Option.isSome_iff_exists.mp (h.chars ch)
    rw [List.filterMap_cons_some hch] at hhead
    cases text with
    | nil => exact absurd hhead (by simp)
    | cons other text =>
      obtain ⟨folded', hother⟩ := Option.isSome_iff_exists.mp (h.chars other)
      rw [List.filterMap_cons_some hother, List.cons_prefix_cons] at hhead
      rw [fold_to_u16, fold_to_u16, List.map_cons, List.map_cons, List.cons_prefix_cons, fold_char_of_folded hch,
        fold_char_of_folded hother, hhead.1]
      exact ⟨rfl, ih hhead.2⟩

theorem CaseFold.Whole.fold_into_length (h : fold.Whole) (text : Str) : (fold.fold_into text).length = text.length := by
  rw [h.fold_into_eq]
  induction text with
  | nil => rfl
  | cons ch text ih =>
    obtain ⟨folded, hch⟩ := Option.isSome_iff_exists.mp (h.chars ch)
    rw [List.filterMap_cons_some hch, List.length_cons, List.length_cons, ih]

end uffs.text
