import Mathlib.Data.List.Induction

namespace uffs.text

/-- Rust text as its sequence of characters; the bytes are those of `as_bytes`. -/
abbrev Str := List Char

instance lawfulBEqStr : LawfulBEq Str := inferInstance

/-- `str::as_bytes`. -/
def as_bytes (text : Str) : List UInt8 :=
  text.flatMap String.utf8EncodeChar

/-- `core::str::from_utf8`. -/
def from_utf8 (bytes : List UInt8) : Option Str :=
  bytes.toByteArray.utf8Decode?.map Array.toList

theorem toByteArray_as_bytes (text : Str) : (as_bytes text).toByteArray = text.utf8Encode := by
  rw [as_bytes, List.utf8Encode]

@[simp] theorem from_utf8_as_bytes (text : Str) : from_utf8 (as_bytes text) = some text := by
  rw [from_utf8, toByteArray_as_bytes, List.utf8Decode?_utf8Encode]
  rfl

variable {text : Str}

theorem as_bytes_of_from_utf8 {bytes : List UInt8} (h : from_utf8 bytes = some text) :
    as_bytes text = bytes := by
  obtain ⟨chars, hdecode, rfl⟩ := Option.map_eq_some_iff.mp h
  have hsome : bytes.toByteArray.utf8Decode?.isSome := by simp [hdecode]
  have hencode := ByteArray.utf8Encode_get_utf8Decode? (h := hsome)
  simp only [hdecode, Option.get_some] at hencode
  rw [← toByteArray_as_bytes] at hencode
  have hlist := congrArg ByteArray.data hencode
  simpa using hlist

@[simp] theorem as_bytes_nil : as_bytes [] = [] := rfl

theorem as_bytes_append (left right : Str) : as_bytes (left ++ right) = as_bytes left ++ as_bytes right := by
  simp [as_bytes]

theorem as_bytes_eq_nil : as_bytes text = [] ↔ text = [] := by
  simp [as_bytes, ← List.eq_nil_iff_forall_not_mem]

theorem as_bytes_length_le (text : Str) : (as_bytes text).length ≤ 4 * text.length := by
  induction text with
  | nil => exact Nat.le_refl _
  | cons ch text ih =>
    have hone := ch.utf8Size_le_four
    simp only [as_bytes, List.flatMap_cons, List.length_append, String.length_utf8EncodeChar, List.length_cons] at ih ⊢
    omega

theorem length_le_as_bytes (text : Str) : text.length ≤ (as_bytes text).length := by
  induction text with
  | nil => exact Nat.le_refl _
  | cons ch text ih =>
    have hone := ch.utf8Size_pos
    simp only [as_bytes, List.flatMap_cons, List.length_append, String.length_utf8EncodeChar, List.length_cons] at ih ⊢
    omega

theorem as_bytes_injective {left right : Str} (h : as_bytes left = as_bytes right) : left = right := by
  have hdecode := congrArg from_utf8 h
  simpa using hdecode

/-- The bytes of a character tell it from the first one on. -/
theorem utf8EncodeChar_separates {ch other : Char} {front back : List UInt8}
    (h : String.utf8EncodeChar ch ++ front = String.utf8EncodeChar other ++ back) : ch = other := by
  have hdecode := congrArg (fun bytes => ByteArray.utf8DecodeChar? (List.toByteArray bytes) 0) h
  simpa [List.toByteArray_append, ByteArray.utf8DecodeChar?_utf8EncodeChar_append] using hdecode

/-- Bytes that start with those of a text are a text that starts with it. -/
theorem as_bytes_prefix_iff {head : Str} : as_bytes head <+: as_bytes text ↔ head <+: text := by
  constructor
  · rintro ⟨back, h⟩
    induction head generalizing text with
    | nil => exact List.nil_prefix
    | cons ch head ih =>
      cases text with
      | nil =>
        rw [as_bytes_nil, List.append_eq_nil_iff, as_bytes_eq_nil] at h
        cases h.1
      | cons other text =>
        simp only [as_bytes, List.flatMap_cons, List.append_assoc] at h ih
        obtain rfl := utf8EncodeChar_separates h
        exact List.cons_prefix_cons.mpr ⟨rfl, ih (List.append_cancel_left h)⟩
  · rintro ⟨back, rfl⟩
    rw [as_bytes_append]
    exact List.prefix_append _ _

/-- An ASCII character is one byte. -/
theorem utf8EncodeChar_ascii {ch : Char} (h : ch.toNat < 0x80) : String.utf8EncodeChar ch = [UInt8.ofNat ch.toNat] := by
  unfold String.utf8EncodeChar
  exact if_pos (show ch.val.toNat ≤ 0x7f from Nat.le_of_lt_succ h)

/-- No byte of any other character is ASCII. -/
theorem utf8EncodeChar_not_ascii {ch : Char} (h : 0x80 ≤ ch.toNat) :
    ∀ byte ∈ String.utf8EncodeChar ch, 0x80 ≤ byte.toNat := by
  have hval : 0x80 ≤ ch.val.toNat := h
  have hbyte : ∀ n : Nat, 0x80 ≤ n → n < 0x100 → 0x80 ≤ (UInt8.ofNat n).toNat := by
    intro n hlow hhigh
    rw [UInt8.toNat_ofNat']
    omega
  unfold String.utf8EncodeChar
  rw [if_neg (by omega)]
  intro byte hmem
  split at hmem
  · simp only [List.mem_cons, List.not_mem_nil, or_false] at hmem
    rcases hmem with rfl | rfl <;> exact hbyte _ (by omega) (by omega)
  · split at hmem
    · simp only [List.mem_cons, List.not_mem_nil, or_false] at hmem
      rcases hmem with rfl | rfl | rfl <;> exact hbyte _ (by omega) (by omega)
    · simp only [List.mem_cons, List.not_mem_nil, or_false] at hmem
      rcases hmem with rfl | rfl | rfl | rfl <;> exact hbyte _ (by omega) (by omega)

theorem as_bytes_cons (ch : Char) (text : Str) : as_bytes (ch :: text) = String.utf8EncodeChar ch ++ as_bytes text := rfl

theorem as_bytes_singleton (ch : Char) : as_bytes [ch] = String.utf8EncodeChar ch := List.append_nil _

/-- A character whose encoding ends in an ASCII byte is that byte. -/
theorem eq_of_utf8EncodeChar_ascii {ch other : Char} (hother : other.toNat < 0x80) {front : List UInt8}
    (h : String.utf8EncodeChar ch = front ++ String.utf8EncodeChar other) : front = [] ∧ ch = other := by
  rw [utf8EncodeChar_ascii hother] at h
  have hlast : UInt8.ofNat other.toNat ∈ String.utf8EncodeChar ch := by
    rw [h]
    exact List.mem_append_right _ List.mem_cons_self
  have hbyte : (UInt8.ofNat other.toNat).toNat = other.toNat := by
    rw [UInt8.toNat_ofNat']
    exact Nat.mod_eq_of_lt (by omega)
  have hch : ch.toNat < 0x80 := by
    by_contra hnot
    have hlarge := utf8EncodeChar_not_ascii (Nat.le_of_not_lt hnot) _ hlast
    omega
  rw [utf8EncodeChar_ascii hch] at h
  have hfront : front = [] := by
    have hlen := congrArg List.length h
    rw [List.length_append, List.length_singleton, List.length_singleton] at hlen
    exact List.length_eq_zero_iff.mp (by omega)
  subst hfront
  have hnat := congrArg UInt8.toNat (List.singleton_inj.mp h)
  rw [hbyte, UInt8.toNat_ofNat', Nat.mod_eq_of_lt (by omega)] at hnat
  exact ⟨rfl, Char.toNat_inj.mp hnat⟩

/-- UTF-8 is self-synchronizing: bytes that end in an ASCII text are a text that ends in it. -/
theorem as_bytes_suffix_iff {tail : Str} (htail : ∀ ch ∈ tail, ch.toNat < 0x80) :
    as_bytes tail <:+ as_bytes text ↔ tail <:+ text := by
  constructor
  · rintro ⟨front, h⟩
    -- Character by character from the end.
    induction tail using List.reverseRecOn generalizing text with
    | nil => exact List.nil_suffix
    | append_singleton tail last ih =>
      rw [as_bytes_append, ← List.append_assoc, as_bytes_singleton] at h
      have hlast := htail last (List.mem_append_right _ List.mem_cons_self)
      cases text using List.reverseRecOn with
      | nil =>
        have hnil := (List.append_eq_nil_iff.mp h).2
        rw [utf8EncodeChar_ascii hlast] at hnil
        cases hnil
      | append_singleton text ch =>
        rw [as_bytes_append, as_bytes_singleton] at h
        have hend : ch = last ∧ front ++ as_bytes tail = as_bytes text := by
          cases List.append_eq_append_iff.mp h with
          | inl hsplit =>
            obtain ⟨middle, htext, henc⟩ := hsplit
            have hmiddle : middle = [] := by
              have hpos := List.length_pos_iff.mpr (@String.utf8EncodeChar_ne_nil ch)
              have hlen := congrArg List.length henc
              rw [utf8EncodeChar_ascii hlast, List.length_append, List.length_singleton] at hlen
              exact List.length_eq_zero_iff.mp (by omega)
            subst hmiddle
            rw [List.append_nil] at htext
            exact ⟨(@eq_of_utf8EncodeChar_ascii _ _ hlast [] henc.symm).2, htext.symm⟩
          | inr hsplit =>
            obtain ⟨middle, htext, henc⟩ := hsplit
            obtain ⟨rfl, hch⟩ := eq_of_utf8EncodeChar_ascii hlast henc
            exact ⟨hch, htext.trans (List.append_nil _)⟩
        obtain ⟨rfl, hfront⟩ := hend
        obtain ⟨before, hbefore⟩ := ih (fun c hc => htail c (List.mem_append_left _ hc)) hfront
        exact ⟨before, by rw [← List.append_assoc, hbefore]⟩
  · rintro ⟨front, rfl⟩
    rw [as_bytes_append]
    exact List.suffix_append _ _

/-- The first byte is an ASCII byte only if the first character is that byte. -/
theorem head?_as_bytes_iff {ch : Char} (hascii : ch.toNat < 0x80) :
    (as_bytes text).head? = some (UInt8.ofNat ch.toNat) ↔ text.head? = some ch := by
  have hbyte : (UInt8.ofNat ch.toNat).toNat = ch.toNat := by
    rw [UInt8.toNat_ofNat']
    exact Nat.mod_eq_of_lt (by omega)
  cases text with
  | nil => exact ⟨fun h => (by cases h), fun h => (by cases h)⟩
  | cons first text =>
    rw [as_bytes_cons]
    constructor
    · intro h
      have hmem : UInt8.ofNat ch.toNat ∈ String.utf8EncodeChar first := by
        obtain ⟨byte, rest, hbytes⟩ := List.exists_cons_of_ne_nil (@String.utf8EncodeChar_ne_nil first)
        rw [hbytes] at h ⊢
        exact Option.some.inj h ▸ List.mem_cons_self
      have hfirst : first.toNat < 0x80 := by
        by_contra hnot
        have hlarge := utf8EncodeChar_not_ascii (Nat.le_of_not_lt hnot) _ hmem
        omega
      rw [utf8EncodeChar_ascii hfirst, List.mem_singleton] at hmem
      have hnat := congrArg UInt8.toNat hmem
      rw [hbyte, UInt8.toNat_ofNat', Nat.mod_eq_of_lt (by omega)] at hnat
      exact congrArg some (Char.toNat_inj.mp hnat.symm)
    · intro h
      cases h
      rw [utf8EncodeChar_ascii hascii]
      rfl

/-- An ASCII byte of a text is one of its characters. -/
theorem mem_of_ascii_byte {ch : Char} (hascii : ch.toNat < 0x80) (h : UInt8.ofNat ch.toNat ∈ as_bytes text) :
    ch ∈ text := by
  obtain ⟨other, hmem, hbyte⟩ := List.mem_flatMap.mp h
  have hnat : (UInt8.ofNat ch.toNat).toNat = ch.toNat := by
    rw [UInt8.toNat_ofNat']
    exact Nat.mod_eq_of_lt (by omega)
  by_cases hother : other.toNat < 0x80
  · rw [utf8EncodeChar_ascii hother, List.mem_singleton] at hbyte
    have hsame := congrArg UInt8.toNat hbyte
    rw [hnat, UInt8.toNat_ofNat', Nat.mod_eq_of_lt (by omega)] at hsame
    exact Char.toNat_inj.mp hsame ▸ hmem
  · have hlarge := utf8EncodeChar_not_ascii (Nat.le_of_not_lt hother) _ hbyte
    omega

end uffs.text
