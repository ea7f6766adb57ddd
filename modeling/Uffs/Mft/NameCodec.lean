import Uffs.Text.Utf8

open uffs.text

namespace uffs.mft

/-- UTF-16LE code units of a byte slice; a trailing odd byte is dropped. -/
def utf16_units : List UInt8 → List UInt16
  | low :: high :: rest => UInt16.ofNat (low.toNat + 256 * high.toNat) :: utf16_units rest
  | _ => []

def is_high_surrogate (code : UInt16) : Bool := 0xD800 ≤ code && code ≤ 0xDBFF

def is_low_surrogate (code : UInt16) : Bool := 0xDC00 ≤ code && code ≤ 0xDFFF

/-- Code point of a surrogate pair. -/
def pair_code_point (high low : UInt16) : Nat :=
  0x10000 + (high.toNat - 0xD800) * 0x400 + (low.toNat - 0xDC00)

def REPLACEMENT_CHARACTER : Char := Char.ofNat 0xFFFD

/-- Text for display and the number of unpaired surrogates replaced in it. -/
def decode_units : List UInt16 → Str × Nat
  | [] => ([], 0)
  | code :: rest =>
    if is_high_surrogate code then
      match rest with
      | [] => ([REPLACEMENT_CHARACTER], 1)
      | low :: after =>
        if is_low_surrogate low then
          let (text, lossy) := decode_units after
          (Char.ofNat (pair_code_point code low) :: text, lossy)
        else
          let (text, lossy) := decode_units (low :: after)
          (REPLACEMENT_CHARACTER :: text, lossy + 1)
    else
      let (text, lossy) := decode_units rest
      if is_low_surrogate code then (REPLACEMENT_CHARACTER :: text, lossy + 1)
      else (Char.ofNat code.toNat :: text, lossy)

def decode_utf16le (bytes : List UInt8) : Str × Nat := decode_units (utf16_units bytes)

/-- Continuation byte of the low six bits. -/
def cont (cp : Nat) : UInt8 := UInt8.ofNat (0x80 + cp % 0x40)

/-- A code point, or a lone surrogate, as WTF-8. -/
def push_wtf8 (cp : Nat) : List UInt8 :=
  if cp ≤ 0x7F then [UInt8.ofNat cp]
  else if cp ≤ 0x7FF then [UInt8.ofNat (0xC0 + cp / 0x40 % 0x20), cont cp]
  else if cp ≤ 0xFFFF then [UInt8.ofNat (0xE0 + cp / 0x1000 % 0x10), cont (cp / 0x40), cont cp]
  else [UInt8.ofNat (0xF0 + cp / 0x40000 % 0x8), cont (cp / 0x1000), cont (cp / 0x40), cont cp]

/-- Lossless WTF-8 of the code units: unpaired surrogates keep their value. -/
def wtf8_units : List UInt16 → List UInt8
  | [] => []
  | code :: rest =>
    if is_high_surrogate code then
      match rest with
      | [] => push_wtf8 code.toNat
      | low :: after =>
        if is_low_surrogate low then push_wtf8 (pair_code_point code low) ++ wtf8_units after
        else push_wtf8 code.toNat ++ wtf8_units (low :: after)
    else push_wtf8 code.toNat ++ wtf8_units rest

def wtf8_from_utf16le (bytes : List UInt8) : List UInt8 := wtf8_units (utf16_units bytes)

/-- A decoded name: the text shown, and the bytes kept, which differ where the text lost a surrogate. -/
structure DecodedName where
  display : Str
  stored : List UInt8
deriving DecidableEq, Inhabited

/-- The name that `store_name_lossless` keeps for the UTF-16LE bytes of a record. -/
def DecodedName.of_utf16le (bytes : List UInt8) : DecodedName :=
  let (display, lossy) := decode_utf16le bytes
  { display := display, stored := if lossy = 0 then as_bytes display else wtf8_from_utf16le bytes }

theorem utf16_units_length (bytes : List UInt8) : (utf16_units bytes).length = bytes.length / 2 := by
  fun_induction utf16_units bytes with
  | case1 low high rest ih => simp only [List.length_cons, ih]; omega
  | case2 bytes hshort =>
    match bytes, hshort with
    | [], _ => rfl
    | [_], _ => simp
    | low :: high :: rest, hshort => exact absurd rfl (hshort low high rest)

theorem push_wtf8_length_le (cp : Nat) : (push_wtf8 cp).length ≤ 4 ∧ (cp ≤ 0xFFFF → (push_wtf8 cp).length ≤ 3) := by
  unfold push_wtf8
  split
  · simp
  · split
    · simp
    · split
      · simp
      · exact ⟨by simp, fun hsmall => absurd hsmall (by assumption)⟩

theorem wtf8_units_length_le (units : List UInt16) : (wtf8_units units).length ≤ 3 * units.length := by
  have hunit : ∀ code : UInt16, (push_wtf8 code.toNat).length ≤ 3 := fun code =>
    (push_wtf8_length_le code.toNat).2 (Nat.le_of_lt_succ code.toNat_lt_size)
  fun_induction wtf8_units units with
  | case1 => simp
  | case2 code hhigh => simpa using hunit code
  | case3 code hhigh low after hlow ih =>
    have hpair := (push_wtf8_length_le (pair_code_point code low)).1
    simp only [List.length_append, List.length_cons]
    omega
  | case4 code hhigh low after hlow ih =>
    have hcode := hunit code
    simp only [List.length_append, List.length_cons] at ih ⊢
    omega
  | case5 code rest hhigh ih =>
    have hcode := hunit code
    simp only [List.length_append, List.length_cons]
    omega

theorem utf8EncodeChar_length_le {ch : Char} (h : ch.toNat ≤ 0xFFFF) : (String.utf8EncodeChar ch).length ≤ 3 := by
  rw [String.length_utf8EncodeChar, Char.utf8Size]
  have hval : ch.val ≤ 0xFFFF := UInt32.le_iff_toNat_le.mpr h
  split
  · omega
  · split
    · omega
    · split
      · exact Nat.le_refl 3
      · exact absurd hval (by assumption)

theorem char_ofNat_toNat_le (n : Nat) : (Char.ofNat n).toNat ≤ n := by
  by_cases hvalid : n.isValidChar
  · rw [Char.ofNat, dif_pos hvalid]
    exact Nat.le_refl n
  · rw [Char.ofNat, dif_neg hvalid]
    exact Nat.zero_le n

theorem decode_units_length_le (units : List UInt16) : (as_bytes (decode_units units).1).length ≤ 3 * units.length := by
  have hmark : (String.utf8EncodeChar REPLACEMENT_CHARACTER).length ≤ 3 := by decide
  fun_induction decode_units units with
  | case1 => simp
  | case2 code hhigh => simpa [as_bytes_singleton] using hmark
  | case3 code hhigh low after hlow text lossy hrest ih =>
    have hpair : (String.utf8EncodeChar (Char.ofNat (pair_code_point code low))).length ≤ 4 := by
      rw [String.length_utf8EncodeChar]
      exact Char.utf8Size_le_four _
    rw [hrest] at ih
    simp only [as_bytes_cons, List.length_append, List.length_cons] at ih ⊢
    omega
  | case4 code hhigh low after hlow text lossy hrest ih =>
    rw [hrest] at ih
    simp only [as_bytes_cons, List.length_append, List.length_cons] at ih ⊢
    omega
  | case5 code rest hhigh text lossy hrest hlow ih =>
    rw [hrest] at ih
    simp only [as_bytes_cons, List.length_append, List.length_cons] at ih ⊢
    omega
  | case6 code rest hhigh text lossy hrest hlow ih =>
    have hcode : (String.utf8EncodeChar (Char.ofNat code.toNat)).length ≤ 3 :=
      utf8EncodeChar_length_le (Nat.le_trans (char_ofNat_toNat_le _) (Nat.le_of_lt_succ code.toNat_lt_size))
    rw [hrest] at ih
    simp only [as_bytes_cons, List.length_append, List.length_cons] at ih ⊢
    omega

/-- A name takes at most three bytes a code unit, however it is stored. -/
theorem DecodedName.stored_length_le (bytes : List UInt8) :
    2 * (DecodedName.of_utf16le bytes).stored.length ≤ 3 * bytes.length := by
  have hunits := utf16_units_length bytes
  have htext := decode_units_length_le (utf16_units bytes)
  have hwtf8 := wtf8_units_length_le (utf16_units bytes)
  rw [DecodedName.of_utf16le, decode_utf16le]
  dsimp only
  split
  · omega
  · rw [wtf8_from_utf16le]
    omega

end uffs.mft
