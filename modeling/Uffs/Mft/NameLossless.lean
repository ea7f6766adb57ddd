import Uffs.Lib.PrefixCode
import Uffs.Mft.NameCodec

open uffs.lib uffs.text

namespace uffs.mft

/-! Names are kept without loss: what is stored tells the code units. -/

/-- The code points of a name; a surrogate without a partner stands for itself. -/
def code_points : List UInt16 → List Nat
  | [] => []
  | code :: rest =>
    if is_high_surrogate code then
      match rest with
      | [] => [code.toNat]
      | low :: after =>
        if is_low_surrogate low then pair_code_point code low :: code_points after
        else code.toNat :: code_points (low :: after)
    else code.toNat :: code_points rest

/-- The code units of a code point. -/
def code_units (cp : Nat) : List UInt16 :=
  if cp < 0x10000 then [UInt16.ofNat cp]
  else [UInt16.ofNat (0xD800 + (cp - 0x10000) / 0x400), UInt16.ofNat (0xDC00 + (cp - 0x10000) % 0x400)]

/-- UTF-16, as a text is encoded in it. -/
def encode_utf16 (text : Str) : List UInt16 := text.flatMap fun ch => code_units ch.toNat

section surrogates

theorem is_high_surrogate_iff {code : UInt16} : is_high_surrogate code = true ↔ 0xD800 ≤ code.toNat ∧ code.toNat ≤ 0xDBFF := by
  simp [is_high_surrogate, UInt16.le_iff_toNat_le]

theorem is_low_surrogate_iff {code : UInt16} : is_low_surrogate code = true ↔ 0xDC00 ≤ code.toNat ∧ code.toNat ≤ 0xDFFF := by
  simp [is_low_surrogate, UInt16.le_iff_toNat_le]

theorem pair_code_point_range {high low : UInt16} (hhigh : is_high_surrogate high = true) (hlow : is_low_surrogate low = true) :
    0x10000 ≤ pair_code_point high low ∧ pair_code_point high low < 0x110000 := by
  rw [is_high_surrogate_iff] at hhigh
  rw [is_low_surrogate_iff] at hlow
  unfold pair_code_point
  omega

theorem toNat_ofNat_u16 {n : Nat} (h : n < 0x10000) : (UInt16.ofNat n).toNat = n := by
  rw [UInt16.toNat_ofNat']
  exact Nat.mod_eq_of_lt h

theorem code_units_pair {high low : UInt16} (hhigh : is_high_surrogate high = true) (hlow : is_low_surrogate low = true) :
    code_units (pair_code_point high low) = [high, low] := by
  have hrange := pair_code_point_range hhigh hlow
  rw [is_high_surrogate_iff] at hhigh
  rw [is_low_surrogate_iff] at hlow
  have hfirst : 0xD800 + (pair_code_point high low - 0x10000) / 0x400 = high.toNat := by
    unfold pair_code_point
    omega
  have hsecond : 0xDC00 + (pair_code_point high low - 0x10000) % 0x400 = low.toNat := by
    unfold pair_code_point
    omega
  rw [code_units, if_neg (by omega), hfirst, hsecond, UInt16.ofNat_toNat, UInt16.ofNat_toNat]

theorem code_units_unit (code : UInt16) : code_units code.toNat = [code] := by
  rw [code_units, if_pos code.toNat_lt, UInt16.ofNat_toNat]

/-- The code points tell the code units. -/
theorem code_units_code_points (units : List UInt16) : (code_points units).flatMap code_units = units := by
  fun_induction code_points units with
  | case1 => rfl
  | case2 code hhigh =>
    rw [List.flatMap_cons, code_units_unit]
    rfl
  | case3 code hhigh low after hlow ih =>
    rw [List.flatMap_cons, code_units_pair hhigh hlow, ih]
    rfl
  | case4 code hhigh low after hlow ih =>
    rw [List.flatMap_cons, code_units_unit, ih]
    rfl
  | case5 code rest hhigh ih =>
    rw [List.flatMap_cons, code_units_unit, ih]
    rfl

theorem code_points_lt (units : List UInt16) : ∀ cp ∈ code_points units, cp < 0x110000 := by
  have hunit : ∀ code : UInt16, code.toNat < 0x110000 := by
    intro code
    have := code.toNat_lt
    omega
  fun_induction code_points units with
  | case1 => exact fun cp h => absurd h List.not_mem_nil
  | case2 code hhigh => simpa using hunit code
  | case3 code hhigh low after hlow ih =>
    exact List.forall_mem_cons.mpr ⟨(pair_code_point_range hhigh hlow).2, ih⟩
  | case4 code hhigh low after hlow ih =>
    exact List.forall_mem_cons.mpr ⟨hunit code, ih⟩
  | case5 code rest hhigh ih =>
    exact List.forall_mem_cons.mpr ⟨hunit code, ih⟩

end surrogates

section wtf8

theorem wtf8_units_eq (units : List UInt16) : wtf8_units units = (code_points units).flatMap push_wtf8 := by
  fun_induction wtf8_units units with
  | case1 => rfl
  | case2 code hhigh => simp [code_points, hhigh]
  | case3 code hhigh low after hlow ih => simp [code_points, hhigh, hlow, ih]
  | case4 code hhigh low after hlow ih => simp [code_points, hhigh, hlow, ih]
  | case5 code rest hhigh ih =>
    unfold code_points
    rw [if_neg hhigh, List.flatMap_cons, ih]

theorem push_wtf8_ne_nil (cp : Nat) : push_wtf8 cp ≠ [] := by
  unfold push_wtf8
  split
  · exact List.cons_ne_nil _ _
  · split
    · exact List.cons_ne_nil _ _
    · split <;> exact List.cons_ne_nil _ _

/-- One to four bytes, by the size of the code point. -/
theorem push_wtf8_shape (cp : Nat) :
    (cp ≤ 0x7F ∧ push_wtf8 cp = [UInt8.ofNat cp]) ∨
      (0x7F < cp ∧ cp ≤ 0x7FF ∧ push_wtf8 cp = [UInt8.ofNat (0xC0 + cp / 0x40 % 0x20), cont cp]) ∨
      (0x7FF < cp ∧ cp ≤ 0xFFFF ∧
        push_wtf8 cp = [UInt8.ofNat (0xE0 + cp / 0x1000 % 0x10), cont (cp / 0x40), cont cp]) ∨
      (0xFFFF < cp ∧
        push_wtf8 cp = [UInt8.ofNat (0xF0 + cp / 0x40000 % 0x8), cont (cp / 0x1000), cont (cp / 0x40), cont cp]) := by
  unfold push_wtf8
  by_cases h₁ : cp ≤ 0x7F
  · exact .inl ⟨h₁, if_pos h₁⟩
  · rw [if_neg h₁]
    by_cases h₂ : cp ≤ 0x7FF
    · exact .inr (.inl ⟨by omega, h₂, if_pos h₂⟩)
    · rw [if_neg h₂]
      by_cases h₃ : cp ≤ 0xFFFF
      · exact .inr (.inr (.inl ⟨by omega, h₃, if_pos h₃⟩))
      · exact .inr (.inr (.inr ⟨by omega, if_neg h₃⟩))

/-- The first byte tells how many there are, and the bytes tell the code point. -/
theorem push_wtf8_separates : prefix_code.Separates push_wtf8 fun cp => cp < 0x110000 := by
  intro a b ha hb front back heq
  have hbyte : ∀ n : Nat, n < 256 → (UInt8.ofNat n).toNat = n := by
    intro n hn
    rw [UInt8.toNat_ofNat']
    exact Nat.mod_eq_of_lt hn
  have hcont : ∀ x y : Nat, cont x = cont y → x % 0x40 = y % 0x40 := by
    intro x y h
    have hnat := congrArg UInt8.toNat h
    rw [cont, cont, hbyte _ (by omega), hbyte _ (by omega)] at hnat
    omega
  have hlead : ∀ x y : Nat, x < 256 → y < 256 → UInt8.ofNat x = UInt8.ofNat y → x = y := by
    intro x y hx hy h
    have hnat := congrArg UInt8.toNat h
    rwa [hbyte _ hx, hbyte _ hy] at hnat
  obtain ⟨ha₁, hpa⟩ | ⟨ha₁, ha₂, hpa⟩ | ⟨ha₁, ha₂, hpa⟩ | ⟨ha₁, hpa⟩ := push_wtf8_shape a
  all_goals
    obtain ⟨hb₁, hpb⟩ | ⟨hb₁, hb₂, hpb⟩ | ⟨hb₁, hb₂, hpb⟩ | ⟨hb₁, hpb⟩ := push_wtf8_shape b
    all_goals
      rw [hpa, hpb] at heq
      simp only [List.cons_append, List.nil_append, List.cons.injEq] at heq
      have hfirst := hlead _ _ (by omega) (by omega) heq.1
      -- Two first bytes of different lengths lie apart.
      first
        | omega
        | (have hsecond := hcont _ _ heq.2.1
           first
             | omega
             | (have hthird := hcont _ _ heq.2.2.1
                first
                  | omega
                  | (have hfourth := hcont _ _ heq.2.2.2.1
                     omega)))

/-- Different names are written as different bytes. -/
theorem wtf8_units_injective {units units' : List UInt16} (h : wtf8_units units = wtf8_units units') : units = units' := by
  rw [wtf8_units_eq, wtf8_units_eq] at h
  have hpoints : code_points units = code_points units' :=
    push_wtf8_separates.flatMap_injective (fun cp _ => push_wtf8_ne_nil cp) (code_points_lt units) (code_points_lt units') h
  rw [← code_units_code_points units, hpoints, code_units_code_points]

end wtf8

section display

theorem toNat_ofNat_of_scalar {n : Nat} (h : n < 0xD800 ∨ (0xDFFF < n ∧ n < 0x110000)) : (Char.ofNat n).toNat = n := by
  have hvalid : n.isValidChar := h
  rw [Char.ofNat, dif_pos hvalid]
  rfl

/-- The units of a character: a single one that is no surrogate, or a pair that stands for it. -/
theorem code_units_char (ch : Char) :
    (∃ code, code_units ch.toNat = [code] ∧ is_high_surrogate code = false ∧ is_low_surrogate code = false ∧
        code.toNat = ch.toNat) ∨
      ∃ high low, code_units ch.toNat = [high, low] ∧ is_high_surrogate high = true ∧ is_low_surrogate low = true ∧
        pair_code_point high low = ch.toNat := by
  have hvalid : ch.toNat < 0xD800 ∨ (0xDFFF < ch.toNat ∧ ch.toNat < 0x110000) := ch.valid
  by_cases hbmp : ch.toNat < 0x10000
  · left
    have hnat := toNat_ofNat_u16 hbmp
    refine ⟨UInt16.ofNat ch.toNat, if_pos hbmp, ?_, ?_, hnat⟩
    · rw [Bool.eq_false_iff, Ne, is_high_surrogate_iff, hnat]
      omega
    · rw [Bool.eq_false_iff, Ne, is_low_surrogate_iff, hnat]
      omega
  · right
    have hhigh : (UInt16.ofNat (0xD800 + (ch.toNat - 0x10000) / 0x400)).toNat = 0xD800 + (ch.toNat - 0x10000) / 0x400 :=
      toNat_ofNat_u16 (by omega)
    have hlow : (UInt16.ofNat (0xDC00 + (ch.toNat - 0x10000) % 0x400)).toNat = 0xDC00 + (ch.toNat - 0x10000) % 0x400 :=
      toNat_ofNat_u16 (by omega)
    refine ⟨_, _, if_neg hbmp, ?_, ?_, ?_⟩
    · rw [is_high_surrogate_iff, hhigh]
      omega
    · rw [is_low_surrogate_iff, hlow]
      omega
    · unfold pair_code_point
      simp only [hhigh, hlow]
      omega

/-- Nothing is replaced in the units of a text, and the text is what is shown. -/
theorem decode_units_encode (text : Str) : decode_units (encode_utf16 text) = (text, 0) := by
  induction text with
  | nil => rfl
  | cons ch rest ih =>
    rw [encode_utf16, List.flatMap_cons, ← encode_utf16]
    obtain ⟨code, hunits, hhigh, hlow, hnat⟩ | ⟨high, low, hunits, hhigh, hlow, hpair⟩ := code_units_char ch
    · rw [hunits]
      change decode_units (code :: encode_utf16 rest) = _
      unfold decode_units
      rw [if_neg (by rw [hhigh]; exact Bool.false_ne_true), ih]
      dsimp only
      rw [if_neg (by rw [hlow]; exact Bool.false_ne_true), hnat, Char.ofNat_toNat]
    · rw [hunits]
      change decode_units (high :: low :: encode_utf16 rest) = _
      rw [decode_units, if_pos hhigh]
      rw [if_pos hlow, ih, hpair, Char.ofNat_toNat]

/-- Where nothing is replaced, the units are those of the text that is shown. -/
theorem encode_decode_units {units : List UInt16} (h : (decode_units units).2 = 0) :
    encode_utf16 (decode_units units).1 = units := by
  have hcons : ∀ (ch : Char) (text : Str), encode_utf16 (ch :: text) = code_units ch.toNat ++ encode_utf16 text := by
    intro ch text
    rw [encode_utf16, List.flatMap_cons, ← encode_utf16]
  fun_induction decode_units units with
  | case1 => rfl
  | case2 code hhigh => exact absurd h (Nat.succ_ne_zero 0)
  | case3 code hhigh low after hlow text lossy hrest ih =>
    have hrange := pair_code_point_range hhigh hlow
    rw [hrest] at ih
    rw [hcons, toNat_ofNat_of_scalar (by omega), code_units_pair hhigh hlow, ih h]
    rfl
  | case4 code hhigh low after hlow text lossy hrest ih => exact absurd h (Nat.succ_ne_zero _)
  | case5 code rest hhigh text lossy hrest hlow ih => exact absurd h (Nat.succ_ne_zero _)
  | case6 code rest hhigh text lossy hrest hlow ih =>
    rw [is_high_surrogate_iff] at hhigh
    rw [is_low_surrogate_iff] at hlow
    have hlt : code.toNat ≤ 0xFFFF := Nat.le_of_lt_succ code.toNat_lt_size
    rw [hrest] at ih
    rw [hcons, toNat_ofNat_of_scalar (by omega), code_units_unit, ih h]
    rfl

/-- The code points of a text are its characters. -/
theorem code_points_encode (text : Str) : code_points (encode_utf16 text) = text.map Char.toNat := by
  induction text with
  | nil => rfl
  | cons ch rest ih =>
    rw [encode_utf16, List.flatMap_cons, ← encode_utf16, List.map_cons]
    obtain ⟨code, hunits, hhigh, -, hnat⟩ | ⟨high, low, hunits, hhigh, hlow, hpair⟩ := code_units_char ch
    · rw [hunits]
      change code_points (code :: encode_utf16 rest) = _
      unfold code_points
      rw [if_neg (by rw [hhigh]; exact Bool.false_ne_true), ih, hnat]
    · rw [hunits]
      change code_points (high :: low :: encode_utf16 rest) = _
      rw [code_points, if_pos hhigh, if_pos hlow, ih, hpair]

/-- A character is written as the standard library writes it. -/
theorem push_wtf8_char (ch : Char) : push_wtf8 ch.toNat = String.utf8EncodeChar ch := by
  have hval : ch.val.toNat = ch.toNat := rfl
  unfold push_wtf8 cont String.utf8EncodeChar
  simp only [hval, Nat.add_comm 0x80, Nat.add_comm 0xC0, Nat.add_comm 0xE0, Nat.add_comm 0xF0]

/-- A text is written as UTF-8. -/
theorem wtf8_units_encode (text : Str) : wtf8_units (encode_utf16 text) = as_bytes text := by
  rw [wtf8_units_eq, code_points_encode, List.flatMap_map, as_bytes]
  exact List.flatMap_congr fun ch _ => push_wtf8_char ch

/-- Whatever is stored, it is the WTF-8 of the code units. -/
theorem stored_eq_wtf8 (bytes : List UInt8) : (DecodedName.of_utf16le bytes).stored = wtf8_units (utf16_units bytes) := by
  rw [DecodedName.of_utf16le, decode_utf16le]
  dsimp only
  split
  next hclean =>
    have hunits := encode_decode_units hclean
    rw [← wtf8_units_encode, hunits]
  next => rfl

end display

/-- `u16::to_le_bytes` for each unit. -/
def utf16le_bytes (units : List UInt16) : List UInt8 :=
  units.flatMap fun unit => [UInt8.ofNat (unit.toNat % 0x100), UInt8.ofNat (unit.toNat / 0x100)]

theorem utf16_units_utf16le_bytes (units : List UInt16) : utf16_units (utf16le_bytes units) = units := by
  induction units with
  | nil => rfl
  | cons unit rest ih =>
    have hlt : unit.toNat ≤ 0xFFFF := Nat.le_of_lt_succ unit.toNat_lt_size
    have hlow : (UInt8.ofNat (unit.toNat % 0x100)).toNat = unit.toNat % 0x100 := by
      rw [UInt8.toNat_ofNat']
      omega
    have hhigh : (UInt8.ofNat (unit.toNat / 0x100)).toNat = unit.toNat / 0x100 := by
      rw [UInt8.toNat_ofNat']
      omega
    rw [utf16le_bytes, List.flatMap_cons, ← utf16le_bytes]
    change UInt16.ofNat _ :: utf16_units (utf16le_bytes rest) = unit :: rest
    rw [ih, hlow, hhigh, Nat.mod_add_div, UInt16.ofNat_toNat]

/-- What is stored of a name tells its code units, and of a record's bytes all but an odd one at the end; the decoder
    replaces nothing exactly when the units are those of a text, and then both encoders write the same bytes. -/
theorem names_stored_without_loss :
    (∀ units units' : List UInt16,
      (DecodedName.of_utf16le (utf16le_bytes units)).stored = (DecodedName.of_utf16le (utf16le_bytes units')).stored ↔
        units = units') ∧
    (∀ bytes bytes' : List UInt8,
      (DecodedName.of_utf16le bytes).stored = (DecodedName.of_utf16le bytes').stored ↔ utf16_units bytes = utf16_units bytes') ∧
    (∀ bytes : List UInt8, (decode_utf16le bytes).2 = 0 ↔ ∃ text, utf16_units bytes = encode_utf16 text) ∧
    ∀ bytes : List UInt8, (decode_utf16le bytes).2 = 0 → as_bytes (decode_utf16le bytes).1 = wtf8_from_utf16le bytes := by
  have hstored : ∀ bytes bytes' : List UInt8,
      (DecodedName.of_utf16le bytes).stored = (DecodedName.of_utf16le bytes').stored ↔ utf16_units bytes = utf16_units bytes' := by
    intro bytes bytes'
    rw [stored_eq_wtf8, stored_eq_wtf8]
    exact ⟨wtf8_units_injective, congrArg wtf8_units⟩
  refine ⟨?_, hstored, ?_, ?_⟩
  · intro units units'
    rw [hstored, utf16_units_utf16le_bytes, utf16_units_utf16le_bytes]
  · intro bytes
    constructor
    · intro hclean
      exact ⟨(decode_units (utf16_units bytes)).1, (encode_decode_units hclean).symm⟩
    · rintro ⟨text, htext⟩
      rw [decode_utf16le, htext, decode_units_encode]
  · intro bytes hclean
    have hunits := encode_decode_units hclean
    rw [decode_utf16le, ← wtf8_units_encode, hunits]
    rfl

/-- High, high, low: the first half stands alone, the other two are one character. -/
example : decode_units [0xD83D, 0xD83D, 0xDE00] = ([REPLACEMENT_CHARACTER, Char.ofNat 0x1F600], 1) ∧
    wtf8_units [0xD83D, 0xD83D, 0xDE00] = [0xED, 0xA0, 0xBD, 0xF0, 0x9F, 0x98, 0x80] := by
  decide

end uffs.mft
