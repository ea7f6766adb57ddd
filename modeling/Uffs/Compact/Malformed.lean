import Mathlib.Algebra.Order.Ring.Nat
import Uffs.Mft.NameLossless

open uffs.mft uffs.text

namespace uffs.compact

/-! How a name that is not well formed is shown: its characters as they are, and a marker for each lone surrogate. -/

/-- `Utf8Error::valid_up_to`: how much of the bytes is UTF-8. -/
def valid_up_to (bytes : List UInt8) : Nat :=
  Nat.findGreatest (fun good => (from_utf8 (bytes.take good)).isSome = true) bytes.length

/-- What the second byte of a character may be, by the first one. -/
def second_byte (first : UInt8) : Option (UInt8 × UInt8) :=
  if 0xC2 ≤ first ∧ first ≤ 0xDF then some (0x80, 0xBF)
  else if first = 0xE0 then some (0xA0, 0xBF)
  else if first = 0xED then some (0x80, 0x9F)
  else if 0xE1 ≤ first ∧ first ≤ 0xEF then some (0x80, 0xBF)
  else if first = 0xF0 then some (0x90, 0xBF)
  else if 0xF1 ≤ first ∧ first ≤ 0xF3 then some (0x80, 0xBF)
  else if first = 0xF4 then some (0x80, 0x8F)
  else none

def is_continuation (byte : UInt8) : Bool := 0x80 ≤ byte && byte ≤ 0xBF

/-- `Utf8Error::error_len` of bytes that start with no character: how many of them belong to the error, none where
they end too early. -/
def error_len : List UInt8 → Option Nat
  | [] => none
  | first :: rest =>
    match second_byte first, rest with
    | none, _ => some 1
    | some _, [] => none
    | some (low, high), second :: rest =>
      if second < low ∨ high < second then some 1
      else
        match rest with
        | [] => none
        | third :: rest =>
          if !is_continuation third then some 2
          else if rest.isEmpty then none
          else some 3

theorem error_len_pos (bytes : List UInt8) : 0 < (error_len bytes).getD 1 := by
  unfold error_len
  split
  · exact Nat.one_pos
  · split
    · exact Nat.one_pos
    · exact Nat.one_pos
    · split
      · exact Nat.one_pos
      · split
        · exact Nat.one_pos
        · split
          · exact Nat.two_pos
          · split
            · exact Nat.one_pos
            · exact Nat.succ_pos 2

/-- The three bytes of a lone surrogate: the last two of them, and what follows. -/
def lone_surrogate : List UInt8 → Option (UInt8 × UInt8 × List UInt8)
  | 0xED :: b1 :: b2 :: tail =>
    if (0xA0 ≤ b1 ∧ b1 ≤ 0xBF) ∧ 0x80 ≤ b2 ∧ b2 ≤ 0xBF then some (b1, b2, tail) else none
  | _ => none

theorem lone_surrogate_length {bad tail : List UInt8} {b1 b2 : UInt8} (h : lone_surrogate bad = some (b1, b2, tail)) :
    tail.length < bad.length := by
  unfold lone_surrogate at h
  split at h
  · split at h
    · cases h
      simp only [List.length_cons]
      omega
    · cases h
  · cases h

inductive MalformedRender where
  | Lossy
  | Normalized
deriving DecidableEq

/-- The code unit of a lone surrogate. -/
def surrogate_unit (b1 b2 : UInt8) : Nat := 0xD000 ||| (b1.toNat &&& 0x3F) <<< 6 ||| (b2.toNat &&& 0x3F)

def hex_digit (nibble : Nat) : Char := (Nat.digitChar nibble).toUpper

def bad_marker (unit : Nat) : Str :=
  ['<', 'B', 'A', 'D', ':'] ++ [12, 8, 4, 0].map (fun shift => hex_digit (unit >>> shift &&& 0xF)) ++ ['>']

def MalformedRender.surrogate (self : MalformedRender) (b1 b2 : UInt8) : Str :=
  match self with
  | .Lossy => [REPLACEMENT_CHARACTER]
  | .Normalized => bad_marker (surrogate_unit b1 b2)

def MalformedRender.other (self : MalformedRender) : Str :=
  match self with
  | .Lossy => [REPLACEMENT_CHARACTER]
  | .Normalized => ['<', 'B', 'A', 'D', '>']

def render_malformed (render : MalformedRender) (bytes : List UInt8) : Str :=
  if _hempty : bytes = [] then []
  else
    match from_utf8 bytes with
    | some valid => valid
    | none =>
      let bad := bytes.drop (valid_up_to bytes)
      (from_utf8 (bytes.take (valid_up_to bytes))).getD [] ++
        match _hsurrogate : lone_surrogate bad with
        | some (b1, b2, tail) => render.surrogate b1 b2 ++ render_malformed render tail
        | none =>
          -- Bytes that no name has: the error is skipped.
          render.other ++ render_malformed render (bad.drop (min ((error_len bad).getD 1) bad.length))
termination_by bytes.length
decreasing_by
  · have hshort := lone_surrogate_length _hsurrogate
    rw [List.length_drop] at hshort
    omega
  · have hpos := List.length_pos_iff.mpr _hempty
    have hskip := error_len_pos (bytes.drop (valid_up_to bytes))
    simp only [List.length_drop]
    omega

/-- A code point that is no character. -/
def Surrogate (cp : Nat) : Prop := 0xD800 ≤ cp ∧ cp ≤ 0xDFFF

instance decidableSurrogate (cp : Nat) : Decidable (Surrogate cp) := inferInstanceAs (Decidable (_ ∧ _))

/-- What is to be shown of a code point. -/
def shown (cp : Nat) : Str := if Surrogate cp then bad_marker cp else [Char.ofNat cp]

variable {points : List Nat}

section rendered

theorem char_range (ch : Char) : ¬ Surrogate ch.toNat ∧ ch.toNat < 0x110000 := by
  have hvalid : ch.toNat < 0xD800 ∨ 0xDFFF < ch.toNat ∧ ch.toNat < 0x110000 := ch.valid
  rw [Surrogate]
  omega

/-- The bytes before a lone surrogate are all that is UTF-8. -/
theorem valid_up_to_eq (text : Str) {cp : Nat} (hcp : Surrogate cp) (rest : List UInt8) :
    valid_up_to (as_bytes text ++ (push_wtf8 cp ++ rest)) = (as_bytes text).length := by
  have hvalid : (from_utf8 ((as_bytes text ++ (push_wtf8 cp ++ rest)).take (as_bytes text).length)).isSome = true := by
    rw [List.take_left, from_utf8_as_bytes]
    rfl
  refine Nat.findGreatest_eq_iff.mpr ⟨?_, fun _ => hvalid, fun good hgood _ hmore => ?_⟩
  · rw [List.length_append]
    exact Nat.le_add_right _ _
  obtain ⟨longer, hlonger⟩ := Option.isSome_iff_exists.mp hmore
  have hbytes := as_bytes_of_from_utf8 hlonger
  rw [List.take_append, List.take_of_length_le (Nat.le_of_lt hgood)] at hbytes
  obtain ⟨more, rfl⟩ := as_bytes_prefix_iff.mp ⟨_, hbytes.symm⟩
  rw [as_bytes_append, List.append_cancel_left_eq] at hbytes
  -- One more character would be the surrogate.
  cases more with
  | nil =>
    have hnil := List.take_eq_nil_iff.mp hbytes.symm
    rcases hnil with hzero | hnil
    · omega
    · exact push_wtf8_ne_nil cp (List.append_eq_nil_iff.mp hnil).1
  | cons ch more =>
    have hall : push_wtf8 ch.toNat ++ (as_bytes more ++ (push_wtf8 cp ++ rest).drop (good - (as_bytes text).length)) =
        push_wtf8 cp ++ rest := by
      rw [push_wtf8_char, ← List.append_assoc, ← as_bytes_cons, hbytes, List.take_append_drop]
    have hlt : cp < 0x110000 := Nat.lt_of_le_of_lt hcp.2 (by decide)
    have hsame : ch.toNat = cp := push_wtf8_separates _ _ (char_range ch).2 hlt _ _ hall
    exact (char_range ch).1 (hsame ▸ hcp)

theorem surrogate_unit_eq {cp : Nat} (hcp : Surrogate cp) : surrogate_unit (cont (cp / 0x40)) (cont cp) = cp := by
  obtain ⟨hlow, hhigh⟩ := hcp
  have hcont : ∀ n : Nat, (cont n).toNat &&& 0x3F = n % 0x40 := by
    intro n
    rw [cont, UInt8.toNat_ofNat', Nat.mod_eq_of_lt (by omega), Nat.and_two_pow_sub_one_eq_mod _ 6]
    omega
  have hmiddle : 0xD000 ||| (cp / 0x40 % 0x40) <<< 6 = 2 ^ 6 * (cp / 0x40) := by
    rw [Nat.shiftLeft_eq, show 0xD000 = 2 ^ 12 * 13 from rfl, ← Nat.two_pow_add_eq_or_of_lt (by omega)]
    omega
  rw [surrogate_unit, hcont, hcont, hmiddle, ← Nat.two_pow_add_eq_or_of_lt (Nat.mod_lt _ (by decide))]
  omega

theorem lone_surrogate_push {cp : Nat} (hcp : Surrogate cp) (rest : List UInt8) :
    lone_surrogate (push_wtf8 cp ++ rest) = some (cont (cp / 0x40), cont cp, rest) := by
  obtain ⟨hlow, hhigh⟩ := hcp
  have hlead : UInt8.ofNat (0xE0 + cp / 0x1000 % 0x10) = 0xED := by
    rw [show cp / 0x1000 % 0x10 = 13 by omega]
    rfl
  have hcont : ∀ n : Nat, (cont n).toNat = 0x80 + n % 0x40 := by
    intro n
    rw [cont, UInt8.toNat_ofNat', Nat.mod_eq_of_lt (by omega)]
  rw [push_wtf8, if_neg (by omega), if_neg (by omega), if_pos (by omega), hlead]
  refine if_pos ⟨⟨?_, ?_⟩, ?_, ?_⟩
  all_goals
    rw [UInt8.le_iff_toNat_le, hcont]
    simp only [UInt8.reduceToNat]
    omega

/-- Characters are shown as they are, and the lone surrogate behind them by its marker. -/
theorem render_run (text : Str) {cp : Nat} (hcp : Surrogate cp) (rest : List UInt8) :
    render_malformed .Normalized (as_bytes text ++ (push_wtf8 cp ++ rest)) =
      text ++ (bad_marker cp ++ render_malformed .Normalized rest) := by
  have hgood := valid_up_to_eq text hcp rest
  have hne : as_bytes text ++ (push_wtf8 cp ++ rest) ≠ [] := fun h =>
    push_wtf8_ne_nil cp (List.append_eq_nil_iff.mp (List.append_eq_nil_iff.mp h).2).1
  have hbad : from_utf8 (as_bytes text ++ (push_wtf8 cp ++ rest)) = none := by
    by_contra hsome
    have hall : (from_utf8 ((as_bytes text ++ (push_wtf8 cp ++ rest)).take
        (as_bytes text ++ (push_wtf8 cp ++ rest)).length)).isSome = true := by
      rw [List.take_length]
      exact Option.isSome_iff_ne_none.mpr hsome
    have hle := Nat.le_findGreatest (P := fun good =>
      (from_utf8 ((as_bytes text ++ (push_wtf8 cp ++ rest)).take good)).isSome = true) (le_refl _) hall
    rw [← valid_up_to, hgood, List.length_append, List.length_append] at hle
    have hpos := List.length_pos_iff.mpr (push_wtf8_ne_nil cp)
    omega
  rw [render_malformed, dif_neg hne]
  simp only [hbad, hgood, List.take_left, List.drop_left, from_utf8_as_bytes, Option.getD_some]
  split
  · next b1 b2 tail heq =>
    rw [hgood, List.drop_left, lone_surrogate_push hcp, Option.some.injEq, Prod.mk.injEq, Prod.mk.injEq] at heq
    obtain ⟨rfl, rfl, rfl⟩ := heq
    rw [MalformedRender.surrogate, surrogate_unit_eq hcp]
  · next heq =>
    rw [hgood, List.drop_left, lone_surrogate_push hcp] at heq
    cases heq

theorem render_text (text : Str) : render_malformed .Normalized (as_bytes text) = text := by
  rw [render_malformed]
  split
  · next hnil => exact (as_bytes_eq_nil.mp hnil).symm
  · rw [from_utf8_as_bytes]

theorem render_points (text : Str) (hpoints : ∀ cp ∈ points, cp < 0x110000) :
    render_malformed .Normalized (as_bytes text ++ points.flatMap push_wtf8) = text ++ points.flatMap shown := by
  induction points generalizing text with
  | nil => rw [List.flatMap_nil, List.flatMap_nil, List.append_nil, List.append_nil, render_text]
  | cons cp points ih =>
    have hrest := fun later hlater => hpoints later (List.mem_cons_of_mem cp hlater)
    rw [List.flatMap_cons, List.flatMap_cons]
    by_cases hcp : Surrogate cp
    · have hnext := ih [] hrest
      rw [as_bytes_nil, List.nil_append, List.nil_append] at hnext
      rw [render_run text hcp, hnext, shown, if_pos hcp]
    · have hscalar : (Char.ofNat cp).toNat = cp := by
        refine toNat_ofNat_of_scalar ?_
        have hlt := hpoints cp List.mem_cons_self
        rw [Surrogate] at hcp
        omega
      have hbytes : push_wtf8 cp = as_bytes [Char.ofNat cp] := by rw [as_bytes_singleton, ← push_wtf8_char, hscalar]
      rw [hbytes, ← List.append_assoc, ← as_bytes_append, ih _ hrest, shown, if_neg hcp, List.append_assoc]

end rendered

example : bad_marker 0xDCFF = ['<', 'B', 'A', 'D', ':', 'D', 'C', 'F', 'F', '>'] := by decide

/-- The text of a marker stands in the name itself. -/
def HasMarkerText (points : List Nat) : Prop := ∃ cp, Surrogate cp ∧ (bad_marker cp).map Char.toNat <:+: points

section apart

theorem hex_digit_injective : ∀ a < 16, ∀ b < 16, hex_digit a = hex_digit b → a = b := by decide

theorem hex_digit_ne : ∀ a < 16, '<' ≠ hex_digit a := by decide

theorem nibble_eq (unit shift : Nat) : unit >>> shift &&& 0xF = unit / 2 ^ shift % 16 := by
  rw [Nat.shiftRight_eq_div_pow]
  exact Nat.and_two_pow_sub_one_eq_mod _ 4

theorem bad_marker_eq (unit : Nat) : bad_marker unit = '<' :: (['B', 'A', 'D', ':'] ++
    [12, 8, 4, 0].map (fun shift => hex_digit (unit / 2 ^ shift % 16)) ++ ['>']) := by
  rw [bad_marker]
  simp only [nibble_eq]
  rfl

theorem bad_marker_injective {cp cp' : Nat} (hcp : Surrogate cp) (hcp' : Surrogate cp') (h : bad_marker cp = bad_marker cp') :
    cp = cp' := by
  obtain ⟨-, hhigh⟩ := hcp
  obtain ⟨-, hhigh'⟩ := hcp'
  have hdigit : ∀ a b : Nat, hex_digit (a % 16) = hex_digit (b % 16) → a % 16 = b % 16 := fun a b =>
    hex_digit_injective _ (Nat.mod_lt _ (by decide)) _ (Nat.mod_lt _ (by decide))
  rw [bad_marker_eq, bad_marker_eq] at h
  simp only [List.map_cons, List.map_nil, List.cons_append, List.nil_append, List.cons.injEq, true_and, and_true] at h
  obtain ⟨h12, h8, h4, h0⟩ := h
  have h12 := hdigit _ _ h12
  have h8 := hdigit _ _ h8
  have h4 := hdigit _ _ h4
  have h0 := hdigit _ _ h0
  omega

theorem shown_ne_nil (cp : Nat) : shown cp ≠ [] := by
  unfold shown
  split
  · exact List.cons_ne_nil _ _
  · exact List.cons_ne_nil _ _

theorem ofNat_toNat {cp : Nat} (hcp : ¬ Surrogate cp) (hlt : cp < 0x110000) : (Char.ofNat cp).toNat = cp := by
  refine toNat_ofNat_of_scalar ?_
  rw [Surrogate] at hcp
  omega

/-- What is shown without a bracket is shown of characters. -/
theorem prefix_of_shown {text front : Str} (htext : '<' ∉ text) (hpoints : ∀ cp ∈ points, cp < 0x110000)
    (h : text ++ front = points.flatMap shown) : text.map Char.toNat <+: points := by
  induction text generalizing points with
  | nil => exact List.nil_prefix
  | cons ch text ih =>
    rw [List.mem_cons, not_or] at htext
    cases points with
    | nil => cases h
    | cons cp points =>
      rw [List.flatMap_cons, shown] at h
      split at h
      · exact absurd (List.head_eq_of_cons_eq h).symm htext.1
      · next hcp =>
        obtain ⟨hch, hrest⟩ := List.cons.inj h
        rw [List.map_cons, hch, ofNat_toNat hcp (hpoints cp List.mem_cons_self), List.cons_prefix_cons]
        exact ⟨rfl, ih htext.2 (fun later hlater => hpoints later (List.mem_cons_of_mem _ hlater)) hrest⟩

theorem hasMarkerText_of_shown {cp c : Nat} (hcp : Surrogate cp) (hc : ¬ Surrogate c) {front : Str}
    (hpoints : ∀ cp ∈ c :: points, cp < 0x110000) (h : bad_marker cp ++ front = shown c ++ points.flatMap shown) :
    HasMarkerText (c :: points) := by
  have hmarker := bad_marker_eq cp
  have hfree : '<' ∉ ['B', 'A', 'D', ':'] ++ [12, 8, 4, 0].map (fun shift => hex_digit (cp / 2 ^ shift % 16)) ++ ['>'] := by
    intro hmem
    rcases List.mem_append.mp hmem with hmem | hmem
    · rcases List.mem_append.mp hmem with hmem | hmem
      · exact absurd hmem (by decide)
      · obtain ⟨shift, -, hdigit⟩ := List.mem_map.mp hmem
        exact hex_digit_ne _ (Nat.mod_lt _ (by decide)) hdigit.symm
    · exact absurd hmem (by decide)
  rw [hmarker, shown, if_neg hc] at h
  obtain ⟨hch, hrest⟩ := List.cons.inj h
  refine ⟨cp, hcp, List.IsPrefix.isInfix ?_⟩
  rw [hmarker, List.map_cons, hch, ofNat_toNat hc (hpoints c List.mem_cons_self), List.cons_prefix_cons]
  exact ⟨rfl, prefix_of_shown hfree (fun later hlater => hpoints later (List.mem_cons_of_mem _ hlater)) hrest⟩

/-- A name without the text of a marker is read off from what is shown of it. -/
theorem shown_injective {points' : List Nat} (hpoints : ∀ cp ∈ points, cp < 0x110000)
    (hpoints' : ∀ cp ∈ points', cp < 0x110000) (hfree : ¬ HasMarkerText points) (hfree' : ¬ HasMarkerText points')
    (h : points.flatMap shown = points'.flatMap shown) : points = points' := by
  induction points generalizing points' with
  | nil =>
    cases points' with
    | nil => rfl
    | cons c points' => exact absurd (List.append_eq_nil_iff.mp h.symm).1 (shown_ne_nil c)
  | cons cp points ih =>
    cases points' with
    | nil => exact absurd (List.append_eq_nil_iff.mp h).1 (shown_ne_nil cp)
    | cons c points' =>
      rw [List.flatMap_cons, List.flatMap_cons] at h
      have htail := fun hrest => ih (fun later hlater => hpoints later (List.mem_cons_of_mem _ hlater))
        (fun later hlater => hpoints' later (List.mem_cons_of_mem _ hlater))
        (fun hmarker => hfree (hmarker.imp fun _ hin => ⟨hin.1, hin.2.trans (List.suffix_cons _ _).isInfix⟩))
        (fun hmarker => hfree' (hmarker.imp fun _ hin => ⟨hin.1, hin.2.trans (List.suffix_cons _ _).isInfix⟩)) hrest
      by_cases hcp : Surrogate cp
      · by_cases hc : Surrogate c
        · rw [shown, shown, if_pos hcp, if_pos hc] at h
          obtain ⟨hmarker, hrest⟩ := List.append_inj h rfl
          rw [bad_marker_injective hcp hc hmarker, htail hrest]
        · rw [shown, if_pos hcp] at h
          exact absurd (hasMarkerText_of_shown hcp hc hpoints' h) hfree'
      · by_cases hc : Surrogate c
        · rw [shown.eq_def c, if_pos hc] at h
          exact absurd (hasMarkerText_of_shown hc hcp hpoints h.symm) hfree
        · rw [shown, shown, if_neg hcp, if_neg hc] at h
          obtain ⟨hch, hrest⟩ := List.cons.inj h
          have hsame := congrArg Char.toNat hch
          rw [ofNat_toNat hcp (hpoints cp List.mem_cons_self), ofNat_toNat hc (hpoints' c List.mem_cons_self)] at hsame
          rw [hsame, htail hrest]

end apart

/-- A stored name is shown with its characters in order and a marker for each lone surrogate, and two names are shown
alike only if one of them has the text of a marker in it. -/
theorem malformed_names_shown :
    (∀ name : List UInt8, render_malformed .Normalized (DecodedName.of_utf16le name).stored =
      (code_points (utf16_units name)).flatMap shown) ∧
    ∀ name name' : List UInt8, ¬ HasMarkerText (code_points (utf16_units name)) →
      ¬ HasMarkerText (code_points (utf16_units name')) →
        (DecodedName.of_utf16le name).stored ≠ (DecodedName.of_utf16le name').stored →
          render_malformed .Normalized (DecodedName.of_utf16le name).stored ≠
            render_malformed .Normalized (DecodedName.of_utf16le name').stored := by
  have hshown : ∀ name : List UInt8, render_malformed .Normalized (DecodedName.of_utf16le name).stored =
      (code_points (utf16_units name)).flatMap shown := by
    intro name
    rw [stored_eq_wtf8, wtf8_units_eq]
    exact render_points [] (code_points_lt _)
  refine ⟨hshown, fun name name' hfree hfree' hne heq => hne ?_⟩
  rw [hshown, hshown] at heq
  rw [stored_eq_wtf8, stored_eq_wtf8, wtf8_units_eq, wtf8_units_eq,
    shown_injective (code_points_lt _) (code_points_lt _) hfree hfree' heq]

theorem not_hasMarkerText_of_short (h : points.length < 10) : ¬ HasMarkerText points := by
  rintro ⟨cp, -, hinfix⟩
  exact absurd hinfix.length_le (Nat.not_le_of_lt h)

theorem malformed_names_shown_lone :
    render_malformed .Normalized (DecodedName.of_utf16le [0x00, 0xDC]).stored ≠
      render_malformed .Normalized (DecodedName.of_utf16le [0x01, 0xDC]).stored :=
  malformed_names_shown.2 _ _ (not_hasMarkerText_of_short (by decide)) (not_hasMarkerText_of_short (by decide)) (by decide)

end uffs.compact
