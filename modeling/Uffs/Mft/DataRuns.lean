import Uffs.Lib.Overflow

open uffs.lib uffs.lib.bytes uffs.lib.overflow

namespace uffs.mft

/-! Mapping pairs: runs of clusters as fields of variable width, and the decoder of them. -/

/-- A run of clusters; LCN 0 stands for a sparse one. -/
structure DataRun where
  vcn : Int64
  cluster_count : UInt64
  lcn : Int64
deriving DecidableEq

def DataRun.is_sparse (self : DataRun) : Bool := self.lcn == 0

section code

def parse_variable_length_unsigned (data : List UInt8) : Option UInt64 := accumulate 0 0 data

/-- The bits of an `i64`, the sign filled in above a field of less than eight bytes. -/
def parse_variable_length_signed (data : List UInt8) : Option Int64 :=
  match data.getLast? with
  | none => some 0
  | some last_byte => do
    let value ← accumulate 0 0 data
    if last_byte &&& 0x80 ≠ 0 ∧ data.length * 8 < 64 then
      let sign ← shl_u64 0xFFFFFFFFFFFFFFFF (data.length * 8)
      return (value ||| sign).toInt64
    else return value.toInt64

/-- The decoder between two runs: what is left to read, and the totals. -/
structure DataRunIter where
  data : List UInt8
  offset : Nat
  current_vcn : Int64
  current_lcn : Int64

namespace DataRunIter

/-- Ended: behind the data. -/
def ended (self : DataRunIter) : DataRunIter := { self with offset := self.data.length }

/-- The run of the fields read, and the totals behind it. -/
def emit (self : DataRunIter) (offset : Nat) (run_length : UInt64) (lcn_delta : Int64) (offset_size : Nat) :
    Option (Option DataRun × DataRunIter) := do
  let current_lcn ← add_i64 self.current_lcn lcn_delta
  let run : DataRun := {
    vcn := self.current_vcn
    cluster_count := run_length
    lcn := if 0 < offset_size then current_lcn else 0 }
  let current_vcn ←
    if run_length.toNat < 2 ^ 63 then add_i64 self.current_vcn run_length.toInt64 else some self.current_vcn
  return (some run, { self with offset, current_vcn, current_lcn })

/-- `next`; `none` where an addition or a shift overflows. -/
def next (self : DataRunIter) : Option (Option DataRun × DataRunIter) :=
  match self.data[self.offset]? with
  | none => some (none, self)
  | some header =>
    if header = 0 then some (none, self.ended)
    else
      let length_size := header.toNat % 16
      let offset_size := header.toNat / 16
      let offset := self.offset + 1
      match slice? self.data offset (offset + length_size) with
      | none => some (none, self.ended)
      | some length_bytes => do
        let run_length ← parse_variable_length_unsigned length_bytes
        let offset := offset + length_size
        if 0 < offset_size then
          match slice? self.data offset (offset + offset_size) with
          | none => some (none, self.ended)
          | some offset_bytes => do
            let lcn_delta ← parse_variable_length_signed offset_bytes
            self.emit (offset + offset_size) run_length lcn_delta offset_size
        else self.emit (offset + offset_size) run_length 0 offset_size

end DataRunIter

/-- Why a list of runs does not come out: an overflow, or the fuel of the model. -/
inductive Halt where
  | overflow
  | unfinished
deriving DecidableEq

/-- The runs of at most `fuel` calls of `next`. -/
def collect : Nat → DataRunIter → Except Halt (List DataRun)
  | 0, _ => .error .unfinished
  | fuel + 1, iter =>
    match iter.next with
    | none => .error .overflow
    | some (none, _) => .ok []
    | some (some run, iter) => (collect fuel iter).map (run :: ·)

def parse_data_runs (data : List UInt8) (lowest_vcn : Int64) : Except Halt (List DataRun) :=
  collect (data.length + 1) ⟨data, 0, lowest_vcn, 0⟩

end code

section values

theorem parse_variable_length_unsigned_eq (data : List UInt8) :
    parse_variable_length_unsigned data =
      if data.length ≤ 8 then some (UInt64.ofNat (from_le_bytes data)) else none := by
  rw [parse_variable_length_unsigned, accumulate_eq (by simp) (by decide)]
  simp

theorem pow_le_word {width : Nat} (h : width ≤ 8) : 256 ^ width ≤ 2 ^ 64 :=
  (Nat.pow_le_pow_right (by decide) h).trans (by decide)

theorem parse_variable_length_signed_eq (data : List UInt8) :
    parse_variable_length_signed data =
      if data.length ≤ 8 then some (Int64.ofInt (signed_value data)) else none := by
  rw [parse_variable_length_signed]
  cases hlast : data.getLast? with
  | none =>
    obtain rfl := List.getLast?_eq_none_iff.mp hlast
    rfl
  | some last_byte =>
    have hsign := sign_bit_iff hlast
    have hlt := from_le_bytes_lt data
    simp only
    rw [accumulate_eq (by simp) (by decide)]
    simp only [Nat.zero_add, Nat.pow_zero, Nat.one_mul, UInt64.toNat_zero]
    by_cases hwidth : data.length ≤ 8
    · have hword := pow_le_word hwidth
      have hvalue : (UInt64.ofNat (from_le_bytes data)).toNat = from_le_bytes data := by
        rw [UInt64.toNat_ofNat']
        exact Nat.mod_eq_of_lt (by omega)
      have hcast : ((256 ^ data.length : Nat) : Int) = 256 ^ data.length := by norm_cast
      rw [if_pos hwidth, Option.bind_eq_bind, Option.bind_some, if_pos hwidth, signed_value, ← hcast]
      split
      · next hfill =>
        have hpow : 256 ^ data.length = 2 ^ (data.length * 8) := by rw [Nat.mul_comm, Nat.pow_mul]
        have hor := toNat_or_above (hvalue.symm ▸ hpow ▸ hlt) (toNat_ones_shl hfill.2)
        have hsplit : 2 ^ (64 - data.length * 8) * 2 ^ (data.length * 8) = 2 ^ 64 := by
          rw [← Nat.pow_add, Nat.sub_add_cancel hfill.2.le]
        rw [hvalue, Nat.sub_mul, Nat.one_mul, hsplit, ← hpow] at hor
        rw [if_pos (hsign.mp hfill.1), shl_u64, if_pos hfill.2, Option.bind_some]
        apply congrArg some
        apply toInt64_eq_ofInt
        rw [hor, ← Int.add_emod_right, Int.emod_eq_of_lt] <;> omega
      · next hplain =>
        apply congrArg some
        apply toInt64_eq_ofInt
        rw [hvalue]
        split
        · next hset =>
          have hfull : data.length = 8 := by
            by_contra hshort
            exact hplain ⟨hsign.mpr hset, by omega⟩
          rw [hfull] at hlt ⊢
          rw [← Int.add_emod_right, Int.emod_eq_of_lt] <;> omega
        · rw [Int.emod_eq_of_lt] <;> omega
    · rw [if_neg hwidth, if_neg hwidth]
      rfl

end values

section fields

/-- What stands behind one header byte; no offset field where the bytes end before it. -/
structure MappingField where
  length_bytes : List UInt8
  offset_bytes : Option (List UInt8)
deriving DecidableEq

/-- The fields of the bytes up to the terminator, or to a field that is cut off. -/
def split_fields : Nat → List UInt8 → List MappingField
  | _, [] => []
  | 0, _ => []
  | fuel + 1, header :: rest =>
    if header = 0 || rest.length < header.toNat % 16 then []
    else
      let after := rest.drop (header.toNat % 16)
      if after.length < header.toNat / 16 then [⟨rest.take (header.toNat % 16), none⟩]
      else
        ⟨rest.take (header.toNat % 16), some (after.take (header.toNat / 16))⟩ ::
          split_fields fuel (after.drop (header.toNat / 16))

def mapping_fields (data : List UInt8) : List MappingField := split_fields data.length data

/-- How far a run carries the VCN. -/
def carry (length_bytes : List UInt8) : Int :=
  if from_le_bytes length_bytes < 2 ^ 63 then from_le_bytes length_bytes else 0

/-- No field is wider than a word, and both totals stay in range. -/
def fits : Int → Int → List MappingField → Bool
  | _, _, [] => true
  | vcn, lcn, ⟨length_bytes, offset_bytes⟩ :: rest =>
    length_bytes.length ≤ 8 &&
      match offset_bytes with
      | none => true
      | some offset_bytes =>
        offset_bytes.length ≤ 8 && in_i64 (lcn + signed_value offset_bytes) && in_i64 (vcn + carry length_bytes) &&
          fits (vcn + carry length_bytes) (lcn + signed_value offset_bytes) rest

/-- The runs that the fields stand for. -/
def field_runs : Int → Int → List MappingField → List DataRun
  | _, _, [] => []
  | _, _, ⟨_, none⟩ :: _ => []
  | vcn, lcn, ⟨length_bytes, some offset_bytes⟩ :: rest =>
    { vcn := Int64.ofInt vcn
      cluster_count := UInt64.ofNat (from_le_bytes length_bytes)
      lcn := if offset_bytes.isEmpty then 0 else Int64.ofInt (lcn + signed_value offset_bytes) } ::
      field_runs (vcn + carry length_bytes) (lcn + signed_value offset_bytes) rest

end fields

section decoding

variable {data : List UInt8} {offset : Nat} {vcn lcn : Int}

theorem slice?_drop (values : List UInt8) (start width : Nat) (h : start ≤ values.length) :
    slice? values start (start + width) =
      if (values.drop start).length < width then none else some ((values.drop start).take width) := by
  rw [slice?, List.length_drop]
  by_cases hroom : start + width ≤ values.length
  · rw [if_pos ⟨Nat.le_add_right _ _, hroom⟩, if_neg (by omega), Nat.add_sub_cancel_left]
  · rw [if_neg fun hin => hroom hin.2, if_pos (by omega)]

/-- The fields of a run that fits go into the totals. -/
theorem emit_eq (hvcn : in_i64 vcn = true) (hlcn : in_i64 lcn = true) (behind : Nat) {length_bytes : List UInt8}
    (hlength : length_bytes.length ≤ 8) (delta : Int) (hdelta : in_i64 delta = true) (offset_size : Nat) :
    DataRunIter.emit ⟨data, offset, Int64.ofInt vcn, Int64.ofInt lcn⟩ behind (UInt64.ofNat (from_le_bytes length_bytes))
        (Int64.ofInt delta) offset_size =
      if in_i64 (lcn + delta) && in_i64 (vcn + carry length_bytes) then
        some (some ⟨Int64.ofInt vcn, UInt64.ofNat (from_le_bytes length_bytes),
            if 0 < offset_size then Int64.ofInt (lcn + delta) else 0⟩,
          ⟨data, behind, Int64.ofInt (vcn + carry length_bytes), Int64.ofInt (lcn + delta)⟩)
      else none := by
  have hword := pow_le_word hlength
  have hlt := from_le_bytes_lt length_bytes
  have hcount : (UInt64.ofNat (from_le_bytes length_bytes)).toNat = from_le_bytes length_bytes := by
    rw [UInt64.toNat_ofNat']
    exact Nat.mod_eq_of_lt (by omega)
  rw [DataRunIter.emit, add_i64_eq, toInt_ofInt hlcn, toInt_ofInt hdelta, hcount]
  by_cases htotal : in_i64 (lcn + delta) = true
  · rw [if_pos htotal, Option.bind_eq_bind, Option.bind_some, htotal, Bool.true_and]
    by_cases hsmall : from_le_bytes length_bytes < 2 ^ 63
    · have hcarry : carry length_bytes = from_le_bytes length_bytes := if_pos hsmall
      have hadvance : (UInt64.ofNat (from_le_bytes length_bytes)).toInt64.toInt = from_le_bytes length_bytes := by
        have hcast : (UInt64.ofNat (from_le_bytes length_bytes)).toInt64 = Int64.ofInt (from_le_bytes length_bytes) := by
          apply toInt64_eq_ofInt
          rw [hcount, Int.emod_eq_of_lt] <;> omega
        rw [hcast, toInt_ofInt]
        exact in_i64_iff.mpr ⟨by omega, by omega⟩
      rw [if_pos hsmall, add_i64_eq, toInt_ofInt hvcn, hadvance, ← hcarry]
      by_cases hsum : in_i64 (vcn + carry length_bytes) = true
      · rw [if_pos hsum, if_pos hsum]
        rfl
      · rw [if_neg hsum, if_neg hsum]
        rfl
    · have hcarry : carry length_bytes = 0 := if_neg hsmall
      rw [if_neg hsmall, hcarry, Int.add_zero, if_pos hvcn]
      rfl
  · rw [if_neg htotal, Bool.eq_false_iff.mpr htotal]
    rfl

theorem split_fields_enough {fuel : Nat} (h : data.length ≤ fuel) : split_fields fuel data = mapping_fields data := by
  have hany : ∀ n m (data : List UInt8), data.length ≤ n → data.length ≤ m → split_fields n data = split_fields m data := by
    intro n
    induction n with
    | zero =>
      intro m data hn _
      obtain rfl := List.length_eq_zero_iff.mp (Nat.le_zero.mp hn)
      simp [split_fields]
    | succ n ih =>
      intro m data hn hm
      cases data with
      | nil => simp [split_fields]
      | cons header rest =>
        cases m with
        | zero => cases hm
        | succ m =>
          rw [List.length_cons] at hn hm
          rw [split_fields, split_fields]
          dsimp only
          rw [ih m]
          · rw [List.length_drop, List.length_drop]
            omega
          · rw [List.length_drop, List.length_drop]
            omega
  exact hany _ _ data h (Nat.le_refl _)

theorem mapping_fields_cons (header : UInt8) (rest : List UInt8) :
    mapping_fields (header :: rest) =
      if header = 0 || rest.length < header.toNat % 16 then []
      else if (rest.drop (header.toNat % 16)).length < header.toNat / 16 then [⟨rest.take (header.toNat % 16), none⟩]
      else
        ⟨rest.take (header.toNat % 16), some ((rest.drop (header.toNat % 16)).take (header.toNat / 16))⟩ ::
          mapping_fields ((rest.drop (header.toNat % 16)).drop (header.toNat / 16)) := by
  rw [mapping_fields, List.length_cons, split_fields]
  dsimp only
  rw [split_fields_enough]
  rw [List.length_drop, List.length_drop]
  omega

theorem in_i64_signed_value {field : List UInt8} (h : field.length ≤ 8) : in_i64 (signed_value field) = true := by
  have hword := pow_le_word h
  have hlt := from_le_bytes_lt field
  have hcast : ((256 ^ field.length : Nat) : Int) = 256 ^ field.length := by norm_cast
  rw [in_i64_iff, signed_value, ← hcast]
  split <;> omega

/-- The decoder stands at a header. -/
theorem at_header {header : UInt8} {rest : List UInt8} (hdata : data.drop offset = header :: rest) :
    data[offset]? = some header ∧ offset < data.length ∧ data.drop (offset + 1) = rest ∧ data.length - offset = rest.length + 1 := by
  have hget : data[offset]? = some header := by
    have := congrArg (·[0]?) hdata
    simpa [List.getElem?_drop] using this
  have hrest : data.drop (offset + 1) = rest := by
    have := congrArg List.tail hdata
    simpa using this
  have hsize := congrArg List.length hdata
  rw [List.length_drop, List.length_cons] at hsize
  exact ⟨hget, (List.getElem?_eq_some_iff.mp hget).1, hrest, hsize⟩

/-- A run whose fields are there goes into the totals, or overflows where it does not fit. -/
theorem next_eq (hvcn : in_i64 vcn = true) (hlcn : in_i64 lcn = true) {header : UInt8} {rest : List UInt8}
    (hdata : data.drop offset = header :: rest) (hheader : header ≠ 0)
    (hlength : header.toNat % 16 ≤ rest.length) (hroom : header.toNat / 16 ≤ (rest.drop (header.toNat % 16)).length) :
    let length_bytes := rest.take (header.toNat % 16)
    let offset_bytes := (rest.drop (header.toNat % 16)).take (header.toNat / 16)
    DataRunIter.next ⟨data, offset, Int64.ofInt vcn, Int64.ofInt lcn⟩ =
      if length_bytes.length ≤ 8 ∧ offset_bytes.length ≤ 8 ∧
          (in_i64 (lcn + signed_value offset_bytes) && in_i64 (vcn + carry length_bytes)) = true then
        some (some ⟨Int64.ofInt vcn, UInt64.ofNat (from_le_bytes length_bytes),
            if offset_bytes.isEmpty then 0 else Int64.ofInt (lcn + signed_value offset_bytes)⟩,
          ⟨data, offset + 1 + header.toNat % 16 + header.toNat / 16, Int64.ofInt (vcn + carry length_bytes),
            Int64.ofInt (lcn + signed_value offset_bytes)⟩)
      else none := by
  intro length_bytes offset_bytes
  obtain ⟨hget, hend, hrest, hsize⟩ := at_header hdata
  have hplace : offset_bytes.length = header.toNat / 16 := by
    rw [List.length_take]
    omega
  have hfirst : slice? data (offset + 1) (offset + 1 + header.toNat % 16) = some length_bytes := by
    rw [slice?_drop _ _ _ hend, hrest, if_neg (by omega)]
  have hsecond : slice? data (offset + 1 + header.toNat % 16) (offset + 1 + header.toNat % 16 + header.toNat / 16) =
      some offset_bytes := by
    rw [slice?_drop _ _ _ (by omega), ← List.drop_drop, hrest, if_neg (by omega)]
  rw [DataRunIter.next]
  rw [hget]
  dsimp only
  rw [if_neg hheader, hfirst]
  dsimp only
  rw [parse_variable_length_unsigned_eq]
  by_cases hnarrow : length_bytes.length ≤ 8
  · rw [if_pos hnarrow, Option.bind_eq_bind, Option.bind_some]
    by_cases hencoded : 0 < header.toNat / 16
    · rw [if_pos hencoded, hsecond]
      dsimp only
      rw [parse_variable_length_signed_eq]
      have hfilled : offset_bytes.isEmpty = false := by
        rw [List.isEmpty_eq_false_iff, ← List.length_pos_iff]
        omega
      by_cases hshort : offset_bytes.length ≤ 8
      · rw [if_pos hshort, Option.bind_eq_bind, Option.bind_some,
          emit_eq hvcn hlcn _ hnarrow _ (in_i64_signed_value hshort), hfilled, if_pos hencoded]
        simp only [hnarrow, hshort, true_and, Bool.false_eq_true, if_false]
      · rw [if_neg hshort, if_neg fun h => hshort h.2.1]
        rfl
    · have hnone : offset_bytes = [] := List.length_eq_zero_iff.mp (by omega)
      have hzero : signed_value [] = 0 := rfl
      have hdelta : (0 : Int64) = Int64.ofInt 0 := rfl
      rw [if_neg hencoded]
      conv_lhs => rw [hdelta]
      rw [emit_eq hvcn hlcn _ hnarrow _ (by decide), hnone, hzero, if_neg hencoded]
      simp [hnarrow]
  · rw [if_neg hnarrow, if_neg fun h => hnarrow h.1]
    rfl

/-- Where the terminator stands or a field is cut off the decoder ends, unless the length read before is too wide. -/
theorem next_cut {header : UInt8} {rest : List UInt8} (hdata : data.drop offset = header :: rest)
    (hcut : header = 0 ∨ rest.length < header.toNat % 16 ∨ (rest.drop (header.toNat % 16)).length < header.toNat / 16) :
    (DataRunIter.next ⟨data, offset, Int64.ofInt vcn, Int64.ofInt lcn⟩).map Prod.fst =
      if fits vcn lcn (mapping_fields (header :: rest)) then some none else none := by
  obtain ⟨hget, hend, hrest, hsize⟩ := at_header hdata
  rw [DataRunIter.next]
  rw [hget]
  dsimp only
  by_cases hzero : header = 0
  · rw [mapping_fields_cons, if_pos hzero, hzero]
    rfl
  · rw [if_neg hzero, slice?_drop _ _ _ hend, hrest]
    by_cases hshort : rest.length < header.toNat % 16
    · have hfields : mapping_fields (header :: rest) = [] := by
        rw [mapping_fields_cons, if_pos (by simp [hshort])]
      rw [if_pos hshort, hfields]
      rfl
    · have hafter := (hcut.resolve_left hzero).resolve_left hshort
      have hfields : mapping_fields (header :: rest) = [⟨rest.take (header.toNat % 16), none⟩] := by
        rw [mapping_fields_cons, if_neg (by simp [hzero, Nat.not_lt.mp hshort]), if_pos hafter]
      rw [if_neg hshort, hfields]
      dsimp only
      rw [parse_variable_length_unsigned_eq, fits]
      by_cases hnarrow : (rest.take (header.toNat % 16)).length ≤ 8
      · rw [if_pos hnarrow, Option.bind_eq_bind, Option.bind_some, if_pos (by omega), slice?_drop _ _ _ (by omega),
          ← List.drop_drop, hrest, if_pos hafter, decide_eq_true hnarrow]
        rfl
      · rw [if_neg hnarrow, decide_eq_false hnarrow]
        rfl

/-- Enough calls of `next` decode the fields of the bytes, or overflow where they do not fit. -/
theorem collect_runs_eq {fuel : Nat} (hvcn : in_i64 vcn = true) (hlcn : in_i64 lcn = true) (hoffset : offset ≤ data.length)
    (hfuel : data.length - offset < fuel) :
    collect fuel ⟨data, offset, Int64.ofInt vcn, Int64.ofInt lcn⟩ =
      if fits vcn lcn (mapping_fields (data.drop offset)) then
        .ok (field_runs vcn lcn (mapping_fields (data.drop offset)))
      else .error .overflow := by
  induction fuel generalizing offset vcn lcn with
  | zero => omega
  | succ fuel ih =>
    rw [collect]
    cases hdata : data.drop offset with
    | nil =>
      have hend : data.length ≤ offset := List.drop_eq_nil_iff.mp hdata
      rw [DataRunIter.next, List.getElem?_eq_none hend]
      rfl
    | cons header rest =>
      have hsize := congrArg List.length hdata
      rw [List.length_drop, List.length_cons] at hsize
      by_cases hcut : header = 0 ∨ rest.length < header.toNat % 16 ∨
          (rest.drop (header.toNat % 16)).length < header.toNat / 16
      · have hnext := @next_cut _ _ vcn lcn _ _ hdata hcut
        have hnone : field_runs vcn lcn (mapping_fields (header :: rest)) = [] := by
          rw [mapping_fields_cons]
          split
          · rfl
          · next hgo =>
            rw [Bool.or_eq_true, decide_eq_true_eq, decide_eq_true_eq, not_or] at hgo
            rw [if_pos ((hcut.resolve_left hgo.1).resolve_left hgo.2)]
            rfl
        rw [hnone]
        cases hiter : DataRunIter.next ⟨data, offset, Int64.ofInt vcn, Int64.ofInt lcn⟩ with
        | none =>
          rw [hiter] at hnext
          split at hnext
          · cases hnext
          · next hwide => rw [if_neg hwide]
        | some step =>
          obtain ⟨run, iter⟩ := step
          rw [hiter, Option.map_some] at hnext
          split at hnext
          · next hfits =>
            obtain rfl := Option.some.inj hnext
            rw [if_pos hfits]
          · cases hnext
      · rw [not_or, not_or, Nat.not_lt, Nat.not_lt] at hcut
        obtain ⟨hheader, hlength, hroom⟩ := hcut
        have hfields : mapping_fields (header :: rest) =
            ⟨rest.take (header.toNat % 16), some ((rest.drop (header.toNat % 16)).take (header.toNat / 16))⟩ ::
              mapping_fields ((rest.drop (header.toNat % 16)).drop (header.toNat / 16)) := by
          rw [mapping_fields_cons, if_neg (by simp [hheader, hlength]), if_neg (by omega)]
        rw [next_eq hvcn hlcn hdata hheader hlength hroom, hfields, fits, field_runs]
        have hbehind : (rest.drop (header.toNat % 16)).drop (header.toNat / 16) =
            data.drop (offset + 1 + header.toNat % 16 + header.toNat / 16) := by
          have hrest : data.drop (offset + 1) = rest := by
            have := congrArg List.tail hdata
            simpa using this
          rw [← hrest, List.drop_drop, List.drop_drop, Nat.add_assoc (offset + 1)]
        rw [hbehind]
        rw [List.length_drop] at hroom
        generalize hnarrow : rest.take (header.toNat % 16) = length_bytes
        generalize hplace : (rest.drop (header.toNat % 16)).take (header.toNat / 16) = offset_bytes
        by_cases hstep : length_bytes.length ≤ 8 ∧ offset_bytes.length ≤ 8 ∧
            (in_i64 (lcn + signed_value offset_bytes) && in_i64 (vcn + carry length_bytes)) = true
        · obtain ⟨hl, ho, hsums⟩ := hstep
          obtain ⟨hlcn', hvcn'⟩ := Bool.and_eq_true_iff.mp hsums
          rw [if_pos ⟨hl, ho, hsums⟩]
          dsimp only
          rw [ih hvcn' hlcn' (by omega) (by omega), decide_eq_true hl, decide_eq_true ho, hlcn', hvcn']
          simp only [Bool.true_and]
          by_cases hlater : fits (vcn + carry length_bytes) (lcn + signed_value offset_bytes)
              (mapping_fields (data.drop (offset + 1 + header.toNat % 16 + header.toNat / 16))) = true
          · rw [if_pos hlater, if_pos hlater]
            rfl
          · rw [if_neg hlater, if_neg hlater]
            rfl
        · rw [if_neg hstep, if_neg]
          intro hall
          simp only [Bool.and_eq_true, decide_eq_true_eq] at hall
          exact hstep ⟨hall.1, hall.2.1.1.1, Bool.and_eq_true_iff.mpr ⟨hall.2.1.1.2, hall.2.1.2⟩⟩

theorem parse_data_runs_eq (data : List UInt8) (lowest_vcn : Int64) :
    parse_data_runs data lowest_vcn =
      if fits lowest_vcn.toInt 0 (mapping_fields data) then .ok (field_runs lowest_vcn.toInt 0 (mapping_fields data))
      else .error .overflow := by
  have hzero : (0 : Int64) = Int64.ofInt 0 := rfl
  conv_lhs => rw [parse_data_runs, hzero, ← Int64.ofInt_toInt lowest_vcn]
  exact collect_runs_eq (in_i64_toInt lowest_vcn) (by decide) (Nat.zero_le _) (Nat.lt_succ_self _)

end decoding

section encoding

/-- A run to write: its length, its LCN unless it is sparse, and the widths of the fields. -/
structure MappedRun where
  length : Nat
  length_width : Nat
  /-- LCN and width of its field; none for a sparse run. -/
  place : Option (Int × Nat)
deriving DecidableEq

def MappedRun.lcn (run : MappedRun) : Option Int := run.place.map Prod.fst

/-- The bytes of the runs behind an LCN. -/
def encode_runs : Int → List MappedRun → List UInt8
  | _, [] => []
  | lcn, ⟨length, length_width, none⟩ :: rest =>
    UInt8.ofNat length_width :: le_bytes length_width length ++ encode_runs lcn rest
  | lcn, ⟨length, length_width, some (target, offset_width)⟩ :: rest =>
    UInt8.ofNat (length_width + 16 * offset_width) :: le_bytes length_width length ++
      le_bytes offset_width ((target - lcn) % 256 ^ offset_width).toNat ++ encode_runs target rest

/-- Lengths from 1 to 2^63-1 and distances that fit their fields, totals that stay in range. -/
def Encodes : Int → Int → List MappedRun → Prop
  | _, _, [] => True
  | vcn, lcn, run :: rest =>
    1 ≤ run.length ∧ run.length < 2 ^ 63 ∧ run.length_width ≤ 8 ∧ run.length < 256 ^ run.length_width ∧
      in_i64 (vcn + run.length) = true ∧
      match run.place with
      | none => Encodes (vcn + run.length) lcn rest
      | some (target, offset_width) =>
        in_i64 target = true ∧ 1 ≤ offset_width ∧ offset_width ≤ 8 ∧
          -(256 ^ offset_width : Int) ≤ 2 * (target - lcn) ∧ 2 * (target - lcn) < 256 ^ offset_width ∧
          Encodes (vcn + run.length) target rest

/-- A list of runs from a start VCN on that mapping pairs can hold. -/
structure Runlist where
  start : Int64
  runs : List MappedRun
  encodes : Encodes start.toInt 0 runs

/-- The runs one behind the other, a sparse one at LCN 0. -/
def placed : Int → List MappedRun → List DataRun
  | _, [] => []
  | vcn, run :: rest =>
    ⟨Int64.ofInt vcn, UInt64.ofNat run.length, Int64.ofInt (run.lcn.getD 0)⟩ :: placed (vcn + run.length) rest

/-- Sparse are exactly the runs without an LCN. -/
def MarksSparse (runs : List MappedRun) (decoded : List DataRun) : Prop :=
  List.Forall₂ (fun run found => found.is_sparse = run.lcn.isNone) runs decoded

section roundtrip

variable {vcn lcn : Int} {runs : List MappedRun}

theorem header_widths {length_width offset_width : Nat} (hl : length_width ≤ 8) (ho : offset_width ≤ 8) :
    (UInt8.ofNat (length_width + 16 * offset_width)).toNat % 16 = length_width ∧
      (UInt8.ofNat (length_width + 16 * offset_width)).toNat / 16 = offset_width := by
  rw [UInt8.toNat_ofNat']
  omega

/-- One pair in front of the bytes is one field in front of theirs. -/
theorem mapping_fields_pair {length_width offset_width : Nat} {length_bytes offset_bytes tail : List UInt8}
    (hpos : 1 ≤ length_width) (hl : length_width ≤ 8) (ho : offset_width ≤ 8) (hlength : length_bytes.length = length_width)
    (hoffset : offset_bytes.length = offset_width) :
    mapping_fields (UInt8.ofNat (length_width + 16 * offset_width) :: (length_bytes ++ (offset_bytes ++ tail))) =
      ⟨length_bytes, some offset_bytes⟩ :: mapping_fields tail := by
  obtain ⟨hlow, hhigh⟩ := header_widths hl ho
  have hheader : UInt8.ofNat (length_width + 16 * offset_width) ≠ 0 := by
    intro hzero
    rw [hzero] at hlow
    have : (0 : UInt8).toNat % 16 = 0 := rfl
    omega
  rw [mapping_fields_cons, hlow, hhigh, if_neg, if_neg, ← hlength, List.take_left, List.drop_left, ← hoffset,
    List.take_left, List.drop_left]
  · rw [← hlength, List.drop_left, List.length_append]
    omega
  · simp only [hheader, decide_false, Bool.false_or, decide_eq_true_eq, List.length_append]
    omega

theorem carry_le_bytes {length length_width : Nat} (hlength : length < 2 ^ 63) (hwidth : length < 256 ^ length_width) :
    carry (le_bytes length_width length) = length := by
  rw [carry, from_le_bytes_le_bytes hwidth, if_pos hlength]

theorem length_width_pos {length length_width : Nat} (hlength : 1 ≤ length) (hwidth : length < 256 ^ length_width) :
    1 ≤ length_width := by
  cases length_width with
  | zero =>
    rw [Nat.pow_zero] at hwidth
    omega
  | succ width => exact Nat.succ_pos width

theorem decode_encode (h : Encodes vcn lcn runs) (hlcn : in_i64 lcn = true) (rest : List UInt8) :
    fits vcn lcn (mapping_fields (encode_runs lcn runs ++ 0 :: rest)) = true ∧
      field_runs vcn lcn (mapping_fields (encode_runs lcn runs ++ 0 :: rest)) = placed vcn runs := by
  induction runs generalizing vcn lcn with
  | nil => exact ⟨rfl, rfl⟩
  | cons run runs ih =>
    obtain ⟨length, length_width, place⟩ := run
    obtain ⟨hone, hlength, hwide, hwidth, htotal, hplace⟩ := h
    have hpos : 1 ≤ length_width := length_width_pos hone hwidth
    have hbytes : (le_bytes length_width length).length = length_width := le_bytes_length _ _
    have hvalue : from_le_bytes (le_bytes length_width length) = length := from_le_bytes_le_bytes hwidth
    have hcarry : carry (le_bytes length_width length) = length := carry_le_bytes hlength hwidth
    cases place with
    | none =>
      obtain ⟨hfits, hruns⟩ := ih hplace hlcn
      have hfields : mapping_fields (encode_runs lcn (⟨length, length_width, none⟩ :: runs) ++ 0 :: rest) =
          ⟨le_bytes length_width length, some []⟩ :: mapping_fields (encode_runs lcn runs ++ 0 :: rest) := by
        rw [encode_runs, List.cons_append, List.cons_append, List.append_assoc]
        exact @mapping_fields_pair _ 0 (le_bytes length_width length) [] _ hpos hwide (Nat.zero_le 8) hbytes rfl
      have hdelta : lcn + signed_value [] = lcn := Int.add_zero lcn
      rw [hfields, fits, field_runs, hcarry, hdelta, hvalue, hlcn, htotal, hfits, hruns, hbytes, decide_eq_true hwide]
      exact ⟨rfl, rfl⟩
    | some target =>
      obtain ⟨target, offset_width⟩ := target
      obtain ⟨htarget, hopos, howide, hlow, hhigh, hlater⟩ := hplace
      obtain ⟨hfits, hruns⟩ := ih hlater htarget
      have hobytes : (le_bytes offset_width ((target - lcn) % 256 ^ offset_width).toNat).length = offset_width :=
        le_bytes_length _ _
      have hfields : mapping_fields (encode_runs lcn (⟨length, length_width, some (target, offset_width)⟩ :: runs) ++ 0 :: rest) =
          ⟨le_bytes length_width length, some (le_bytes offset_width ((target - lcn) % 256 ^ offset_width).toNat)⟩ ::
            mapping_fields (encode_runs target runs ++ 0 :: rest) := by
        rw [encode_runs, List.append_assoc, List.append_assoc, List.cons_append]
        exact mapping_fields_pair hpos hwide howide hbytes hobytes
      have hdelta : lcn + signed_value (le_bytes offset_width ((target - lcn) % 256 ^ offset_width).toNat) = target := by
        rw [signed_value_le_bytes hlow hhigh]
        omega
      have hfilled : (le_bytes offset_width ((target - lcn) % 256 ^ offset_width).toNat).isEmpty = false := by
        rw [List.isEmpty_eq_false_iff, ← List.length_pos_iff, hobytes]
        exact hopos
      rw [hfields, fits, field_runs, hcarry, hdelta, hvalue, htarget, htotal, hfits, hruns, hbytes, hobytes, hfilled,
        decide_eq_true hwide, decide_eq_true howide]
      exact ⟨rfl, rfl⟩

/-- A run at LCN 0 is the one that is taken for a sparse run. -/
theorem marks_sparse_iff (h : Encodes vcn lcn runs) :
    MarksSparse runs (placed vcn runs) ↔ ∀ run ∈ runs, run.lcn ≠ some 0 := by
  induction runs generalizing vcn lcn with
  | nil => simp [MarksSparse, placed]
  | cons run runs ih =>
    obtain ⟨-, -, -, -, -, hplace⟩ := h
    have hrest : MarksSparse runs (placed (vcn + run.length) runs) ↔ ∀ run ∈ runs, run.lcn ≠ some 0 := by
      split at hplace
      · exact ih hplace
      · exact ih hplace.2.2.2.2.2
    have hfirst : (Int64.ofInt (run.lcn.getD 0) == 0) = run.lcn.isNone ↔ run.lcn ≠ some 0 := by
      split at hplace
      · next hnone =>
        rw [MappedRun.lcn, hnone]
        simp
      · next target width hsome =>
        rw [MappedRun.lcn, hsome, Option.map_some, Option.getD_some, Option.isNone_some, beq_eq_false_iff_ne, ne_eq, ne_eq,
          Option.some.injEq, ← Int64.toInt_inj, toInt_ofInt hplace.1]
        rfl
    rw [placed, MarksSparse, List.forall₂_cons, List.forall_mem_cons, ← hrest, ← hfirst]
    rfl

end roundtrip

/-- Every encoded list is decoded as it was, its sparse runs told apart exactly where no run lies at LCN 0; all bytes are
decoded without an overflow exactly where their fields are at most eight bytes wide and the totals stay in range. -/
theorem mapping_pairs_decode_iff (list : Runlist) (rest data : List UInt8) (lowest_vcn : Int64) :
    (parse_data_runs (encode_runs 0 list.runs ++ 0 :: rest) list.start = .ok (placed list.start.toInt list.runs) ∧
      (MarksSparse list.runs (placed list.start.toInt list.runs) ↔ ∀ run ∈ list.runs, run.lcn ≠ some 0)) ∧
    parse_data_runs data lowest_vcn ≠ .error .unfinished ∧
      ((∃ runs, parse_data_runs data lowest_vcn = .ok runs) ↔ fits lowest_vcn.toInt 0 (mapping_fields data) = true) := by
  constructor
  · obtain ⟨hfits, hruns⟩ := decode_encode list.encodes (by decide) rest
    refine ⟨?_, marks_sparse_iff list.encodes⟩
    rw [parse_data_runs_eq, if_pos hfits, hruns]
  · rw [parse_data_runs_eq]
    split
    · next hfits =>
      refine ⟨nofun, fun _ => hfits, fun _ => ?_⟩
      exact ⟨_, rfl⟩
    · next hwide =>
      refine ⟨nofun, fun h => ?_, fun hfits => absurd hfits hwide⟩
      obtain ⟨runs, h⟩ := h
      cases h

/-- One cluster at LCN 0, where the boot sector lies. -/
def boot_cluster : Runlist where
  start := 0
  runs := [⟨1, 1, some (0, 1)⟩]
  encodes := by simp [Encodes, in_i64]

/-- The boot cluster is taken for a sparse run, and a length of nine bytes overflows the shift. -/
theorem boot_cluster_sparse_and_wide_length :
    (¬∀ list : Runlist, ∃ decoded, parse_data_runs (encode_runs 0 list.runs ++ [0]) list.start = .ok decoded ∧
      MarksSparse list.runs decoded) ∧
    ¬∀ (data : List UInt8) (lowest_vcn : Int64), ∃ runs, parse_data_runs data lowest_vcn = .ok runs := by
  constructor
  · intro hclaim
    obtain ⟨decoded, hparse, hmarks⟩ := hclaim boot_cluster
    have hboot : parse_data_runs (encode_runs 0 boot_cluster.runs ++ [0]) boot_cluster.start = .ok [⟨0, 1, 0⟩] := by
      decide
    rw [hboot, Except.ok.injEq] at hparse
    subst hparse
    obtain ⟨hfirst, -⟩ := List.forall₂_cons.mp hmarks
    revert hfirst
    decide
  · intro hclaim
    obtain ⟨runs, hparse⟩ := hclaim [0x09, 1, 0, 0, 0, 0, 0, 0, 0, 0] 0
    have hwide : parse_data_runs [0x09, 1, 0, 0, 0, 0, 0, 0, 0, 0] 0 = .error .overflow := by decide
    rw [hwide] at hparse
    cases hparse

end encoding

end uffs.mft
