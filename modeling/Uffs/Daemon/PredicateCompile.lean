import Uffs.Lib.Mask
import Uffs.Daemon.PredicateBounds

open uffs.lib uffs.text uffs.search

namespace uffs.daemon

/-! What one compiled predicate adds to the tests of the scan. -/

section bounds

variable {α : Type} [LT α] [DecidableLT α] [DecidableEq α] (succ pred : α → α)

/-- A bound put into a pair of filters; an equality replaces both. -/
def merge_bound (op : SearchPredicateOp) (value : α) (min max : Option α) : Option α × Option α :=
  match op with
  | .Gte => (merge_min min value, max)
  | .Lte => (min, merge_max max value)
  | .Gt => (merge_min min (succ value), max)
  | .Lt => (min, merge_max max (pred value))
  | .Eq => (some value, some value)
  | _ => (min, max)

/-- What the bound tests. -/
def bound_check (op : SearchPredicateOp) (value n : α) : Bool :=
  match op with
  | .Gte => !decide (n < value)
  | .Lte => !decide (value < n)
  | .Gt => !decide (n < succ value)
  | .Lt => !decide (pred value < n)
  | .Eq => n = value
  | _ => true

def within (bounds : Option α × Option α) (n : α) : Bool := at_least bounds.1 n && at_most bounds.2 n

variable {succ pred}

/-- An equality does no harm to bounds that its value meets. -/
theorem within_merge_bound {key : α → Int} (hkey : ∀ a b, a < b ↔ key a < key b) (hinj : ∀ a b, key a = key b → a = b)
    {op : SearchPredicateOp} {value n : α} {min max : Option α} (hfree : op = .Eq → within (min, max) value = true) :
    within (merge_bound succ pred op value min max) n = (within (min, max) n && bound_check succ pred op value n) := by
  cases op with
  | Gte | Gt =>
    simp only [within, merge_bound, bound_check, at_least_merge_min hkey]
    ac_rfl
  | Lte | Lt =>
    simp only [within, merge_bound, bound_check, at_most_merge_max hkey]
    ac_rfl
  | Eq =>
    have hval : within (some value, some value) n = decide (n = value) := by
      rw [Bool.eq_iff_iff]
      simp only [within, at_least, at_most, Option.all_some, hkey, Bool.and_eq_true, Bool.not_eq_true',
        decide_eq_false_iff_not, decide_eq_true_eq]
      exact ⟨fun h => hinj n value (by omega), fun h => by subst h; omega⟩
    simp only [merge_bound, bound_check, hval]
    by_cases heq : n = value
    · subst heq
      simp [hfree rfl]
    · simp [heq]
  | Ne | In | NotIn | HasAll | HasAny | HasNone | Match | NotMatch | Contains | StartsWith | EndsWith =>
    simp [merge_bound, bound_check]

/-- The test of a bound in numbers, when the type ends at the cap. -/
theorem bound_check_eq_capped {key : α → Nat} (hkey : ∀ a b, a < b ↔ key a < key b) (hinj : ∀ a b, key a = key b → a = b)
    {cap : Nat} (hsucc : ∀ a, key (succ a) = min (key a + 1) cap) (hpred : ∀ a, key (pred a) = key a - 1)
    {op : SearchPredicateOp} {value n : α} {v k : Nat} (hvalue : key value = min v cap) (hn : key n = min k cap) :
    bound_check succ pred op value n = capped_check cap op v k := by
  cases op with
  | Gte | Lte | Gt | Lt =>
    simp only [bound_check, capped_check, hkey, hsucc, hpred, hvalue, hn, ← decide_not, decide_eq_decide]
    omega
  | Eq =>
    simp only [bound_check, capped_check, decide_eq_decide, ← hvalue, ← hn]
    exact ⟨congrArg key, hinj n value⟩
  | Ne | In | NotIn | HasAll | HasAny | HasNone | Match | NotMatch | Contains | StartsWith | EndsWith => rfl

end bounds

section times

variable {parse_time_bound : TimeParser} {now_us : Int64}

/-- What a time predicate tests. -/
def time_check (parse_time_bound : TimeParser) (now_us : Int64) (predicate : SearchPredicate) (time : Int64) : Bool :=
  match time_bound parse_time_bound now_us predicate with
  | none => true
  | some bound =>
    match predicate.op with
    | .Gte => !decide (time < bound)
    | .Lt => decide (time < bound)
    | _ => true

theorem Int64.key (a b : Int64) : a < b ↔ a.toInt < b.toInt := Int64.lt_iff_toInt_lt

theorem compile_time_check (predicate : SearchPredicate) (newer older : Option Int64) (time : Int64) :
    (at_least (compile_time parse_time_bound now_us predicate newer older).1 time &&
        older_than (compile_time parse_time_bound now_us predicate newer older).2 time) =
      (at_least newer time && older_than older time && time_check parse_time_bound now_us predicate time) := by
  unfold compile_time time_check
  cases time_bound parse_time_bound now_us predicate with
  | none => simp
  | some bound =>
    cases predicate.op with
    | Gte =>
      simp only [at_least_merge_min Int64.key]
      ac_rfl
    | Lt =>
      simp only [older_than_merge_max Int64.key]
      ac_rfl
    | Eq | Ne | Lte | Gt | In | NotIn | HasAll | HasAny | HasNone | Match | NotMatch | Contains | StartsWith | EndsWith =>
      simp

end times

section attributes

theorem attr_bit_zero_or_bit (name : Str) : attr_bit name = 0 ∨ ∃ k < 32, attr_bit name = UInt32.ofNat (2 ^ k) := by
  have hbits : ∀ entry ∈ attr_bits, ∃ k < 32, entry.2 = UInt32.ofNat (2 ^ k) := by decide
  unfold attr_bit
  cases hfound : attr_bits.find? fun entry => entry.1.any fun known => known.toList == name with
  | none => exact .inl rfl
  | some entry => exact .inr (hbits entry (List.mem_of_find?_eq_some hfound))

/-- A known attribute is one bit. -/
theorem flag_set_iff {name : Str} (hknown : attr_bit name ≠ 0) (flags : UInt32) :
    flag_set flags name = true ↔ flags &&& attr_bit name = attr_bit name := by
  rw [flag_set, bne_iff_ne]
  obtain hzero | ⟨k, hk, hbit⟩ := attr_bit_zero_or_bit name
  · exact absurd hzero hknown
  · rw [hbit]
    exact mask.and_bit_ne_zero_iff hk flags

theorem flag_set_unknown {name : Str} (hunknown : attr_bit name = 0) (flags : UInt32) : flag_set flags name = false := by
  simp [flag_set, hunknown]

/-- Every bit of the mask is set. -/
def requires (mask flags : UInt32) : Bool := !(mask != 0 && flags &&& mask != mask)

/-- No bit of the mask is set. -/
def excludes (mask flags : UInt32) : Bool := !(mask != 0 && flags &&& mask != 0)

theorem requires_iff {mask flags : UInt32} : requires mask flags = true ↔ flags &&& mask = mask := by
  by_cases hzero : mask = 0
  · simp [requires, hzero]
  · simp [requires, hzero]

theorem excludes_iff {mask flags : UInt32} : excludes mask flags = true ↔ flags &&& mask = 0 := by
  by_cases hzero : mask = 0
  · simp [excludes, hzero]
  · simp [excludes, hzero]

def or_bits (values : List Str) (mask : UInt32) : UInt32 := values.foldl (fun mask name => mask ||| attr_bit name) mask

/-- A test that every bit put in is asked on its own. -/
theorem or_bits_test {test : UInt32 → Bool} {single : Str → Bool}
    (h : ∀ mask name, test (mask ||| attr_bit name) = (test mask && single name)) (values : List Str) (mask : UInt32) :
    test (or_bits values mask) = (test mask && values.all single) := by
  induction values generalizing mask with
  | nil => exact (Bool.and_true _).symm
  | cons name rest ih => rw [or_bits, List.foldl_cons, ← or_bits, ih, h, List.all_cons, Bool.and_assoc]

theorem requires_or_bits (values : List Str) (mask flags : UInt32) :
    requires (or_bits values mask) flags =
      (requires mask flags && values.all fun name => flags &&& attr_bit name == attr_bit name) := by
  refine @or_bits_test (requires · flags) _ (fun mask name => ?_) values mask
  rw [Bool.eq_iff_iff]
  simp only [Bool.and_eq_true, requires_iff, beq_iff_eq]
  exact uffs.lib.mask.and_or_eq_iff

theorem excludes_or_bits (values : List Str) (mask flags : UInt32) :
    excludes (or_bits values mask) flags = (excludes mask flags && values.all fun name => flags &&& attr_bit name == 0) := by
  refine @or_bits_test (excludes · flags) _ (fun mask name => ?_) values mask
  rw [Bool.eq_iff_iff]
  simp only [Bool.and_eq_true, excludes_iff, beq_iff_eq]
  exact uffs.lib.mask.and_or_eq_zero_iff

end attributes

end uffs.daemon
