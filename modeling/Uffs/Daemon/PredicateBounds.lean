import Uffs.Daemon.Predicates

open uffs.search

namespace uffs.daemon

/-! The bounds of the scan's filters, and when they say what the predicates say. -/

section merge

variable {α : Type} [LT α] [DecidableLT α] {key : α → Int} (hkey : ∀ a b, a < b ↔ key a < key b)
include hkey

theorem at_least_merge_min (bound : Option α) (value x : α) :
    at_least (merge_min bound value) x = (at_least bound x && !decide (x < value)) := by
  cases bound with
  | none => simp [at_least, merge_min]
  | some cur =>
    simp only [at_least, merge_min, Option.map_some, Option.getD_some, Option.all_some]
    split <;> rename_i h <;> simp only [hkey] at h ⊢ <;> simp <;> omega

theorem at_most_merge_max (bound : Option α) (value x : α) :
    at_most (merge_max bound value) x = (at_most bound x && !decide (value < x)) := by
  cases bound with
  | none => simp [at_most, merge_max]
  | some cur =>
    simp only [at_most, merge_max, Option.map_some, Option.getD_some, Option.all_some]
    split <;> rename_i h <;> simp only [hkey] at h ⊢ <;> simp <;> omega

theorem older_than_merge_max (bound : Option α) (value x : α) :
    older_than (merge_max bound value) x = (older_than bound x && decide (x < value)) := by
  cases bound with
  | none => simp [older_than, merge_max]
  | some cur =>
    simp only [older_than, merge_max, Option.map_some, Option.getD_some, Option.all_some]
    split <;> rename_i h <;> simp only [hkey] at h ⊢ <;> simp <;> omega

end merge

/-- A number against a bound, both cut off at the cap: this is what a compiled predicate tests. -/
def capped_check (cap : Nat) (op : SearchPredicateOp) (value n : Nat) : Bool :=
  match op with
  | .Gte => min value cap ≤ min n cap
  | .Lte => min n cap ≤ min value cap
  | .Gt => min (min value cap + 1) cap ≤ min n cap
  | .Lt => min n cap ≤ min value cap - 1
  | .Eq => min n cap = min value cap
  | _ => true

/-- The number against the bound. -/
def number_check (op : SearchPredicateOp) (value n : Nat) : Bool :=
  match op with
  | .Eq => n = value
  | .Ne => n ≠ value
  | .Lt => n < value
  | .Lte => n ≤ value
  | .Gt => value < n
  | .Gte => value ≤ n
  | _ => true

/-- Neither the cap nor the zero gets in the way. -/
def CapExact (cap : Nat) (op : SearchPredicateOp) (value n : Nat) : Prop :=
  match op with
  | .Gte => n < cap ∨ value ≤ n
  | .Lte => value < cap ∨ n ≤ value
  | .Gt => n < cap ∨ value < cap ∨ value < n
  | .Lt => (value ≠ 0 ∨ n ≠ 0) ∧ (value ≤ cap ∨ n < cap ∨ value ≤ n)
  | .Eq => n < cap ∨ value < cap ∨ n = value
  | _ => True

theorem capped_check_eq_iff {cap : Nat} (hcap : 0 < cap) {op : SearchPredicateOp} (hne : op ≠ .Ne) (value n : Nat) :
    capped_check cap op value n = number_check op value n ↔ CapExact cap op value n := by
  cases op with
  | Ne => exact absurd rfl hne
  | Eq | Lt | Lte | Gt | Gte =>
    simp only [capped_check, number_check, CapExact, decide_eq_decide]
    omega
  | In | NotIn | HasAll | HasAny | HasNone | Match | NotMatch | Contains | StartsWith | EndsWith =>
    exact ⟨fun _ => trivial, fun _ => rfl⟩

theorem match_u64_eq (actual value : UInt64) (predicate : SearchPredicate) (h : predicate.value = .U64 value) :
    match_u64 actual predicate = number_check predicate.op value.toNat actual.toNat := by
  simp only [match_u64, h]
  cases predicate.op with
  | Eq => simp [number_check, beq_eq_decide, ← UInt64.toNat_inj]
  | Ne => simp [number_check, bne, beq_eq_decide, ← UInt64.toNat_inj]
  | Lt | Lte | Gt | Gte => simp [number_check, UInt64.lt_iff_toNat_lt, UInt64.le_iff_toNat_le]
  | In | NotIn | HasAll | HasAny | HasNone | Match | NotMatch | Contains | StartsWith | EndsWith => rfl

@[simp] theorem toNat_succ_u64 (value : UInt64) : (succ_u64 value).toNat = min (value.toNat + 1) (2 ^ 64 - 1) := by
  unfold succ_u64
  split
  · rename_i h
    simp [h]
  · rename_i h
    have hne : value.toNat ≠ 2 ^ 64 - 1 := fun heq => h (UInt64.toNat_inj.mp heq)
    have := value.toNat_lt
    rw [UInt64.toNat_add, UInt64.toNat_one]
    omega

@[simp] theorem toNat_succ_u32 (value : UInt32) : (succ_u32 value).toNat = min (value.toNat + 1) (2 ^ 32 - 1) := by
  unfold succ_u32
  split
  · rename_i h
    simp [h]
  · rename_i h
    have hne : value.toNat ≠ 2 ^ 32 - 1 := fun heq => h (UInt32.toNat_inj.mp heq)
    have := value.toNat_lt
    rw [UInt32.toNat_add, UInt32.toNat_one]
    omega

@[simp] theorem toNat_succ_u16 (value : UInt16) : (succ_u16 value).toNat = min (value.toNat + 1) (2 ^ 16 - 1) := by
  unfold succ_u16
  split
  · rename_i h
    simp [h]
  · rename_i h
    have hne : value.toNat ≠ 2 ^ 16 - 1 := fun heq => h (UInt16.toNat_inj.mp heq)
    have := value.toNat_lt
    rw [UInt16.toNat_add, UInt16.toNat_one]
    omega

@[simp] theorem toNat_pred_u64 (value : UInt64) : (pred_u64 value).toNat = value.toNat - 1 := by
  unfold pred_u64
  split
  · rename_i h
    simp [h]
  · rename_i h
    have hne : value.toNat ≠ 0 := fun heq => h (UInt64.toNat_inj.mp heq)
    have hle : 1 ≤ value := UInt64.le_iff_toNat_le.mpr (by rw [UInt64.toNat_one]; omega)
    rw [UInt64.toNat_sub_of_le _ _ hle, UInt64.toNat_one]

@[simp] theorem toNat_pred_u32 (value : UInt32) : (pred_u32 value).toNat = value.toNat - 1 := by
  unfold pred_u32
  split
  · rename_i h
    simp [h]
  · rename_i h
    have hne : value.toNat ≠ 0 := fun heq => h (UInt32.toNat_inj.mp heq)
    have hle : 1 ≤ value := UInt32.le_iff_toNat_le.mpr (by rw [UInt32.toNat_one]; omega)
    rw [UInt32.toNat_sub_of_le _ _ hle, UInt32.toNat_one]

@[simp] theorem toNat_pred_u16 (value : UInt16) : (pred_u16 value).toNat = value.toNat - 1 := by
  unfold pred_u16
  split
  · rename_i h
    simp [h]
  · rename_i h
    have hne : value.toNat ≠ 0 := fun heq => h (UInt16.toNat_inj.mp heq)
    have hle : 1 ≤ value := UInt16.le_iff_toNat_le.mpr (by rw [UInt16.toNat_one]; omega)
    rw [UInt16.toNat_sub_of_le _ _ hle, UInt16.toNat_one]

@[simp] theorem toNat_to_u32 (value : UInt64) : (to_u32 value).toNat = min value.toNat (2 ^ 32 - 1) := by
  unfold to_u32 UInt32.size
  split <;> simp <;> omega

@[simp] theorem toNat_to_u16 (value : UInt64) : (to_u16 value).toNat = min value.toNat (2 ^ 16 - 1) := by
  unfold to_u16 UInt16.size
  split <;> simp <;> omega

end uffs.daemon
