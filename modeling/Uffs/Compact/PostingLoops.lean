import Uffs.Compact.Delta

open uffs.lib

namespace uffs.compact

/-! The loops over posting lists, with their cursors and writes in place. -/

/-- A value is pushed unless it is the last one written. -/
def push_merged (out : List UInt32) (next : UInt32) : List UInt32 := if out.getLast? = some next then out else out ++ [next]

/-- `merge_postings` with its output vector, whose last value two ascending lists never bring up again. -/
def merge_postings_into (base delta : List UInt32) : List UInt32 :=
  if delta.isEmpty then base
  else if base.isEmpty then delta
  else (postings.union base delta).foldl push_merged []

/-- The place a binary search reports for a value that is missing takes it. -/
def sorted_insert (list : List UInt32) (value : UInt32) : List UInt32 := postings.insert list value

/-- Advance the cursor until its value is not below. -/
def seek {α : Type} [LinearOrder α] (val : α) : List α → Nat → Nat
  | [], j => j
  | ov :: rest, j => if val ≤ ov then j else seek val rest (j + 1)

/-- One round: the vector, how much of it is written, and the cursor of the other list. -/
def intersect_step (other : List UInt32) (state : List UInt32 × Nat × Nat) (i : Nat) : List UInt32 × Nat × Nat :=
  let (result, write, j) := state
  match result[i]? with
  | none => state
  | some val =>
    let j := seek val (other.drop j) j
    if other[j]? = some val ∧ write < result.length then (result.set write val, write + 1, j + 1) else (result, write, j)

def intersect_in_place (result other : List UInt32) : List UInt32 :=
  let (written, write, _) := (List.range result.length).foldl (intersect_step other) (result, 0, 0)
  written.take write

theorem foldl_push_merged {out rest : List UInt32} (h : postings.Ascending (out ++ rest)) :
    rest.foldl push_merged out = out ++ rest := by
  induction rest generalizing out with
  | nil => rw [List.foldl_nil, List.append_nil]
  | cons next rest ih =>
    have hlast : out.getLast? ≠ some next := by
      intro hlast
      have hlt := (List.pairwise_append.mp h).2.2 next (List.mem_of_getLast? hlast) next List.mem_cons_self
      exact lt_irrefl next hlt
    rw [List.foldl_cons, push_merged, if_neg hlast, ih (by rwa [List.append_assoc]), List.append_assoc]
    rfl

theorem merge_postings_into_eq {base delta : List UInt32} (hbase : postings.Ascending base) (hdelta : postings.Ascending delta) :
    merge_postings_into base delta = postings.union base delta := by
  rw [← merge_postings_eq_union, merge_postings_into, merge_postings,
    foldl_push_merged (List.nil_append _ ▸ postings.union_ascending hbase hdelta), List.nil_append]

theorem seek_spec {α : Type} [LinearOrder α] (val : α) (other : List α) (j : Nat) :
    other.drop (seek val (other.drop j) j) = (other.drop j).dropWhile (· < val) := by
  induction hrest : other.drop j generalizing j with
  | nil => rw [seek, hrest, List.dropWhile_nil]
  | cons ov rest ih =>
    have hnext : other.drop (j + 1) = rest := by rw [← List.tail_drop, hrest, List.tail_cons]
    rw [seek, List.dropWhile_cons]
    by_cases hle : val ≤ ov
    · rw [if_pos hle, hrest, if_neg (by simpa using hle)]
    · rw [if_neg hle, if_pos (by simpa using hle), ← ih (j + 1) hnext]

/-- What is written and what the cursors still find make the intersection. -/
structure Intersecting (result other : List UInt32) (i : Nat) (state : List UInt32 × Nat × Nat) : Prop where
  length : state.1.length = result.length
  ahead : state.1.drop i = result.drop i
  room : state.2.1 ≤ i
  found : state.1.take state.2.1 ++ postings.inter (result.drop i) (other.drop state.2.2) = postings.inter result other

/-- One probe of the other list keeps the part written the intersection so far. -/
theorem Intersecting.step {result other : List UInt32} {i : Nat} {state : List UInt32 × Nat × Nat}
    (h : Intersecting result other i state) (hi : i < result.length) :
    Intersecting result other (i + 1) (intersect_step other state i) := by
  obtain ⟨written, write, j⟩ := state
  obtain ⟨hlength, hahead, hroom, hfound⟩ := h
  dsimp only at hlength hahead hroom hfound
  have hnext : written.drop (i + 1) = result.drop (i + 1) := by rw [← List.tail_drop, ← List.tail_drop, hahead]
  have hval : written[i]? = some result[i] := by
    rw [← List.head?_drop, hahead, List.head?_drop, List.getElem?_eq_getElem hi]
  rw [List.drop_eq_getElem_cons hi, postings.inter, ← seek_spec] at hfound
  rw [intersect_step]
  simp only [hval]
  generalize seek result[i] (other.drop j) j = cursor at hfound ⊢
  rw [← List.head?_drop (i := cursor)]
  cases hrest : other.drop cursor with
  | nil =>
    rw [hrest] at hfound
    rw [if_neg (fun hhead => by cases hhead.1)]
    refine ⟨hlength, hnext, Nat.le_succ_of_le hroom, ?_⟩
    rw [hrest, hfound]
  | cons b rest =>
    rw [hrest] at hfound
    have htail : other.drop (cursor + 1) = rest := by rw [← List.tail_drop, hrest, List.tail_cons]
    by_cases hb : b = result[i]
    · have hwrite : write < written.length := by omega
      rw [if_pos ⟨congrArg some hb, hwrite⟩]
      refine ⟨List.length_set.trans hlength, ?_, Nat.succ_le_succ hroom, ?_⟩
      · dsimp only
        rw [List.drop_set_of_lt (by omega), hnext]
      · dsimp only at hfound ⊢
        rw [if_pos hb] at hfound
        have hwritten : (written.set write result[i]).take (write + 1) = written.take write ++ [result[i]] := by
          rw [List.take_succ_eq_append_getElem (by rwa [List.length_set]), List.getElem_set_self, List.take_set_of_le (Nat.le_refl _)]
        rw [htail, hwritten, List.append_assoc]
        exact hfound
    · rw [if_neg (fun hhead => hb (Option.some.inj hhead.1))]
      refine ⟨hlength, hnext, Nat.le_succ_of_le hroom, ?_⟩
      dsimp only at hfound ⊢
      rw [if_neg hb] at hfound
      rw [hrest, hfound]

theorem intersect_in_place_eq (result other : List UInt32) : intersect_in_place result other = postings.inter result other := by
  have hrun : ∀ n ≤ result.length,
      Intersecting result other n ((List.range n).foldl (intersect_step other) (result, 0, 0)) := by
    intro n hn
    induction n with
    | zero => exact ⟨rfl, rfl, Nat.le_refl 0, rfl⟩
    | succ n ih =>
      rw [List.range_succ, List.foldl_append]
      exact (ih (Nat.le_of_succ_le hn)).step hn
  have hfound := (hrun result.length (Nat.le_refl _)).found
  rw [List.drop_length, postings.inter, List.append_nil] at hfound
  exact hfound

/-- The list is strictly ascending and has exactly these members. -/
def Lists (list : List UInt32) (members : UInt32 → Prop) : Prop :=
  postings.Ascending list ∧ ∀ value, value ∈ list ↔ members value

/-- Two ascending lists merge into their union, or what is valid of it; insertion adds the one value, and what is left in
place is the intersection. -/
theorem posting_algebra {base delta : List UInt32} (hbase : postings.Ascending base) (hdelta : postings.Ascending delta)
    (is_valid : UInt32 → Bool) (value : UInt32) :
    Lists (merge_postings_into base delta) (fun v => v ∈ base ∨ v ∈ delta) ∧
      Lists (merge_filter base delta is_valid) (fun v => (v ∈ base ∨ v ∈ delta) ∧ is_valid v = true) ∧
      Lists (sorted_insert base value) (fun v => v = value ∨ v ∈ base) ∧
      Lists (intersect_in_place base delta) (fun v => v ∈ base ∧ v ∈ delta) := by
  have hunion := postings.union_ascending hbase hdelta
  rw [merge_postings_into_eq hbase hdelta, intersect_in_place_eq]
  refine ⟨⟨hunion, fun v => postings.mem_union⟩, ⟨hunion.filter _, fun v => ?_⟩,
    ⟨postings.insert_ascending hbase value, fun v => postings.mem_insert⟩,
    ⟨postings.inter_ascending hbase delta, fun v => postings.mem_inter hbase hdelta⟩⟩
  rw [merge_filter, List.mem_filter, postings.mem_union]

theorem posting_algebra_shared :
    Lists (merge_postings_into [1, 3] [2, 3]) (fun v => v ∈ [1, 3] ∨ v ∈ [2, 3]) ∧
      Lists (merge_filter [1, 3] [2, 3] (· != 2)) (fun v => (v ∈ [1, 3] ∨ v ∈ [2, 3]) ∧ (v != 2) = true) ∧
      Lists (sorted_insert [1, 3] 2) (fun v => v = 2 ∨ v ∈ [1, 3]) ∧
      Lists (intersect_in_place [1, 3] [2, 3]) (fun v => v ∈ [1, 3] ∧ v ∈ [2, 3]) :=
  posting_algebra (by decide) (by decide) (· != 2) 2

/-- No tombstone is applied to the postings, and one applied as a check drops what the overlay added as well. -/
theorem merge_ignores_tombstones :
    ¬ Lists (merge_postings_into [1] []) (fun v => v ∈ [1] ∧ v ∉ ({1} : Finset UInt32) ∨ v ∈ []) ∧
      ¬ Lists (merge_filter [] [1] fun v => decide (v ∉ ({1} : Finset UInt32)))
        (fun v => v ∈ [] ∧ v ∉ ({1} : Finset UInt32) ∨ v ∈ [1]) := by
  constructor
  · intro h
    exact absurd ((h.2 1).mp (by decide)) (by decide)
  · intro h
    exact absurd ((h.2 1).mpr (by decide)) (by decide)

end uffs.compact
