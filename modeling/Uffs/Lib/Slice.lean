import Mathlib.Data.List.Infix

/-! Ranges, windows and chunks of a list read as a slice. -/

namespace uffs.lib

variable {α : Type}

/-- `slice.get(start..stop)`. -/
def slice? (values : List α) (start stop : Nat) : Option (List α) :=
  if start ≤ stop ∧ stop ≤ values.length then some ((values.drop start).take (stop - start)) else none

/-- A range that ends inside a list is not changed by what is appended behind it. -/
theorem slice?_append {values tail : List α} {start stop : Nat} (hstop : stop ≤ values.length) :
    slice? (values ++ tail) start stop = slice? values start stop := by
  by_cases hrange : start ≤ stop
  · have hleft : start ≤ stop ∧ stop ≤ (values ++ tail).length := by
      rw [List.length_append]
      omega
    rw [slice?, slice?, if_pos hleft, if_pos ⟨hrange, hstop⟩, List.drop_append_of_le_length (by omega),
      List.take_append_of_le_length (by rw [List.length_drop]; omega)]
  · rw [slice?, slice?, if_neg (fun h => hrange h.1), if_neg (fun h => hrange h.1)]

theorem slice?_append_right (values tail : List α) :
    slice? (values ++ tail) values.length (values.length + tail.length) = some tail := by
  have hrange : values.length ≤ values.length + tail.length ∧
      values.length + tail.length ≤ (values ++ tail).length := by
    rw [List.length_append]
    omega
  simp [slice?, hrange]

theorem slice?_length {values row : List α} {start stop : Nat} (h : slice? values start stop = some row) :
    row.length = stop - start := by
  rw [slice?] at h
  split at h
  next hrange =>
    obtain rfl := Option.some.inj h
    rw [List.length_take, List.length_drop]
    omega
  next => cases h

/-- `slice.windows(n)` for a positive `n`. -/
def windows (n : Nat) : List α → List (List α)
  | [] => []
  | a :: rest => if n ≤ (a :: rest).length then (a :: rest).take n :: windows n rest else []

theorem mem_windows {n : Nat} {list window : List α} (hn : 0 < n) :
    window ∈ windows n list ↔ window <:+: list ∧ window.length = n := by
  induction list with
  | nil =>
    simp only [windows, List.not_mem_nil, List.infix_nil, false_iff, not_and]
    rintro rfl
    simpa using hn.ne
  | cons a rest ih =>
    rw [windows, List.infix_cons_iff]
    split
    next hlong =>
      rw [List.mem_cons, ih]
      constructor
      · rintro (rfl | ⟨hsub, hlen⟩)
        · exact ⟨Or.inl (List.take_prefix _ _), by rw [List.length_take, Nat.min_eq_left hlong]⟩
        · exact ⟨Or.inr hsub, hlen⟩
      · rintro ⟨hpre | hsub, hlen⟩
        · exact Or.inl (by rw [← hlen]; exact List.prefix_iff_eq_take.mp hpre)
        · exact Or.inr ⟨hsub, hlen⟩
    next hshort =>
      simp only [List.not_mem_nil, false_iff, not_and]
      rintro (hpre | hsub) hlen
      · exact hshort (hlen ▸ hpre.length_le)
      · exact hshort (hlen ▸ hsub.length_le.trans (by simp))

/-- Windows of an infix are windows of the whole. -/
theorem windows_subset_of_infix {n : Nat} {part list : List α} (hn : 0 < n) (hsub : part <:+: list) :
    windows n part ⊆ windows n list := fun window hwindow => by
  obtain ⟨hpart, hlen⟩ := (mem_windows hn).mp hwindow
  exact (mem_windows hn).mpr ⟨hpart.trans hsub, hlen⟩

theorem windows_ne_nil {n : Nat} {list : List α} (hn : 0 < n) (hlong : n ≤ list.length) : windows n list ≠ [] := by
  have hmem : list.take n ∈ windows n list :=
    (mem_windows hn).mpr ⟨(List.take_prefix n list).isInfix, by rw [List.length_take, Nat.min_eq_left hlong]⟩
  exact List.ne_nil_of_mem hmem

/-- `slice.chunks(size)`; `fuel` bounds the number of chunks. -/
def chunksAux (size : Nat) : Nat → List α → List (List α)
  | 0, _ => []
  | _ + 1, [] => []
  | fuel + 1, a :: rest => (a :: rest).take size :: chunksAux size fuel ((a :: rest).drop size)

def chunks (size : Nat) (list : List α) : List (List α) := chunksAux size list.length list

theorem flatten_chunksAux {size : Nat} (hsize : 0 < size) {fuel : Nat} {list : List α} (hfuel : list.length ≤ fuel) :
    (chunksAux size fuel list).flatten = list := by
  induction fuel generalizing list with
  | zero =>
    obtain rfl : list = [] := List.length_eq_zero_iff.mp (Nat.le_zero.mp hfuel)
    rfl
  | succ fuel ih =>
    cases list with
    | nil => rfl
    | cons a rest =>
      rw [List.length_cons] at hfuel
      rw [chunksAux, List.flatten_cons, ih (by rw [List.length_drop, List.length_cons]; omega)]
      exact List.take_append_drop size (a :: rest)

theorem flatten_chunks {size : Nat} (list : List α) (hsize : 0 < size) : (chunks size list).flatten = list :=
  flatten_chunksAux hsize (Nat.le_refl _)

theorem chunksAux_map {β : Type} (f : α → β) (size fuel : Nat) (list : List α) :
    chunksAux size fuel (list.map f) = (chunksAux size fuel list).map (List.map f) := by
  induction fuel generalizing list with
  | zero => rfl
  | succ fuel ih =>
    cases list with
    | nil => rfl
    | cons a rest =>
      rw [List.map_cons, chunksAux, chunksAux, ← List.map_cons, ← List.map_drop, ih, ← List.map_take, List.map_cons]

theorem chunks_map {β : Type} (f : α → β) (size : Nat) (list : List α) :
    chunks size (list.map f) = (chunks size list).map (List.map f) := by
  rw [chunks, chunks, List.length_map, chunksAux_map]

end uffs.lib
