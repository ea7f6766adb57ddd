import Mathlib.Data.List.Nodup
import Mathlib.Data.List.Pairwise
import Mathlib.Order.Basic

namespace uffs.lib

/-! A sorted list in pieces, and selections of the pieces. -/

variable {α β κ : Type}

/-- Each value once, where it occurs first. -/
def distinct [DecidableEq κ] (keys : List κ) : List κ :=
  keys.foldl (fun out key => if key ∈ out then out else out ++ [key]) []

section distinct

variable [DecidableEq κ]

theorem foldl_distinct {keys out : List κ} (hout : out.Nodup) :
    (keys.foldl (fun out key => if key ∈ out then out else out ++ [key]) out).Nodup ∧
      ∀ key, key ∈ keys.foldl (fun out key => if key ∈ out then out else out ++ [key]) out ↔ key ∈ out ∨ key ∈ keys := by
  induction keys generalizing out with
  | nil => exact ⟨hout, fun key => by simp⟩
  | cons key rest ih =>
    rw [List.foldl_cons]
    split
    next hmem =>
      refine ⟨(ih hout).1, fun other => ?_⟩
      rw [(ih hout).2 other, List.mem_cons]
      constructor
      · rintro (h | h)
        · exact .inl h
        · exact .inr (.inr h)
      · rintro (h | rfl | h)
        · exact .inl h
        · exact .inl hmem
        · exact .inr h
    next hnot =>
      have hnext : (out ++ [key]).Nodup := by
        rw [← List.concat_eq_append]
        exact hout.concat hnot
      refine ⟨(ih hnext).1, fun other => ?_⟩
      rw [(ih hnext).2 other, List.mem_append, List.mem_singleton, List.mem_cons, or_assoc]

theorem distinct_nodup (keys : List κ) : (distinct keys).Nodup := (foldl_distinct List.nodup_nil).1

@[simp] theorem mem_distinct {key : κ} {keys : List κ} : key ∈ distinct keys ↔ key ∈ keys := by
  rw [distinct, (foldl_distinct List.nodup_nil).2 key]
  simp

end distinct

/-- Pieces that make up a sorted list: only all of them in order make it up again. -/
theorem eq_of_flatMap_eq [Preorder β] {pieces chosen : List α} {piece : α → List β}
    (hpiece : ∀ a ∈ pieces, piece a ≠ []) (hsorted : (pieces.flatMap piece).Pairwise (· < ·))
    (hsub : chosen ⊆ pieces) (heq : chosen.flatMap piece = pieces.flatMap piece) : chosen = pieces := by
  induction pieces generalizing chosen with
  | nil => exact List.subset_nil.mp hsub
  | cons a rest ih =>
    obtain ⟨b, tail, htail⟩ := List.exists_cons_of_ne_nil (hpiece a List.mem_cons_self)
    rw [List.flatMap_cons, htail, List.cons_append, List.pairwise_cons] at hsorted
    -- What begins with the least value cannot come later.
    have hlater : ∀ c ∈ rest, ∀ tail', piece c ≠ b :: tail' := by
      intro c hc tail' hb
      have hmem : b ∈ rest.flatMap piece := List.mem_flatMap.mpr ⟨c, hc, by rw [hb]; exact List.mem_cons_self⟩
      exact lt_irrefl b (hsorted.1 b (List.mem_append_right _ hmem))
    cases chosen with
    | nil =>
      rw [List.flatMap_nil, List.flatMap_cons, htail] at heq
      cases heq
    | cons c others =>
      have hstart : ∃ tail', piece c = b :: tail' := by
        obtain ⟨b', tail', hc⟩ := List.exists_cons_of_ne_nil (hpiece c (hsub List.mem_cons_self))
        rw [List.flatMap_cons, List.flatMap_cons, htail, hc, List.cons_append, List.cons_append] at heq
        obtain ⟨rfl, _⟩ := List.cons.inj heq
        exact ⟨tail', hc⟩
      obtain ⟨tail', hc⟩ := hstart
      obtain rfl : c = a := by
        rcases List.mem_cons.mp (hsub List.mem_cons_self) with h | h
        · exact h
        · exact absurd hc (hlater c h tail')
      rw [List.flatMap_cons, List.flatMap_cons, List.append_cancel_left_eq] at heq
      have hrest : others ⊆ rest := by
        intro d hd
        rcases List.mem_cons.mp (hsub (List.mem_cons_of_mem _ hd)) with rfl | h
        · have hmem : b ∈ rest.flatMap piece := by
            rw [← heq]
            exact List.mem_flatMap.mpr ⟨d, hd, by rw [hc]; exact List.mem_cons_self⟩
          exact absurd (hsorted.1 b (List.mem_append_right _ hmem)) (lt_irrefl b)
        · exact h
      have hsorted' := (List.pairwise_append.mp hsorted.2).2.1
      rw [ih (fun d hd => hpiece d (List.mem_cons_of_mem _ hd)) hsorted' hrest heq]

section firsts

variable [DecidableEq κ]

/-- The piece of the first entry with the key; nothing without one. -/
def first_piece (pieces : List α) (key : α → κ) (piece : α → List β) (k : κ) : List β :=
  ((pieces.find? fun a => decide (key a = k)).map piece).getD []

variable {pieces : List α} {key : α → κ} {piece : α → List β}

theorem first_piece_eq_nil {k : κ} (h : k ∉ pieces.map key) : first_piece pieces key piece k = [] := by
  rw [first_piece, List.find?_eq_none.mpr]
  · rfl
  · intro a ha hkey
    exact h (List.mem_map.mpr ⟨a, ha, of_decide_eq_true hkey⟩)

/-- Keys without an entry do not add anything. -/
theorem flatMap_first_piece (pieces : List α) (key : α → κ) (piece : α → List β) (keys : List κ) :
    keys.flatMap (first_piece pieces key piece) =
      (keys.filter fun k => decide (k ∈ pieces.map key)).flatMap (first_piece pieces key piece) := by
  induction keys with
  | nil => rfl
  | cons k rest ih =>
    rw [List.flatMap_cons, List.filter_cons]
    split
    · rw [ih, List.flatMap_cons]
    next hnot => rw [first_piece_eq_nil (by simpa using hnot), ih, List.nil_append]

/-- Where no two entries share a key, the pieces of all keys are all pieces. -/
theorem flatMap_first_piece_keys (hnodup : (pieces.map key).Nodup) :
    (pieces.map key).flatMap (first_piece pieces key piece) = pieces.flatMap piece := by
  rw [List.flatMap_map]
  have hfirst : ∀ a ∈ pieces, first_piece pieces key piece (key a) = piece a := by
    intro a ha
    cases hfind : pieces.find? fun other => decide (key other = key a) with
    | none => exact absurd (List.find?_eq_none.mp hfind a ha) (by simp)
    | some other =>
      have hkey : key other = key a := by simpa using List.find?_some hfind
      rw [first_piece, hfind, List.inj_on_of_nodup_map hnodup (List.mem_of_find?_eq_some hfind) ha hkey]
      rfl
  exact List.flatMap_congr hfirst

/-- The first pieces of keys that are those of the entries in order, one by one. -/
theorem flatMap_first_piece_of_keys {keys : List κ} (hkeys : keys.Nodup)
    (heq : (keys.filter fun k => decide (k ∈ pieces.map key)) = pieces.map key) :
    keys.flatMap (first_piece pieces key piece) = pieces.flatMap piece := by
  have hnodup : (pieces.map key).Nodup := heq ▸ hkeys.filter _
  rw [flatMap_first_piece, heq, flatMap_first_piece_keys hnodup]

/-- The first piece of each key is the whole of a sorted list only where the keys are those of its pieces in order. -/
theorem first_pieces_whole_iff {ι : Type} [Preorder ι] {span : List β → List ι} (happend : ∀ a b, span (a ++ b) = span a ++ span b)
    (hnil : span [] = []) {keys : List κ} (hkeys : keys.Nodup) (hall : ∀ a ∈ pieces, key a ∈ keys)
    (hspan : (∀ a ∈ pieces, span (piece a) ≠ []) ∨ ∃ a, pieces = [a])
    (hsorted : (span (pieces.flatMap piece)).Pairwise (· < ·)) :
    span (keys.flatMap (first_piece pieces key piece)) = span (pieces.flatMap piece) ↔
      (keys.filter fun k => decide (k ∈ pieces.map key)) = pieces.map key := by
  have hflat : ∀ list : List α, span (list.flatMap piece) = list.flatMap fun a => span (piece a) := by
    intro list
    induction list with
    | nil => exact hnil
    | cons a rest ih => rw [List.flatMap_cons, happend, ih, List.flatMap_cons]
  constructor
  · intro heq
    rw [flatMap_first_piece] at heq
    rcases hspan with hspan | ⟨a, rfl⟩
    · -- The entries that the keys pick are all of them.
      have hpick : ∀ picked : List κ, (∀ k ∈ picked, k ∈ pieces.map key) → ∃ chosen : List α,
          chosen ⊆ pieces ∧ chosen.map key = picked ∧ picked.flatMap (first_piece pieces key piece) = chosen.flatMap piece := by
        intro picked hpicked
        induction picked with
        | nil => exact ⟨[], List.nil_subset _, rfl, rfl⟩
        | cons k rest ih =>
          obtain ⟨chosen, hsub, hmap, hchosen⟩ := ih fun k hk => hpicked k (List.mem_cons_of_mem _ hk)
          cases hfind : pieces.find? fun a => decide (key a = k) with
          | none =>
            obtain ⟨a, ha, hkey⟩ := List.mem_map.mp (hpicked k List.mem_cons_self)
            exact absurd (List.find?_eq_none.mp hfind a ha) (by simpa using hkey)
          | some a =>
            have hkey : key a = k := by simpa using List.find?_some hfind
            refine ⟨a :: chosen, List.cons_subset.mpr ⟨List.mem_of_find?_eq_some hfind, hsub⟩, ?_, ?_⟩
            · rw [List.map_cons, hkey, hmap]
            · rw [List.flatMap_cons, hchosen, List.flatMap_cons, first_piece, hfind]
              rfl
      obtain ⟨chosen, hsub, hmap, hchosen⟩ := hpick _ fun k hk => of_decide_eq_true (List.mem_filter.mp hk).2
      rw [hchosen, hflat, hflat] at heq
      rw [hflat] at hsorted
      rw [← hmap, eq_of_flatMap_eq hspan hsorted hsub heq]
    · -- One entry: its key is there, and once.
      have hmem : key a ∈ keys := hall a List.mem_cons_self
      simp only [List.map_cons, List.map_nil, List.mem_singleton]
      rw [List.filter_congr (fun k _ => (beq_eq_decide k (key a)).symm), List.filter_beq, List.count_eq_one_of_mem hkeys hmem]
      rfl
  · intro heq
    rw [flatMap_first_piece_of_keys hkeys heq]

end firsts

end uffs.lib
