import Mathlib.Data.List.Basic

namespace uffs.lib

/-! A parallel reduction: the parts of a list, joined two by two along a tree. -/

inductive Reduction (α : Type) where
  | identity
  | part (item : α)
  | join (left right : Reduction α)

namespace Reduction

variable {α σ : Type}

/-- The parts from left to right. -/
def items : Reduction α → List α
  | identity => []
  | part item => [item]
  | join left right => left.items ++ right.items

/-- The value of the whole, from that of a part, the neutral one and how two are joined. -/
def run (neutral : σ) (value : α → σ) (merge : σ → σ → σ) : Reduction α → σ
  | identity => neutral
  | part item => value item
  | join left right => merge (left.run neutral value merge) (right.run neutral value merge)

/-- Part after part, from the left. -/
def chain (parts : List α) : Reduction α := parts.foldl (fun tree item => join tree (part item)) identity

theorem items_foldl (tree : Reduction α) (parts : List α) :
    (parts.foldl (fun tree item => join tree (part item)) tree).items = tree.items ++ parts := by
  induction parts generalizing tree with
  | nil => exact (List.append_nil _).symm
  | cons item parts ih =>
    rw [List.foldl_cons, ih]
    simp [items]

theorem items_chain (parts : List α) : (chain parts).items = parts := items_foldl identity parts

/-- What holds of each part and is kept by a join holds of the whole. -/
theorem run_induct {P : List α → σ → Prop} {neutral : σ} {value : α → σ} {merge : σ → σ → σ} (hneutral : P [] neutral)
    (hpart : ∀ item, P [item] (value item)) (hjoin : ∀ {xs ys s t}, P xs s → P ys t → P (xs ++ ys) (merge s t))
    (tree : Reduction α) : P tree.items (tree.run neutral value merge) := by
  induction tree with
  | identity => exact hneutral
  | part item => exact hpart item
  | join left right ihleft ihright => exact hjoin ihleft ihright

/-- Each part replaced. -/
def map {β : Type} (f : α → β) : Reduction α → Reduction β
  | identity => identity
  | part item => part (f item)
  | join left right => join (left.map f) (right.map f)

theorem items_map {β : Type} (f : α → β) (tree : Reduction α) : (tree.map f).items = tree.items.map f := by
  induction tree with
  | identity | part => rfl
  | join left right ihleft ihright => simp only [map, items, ihleft, ihright, List.map_append]

end Reduction

/-- How a parallel run cuts a list of parts and joins them: along any tree over the parts in their order. -/
structure JoinOrder where
  tree : {α : Type} → List α → Reduction α
  items : ∀ {α : Type} (parts : List α), (tree parts).items = parts

/-- Part after part. -/
def JoinOrder.sequential : JoinOrder where
  tree := Reduction.chain
  items := Reduction.items_chain

end uffs.lib
