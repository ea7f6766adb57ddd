import Mathlib.Data.List.Pairwise

namespace uffs.lib

variable {α : Type} (joins : α → α → Bool) (join : α → α → α)

/-- One pass over a list that joins each element to the current one or starts a new one. -/
@[grind] def coalesce (current : α) : List α → List α
  | [] => [current]
  | next :: rest => if joins current next then coalesce (join current next) rest else current :: coalesce next rest

/-- Every join the pass makes is between a pair in the relation. -/
@[grind] def JoinsOnly (rel : α → α → Prop) (current : α) : List α → Prop
  | [] => True
  | next :: rest =>
    if joins current next then rel current next ∧ JoinsOnly rel (join current next) rest else JoinsOnly rel next rest

variable {joins} {join} {rel : α → α → Prop} {current next : α} {rest : List α}

theorem coalesce_join (h : joins current next) : coalesce joins join current (next :: rest) = coalesce joins join (join current next) rest := by
  rw [coalesce, if_pos h]

theorem coalesce_push (h : ¬ joins current next) :
    coalesce joins join current (next :: rest) = current :: coalesce joins join next rest := by
  rw [coalesce, if_neg h]

theorem joinsOnly_join (h : joins current next) :
    JoinsOnly joins join rel current (next :: rest) ↔ rel current next ∧ JoinsOnly joins join rel (join current next) rest := by
  rw [JoinsOnly, if_pos h]

theorem joinsOnly_push (h : ¬ joins current next) :
    JoinsOnly joins join rel current (next :: rest) ↔ JoinsOnly joins join rel next rest := by
  rw [JoinsOnly, if_neg h]

/-- The element the pass is on grows by joins only: what the joins keep of it, the head of the
result has. -/
theorem coalesce_head {keeps : α → α → Prop} (hrefl : ∀ x, keeps x x) (htrans : ∀ {x y z}, keeps x y → keeps y z → keeps x z)
    (hjoin : ∀ x y, y ∈ rest → keeps x (join x y)) : ∃ head tail, coalesce joins join current rest = head :: tail ∧ keeps current head := by
  induction rest generalizing current with
  | nil => exact ⟨current, [], by rw [coalesce], hrefl current⟩
  | cons next rest ih =>
    by_cases h : joins current next
    · obtain ⟨head, tail, heq, hkeeps⟩ := @ih (join current next) fun x y hy => hjoin x y (List.mem_cons_of_mem _ hy)
      exact ⟨head, tail, (coalesce_join h).trans heq, htrans (hjoin current next List.mem_cons_self) hkeeps⟩
    · exact ⟨current, coalesce joins join next rest, coalesce_push h, hrefl current⟩

/-- Each element of the result starts as one of the list: what the joins keep of their left
operand, it has from there. -/
theorem mem_coalesce {keeps : α → α → Prop} (hrefl : ∀ x, keeps x x) (htrans : ∀ {x y z}, keeps x y → keeps y z → keeps x z)
    (hjoin : ∀ x y, keeps x (join x y)) {x : α} (h : x ∈ coalesce joins join current rest) :
    ∃ first ∈ current :: rest, keeps first x := by
  induction rest generalizing current with
  | nil =>
    rw [coalesce, List.mem_singleton] at h
    exact ⟨current, List.mem_cons_self, h ▸ hrefl current⟩
  | cons next rest ih =>
    by_cases hj : joins current next
    · rw [coalesce_join hj] at h
      obtain ⟨first, hmem, hkeeps⟩ := ih h
      rcases List.mem_cons.mp hmem with rfl | hmem
      · exact ⟨current, List.mem_cons_self, htrans (hjoin current next) hkeeps⟩
      · exact ⟨first, List.mem_cons_of_mem _ (List.mem_cons_of_mem _ hmem), hkeeps⟩
    · rw [coalesce_push hj, List.mem_cons] at h
      rcases h with rfl | h
      · exact ⟨x, List.mem_cons_self, hrefl x⟩
      · obtain ⟨first, hmem, hkeeps⟩ := ih h
        exact ⟨first, List.mem_cons_of_mem _ hmem, hkeeps⟩

/-- What a join of two elements in the relation keeps: what holds of each element, how each stands to those behind it, and
what the elements cover. -/
structure JoinKeeps {β : Type} (join : α → α → α) (rel order : α → α → Prop) (sound : α → Prop) (covers : α → β → Prop) : Prop where
  joined : ∀ {x y}, rel x y → sound x → sound y → order x y → sound (join x y)
  behind : ∀ {x y z}, order z x → order z (join x y)
  before : ∀ {x y z}, rel x y → sound x → sound y → sound z → order x y → order x z → order y z → order (join x y) z
  covered : ∀ {x y b}, rel x y → sound x → sound y → order x y → covers x b ∨ covers y b → covers (join x y) b

section keeps

variable {β : Type} {order : α → α → Prop} {sound : α → Prop} {covers : α → β → Prop}

theorem JoinKeeps.join_head (h : JoinKeeps join rel order sound covers) (hrel : rel current next)
    (hsound : ∀ x ∈ current :: next :: rest, sound x) (horder : (current :: next :: rest).Pairwise order) :
    (∀ x ∈ join current next :: rest, sound x) ∧ (join current next :: rest).Pairwise order := by
  have hall := List.forall_mem_cons.mp hsound
  have hall' := List.forall_mem_cons.mp hall.2
  have hpairs := List.pairwise_cons.mp horder
  have hpairs' := List.pairwise_cons.mp hpairs.2
  have hfirst := hpairs.1 next List.mem_cons_self
  refine ⟨List.forall_mem_cons.mpr ⟨h.joined hrel hall.1 hall'.1 hfirst, hall'.2⟩, List.Pairwise.cons ?_ hpairs'.2⟩
  intro later hlater
  exact h.before hrel hall.1 hall'.1 (hall'.2 later hlater) hfirst (hpairs.1 later (List.mem_cons_of_mem _ hlater))
    (hpairs'.1 later hlater)

/-- A pass of such joins keeps it too. -/
theorem JoinKeeps.coalesce (h : JoinKeeps join rel order sound covers) (hsound : ∀ x ∈ current :: rest, sound x)
    (horder : (current :: rest).Pairwise order) (hjoins : JoinsOnly joins join rel current rest) :
    (∀ x ∈ coalesce joins join current rest, sound x) ∧ (coalesce joins join current rest).Pairwise order ∧
      ∀ b, (∃ x ∈ current :: rest, covers x b) → ∃ x ∈ coalesce joins join current rest, covers x b := by
  induction rest generalizing current with
  | nil => exact ⟨hsound, horder, fun b hcovers => hcovers⟩
  | cons next rest ih =>
    have hall := List.forall_mem_cons.mp hsound
    have hpairs := List.pairwise_cons.mp horder
    by_cases hjoin : joins current next
    · obtain ⟨hrel, hjoins⟩ := (joinsOnly_join hjoin).mp hjoins
      rw [coalesce_join hjoin]
      obtain ⟨hhead, hbefore⟩ := h.join_head hrel hsound horder
      obtain ⟨hkept, hpairwise, hcover⟩ := ih hhead hbefore hjoins
      refine ⟨hkept, hpairwise, ?_⟩
      rintro b ⟨x, hx, hcovers⟩
      apply hcover
      have hjoined := @h.covered current next b hrel hall.1 (hall.2 next List.mem_cons_self) (hpairs.1 next List.mem_cons_self)
      rcases List.mem_cons.mp hx with rfl | hx
      · exact ⟨_, List.mem_cons_self, hjoined (Or.inl hcovers)⟩
      · rcases List.mem_cons.mp hx with rfl | hx
        · exact ⟨_, List.mem_cons_self, hjoined (Or.inr hcovers)⟩
        · exact ⟨x, List.mem_cons_of_mem _ hx, hcovers⟩
    · rw [coalesce_push hjoin]
      obtain ⟨hkept, hpairwise, hcover⟩ := ih hall.2 hpairs.2 ((joinsOnly_push hjoin).mp hjoins)
      refine ⟨List.forall_mem_cons.mpr ⟨hall.1, hkept⟩, List.Pairwise.cons ?_ hpairwise, ?_⟩
      · intro x hx
        obtain ⟨first, hfirst, hkeeps⟩ := @mem_coalesce _ joins join next rest (fun x y => ∀ z, order z x → order z y)
          (fun _ _ hz => hz) (fun hxy hyz z hz => hyz z (hxy z hz)) (fun _ _ _ => h.behind) x hx
        exact hkeeps current (hpairs.1 first hfirst)
      · rintro b ⟨x, hx, hcovers⟩
        rcases List.mem_cons.mp hx with rfl | hx
        · exact ⟨x, List.mem_cons_self, hcovers⟩
        · obtain ⟨y, hy, hcovers⟩ := hcover b ⟨x, hx, hcovers⟩
          exact ⟨y, List.mem_cons_of_mem _ hy, hcovers⟩

end keeps

end uffs.lib
