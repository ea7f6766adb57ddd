import Uffs.Lib.Worklist

namespace uffs.lib.worklist

/-! The order in which a stack of items pops them: every item before all below it, and all below
one item before the next item of its level. -/

variable {α : Type} {next : α → List α} {R : α → α → Prop}

/-- An item of the tree that hangs on `top`, which is one of them. -/
def Under (next : α → List α) (a top : α) : Prop := Relation.ReflTransGen (Pushes next) a top

/-- All of the one tree stand in the relation to all of the other. -/
def Leads (next : α → List α) (R : α → α → Prop) (first second : α) : Prop :=
  ∀ a b, Under next a first → Under next b second → R a b

/-- Within the tree of `top`, an item stands in the relation to all below it, and the trees on each
of its levels to those that are pushed after them. -/
structure TreeOrdered (next : α → List α) (R : α → α → Prop) (top : α) : Prop where
  below : ∀ p, Under next p top → ∀ c ∈ next p, ∀ a, Under next a c → R p a
  level : ∀ p, Under next p top → (next p).Pairwise (Leads next R)

theorem under_iff {a top : α} : Under next a top ↔ a = top ∨ ∃ c ∈ next top, Under next a c := by
  constructor
  · intro h
    rcases h.cases_tail with heq | ⟨c, hreach, hc⟩
    · exact Or.inl heq.symm
    · exact Or.inr ⟨c, hc, hreach⟩
  · rintro (rfl | ⟨c, hc, hreach⟩)
    · exact Relation.ReflTransGen.refl
    · exact hreach.tail hc

theorem treeOrdered_iff {top : α} : TreeOrdered next R top ↔ (∀ c ∈ next top, ∀ a, Under next a c → R top a) ∧
    (next top).Pairwise (Leads next R) ∧ ∀ c ∈ next top, TreeOrdered next R c := by
  have hself : Under next top top := Relation.ReflTransGen.refl
  constructor
  · intro h
    refine ⟨h.below top hself, h.level top hself, fun c hc => ⟨fun p hp => ?_, fun p hp => ?_⟩⟩
    · exact h.below p (under_iff.mpr (Or.inr ⟨c, hc, hp⟩))
    · exact h.level p (under_iff.mpr (Or.inr ⟨c, hc, hp⟩))
  · rintro ⟨hbelow, hlevel, hrest⟩
    constructor
    · intro p hp
      rcases under_iff.mp hp with rfl | ⟨c, hc, hp⟩
      · exact hbelow
      · exact (hrest c hc).below p hp
    · intro p hp
      rcases under_iff.mp hp with rfl | ⟨c, hc, hp⟩
      · exact hlevel
      · exact (hrest c hc).level p hp

theorem leads_iff {first second : α} : Leads next R first second ↔
    (∀ b, Under next b second → R first b) ∧ ∀ c ∈ next first, Leads next R c second := by
  constructor
  · intro h
    refine ⟨fun b => h first b Relation.ReflTransGen.refl, fun c hc a b ha => h a b ?_⟩
    exact under_iff.mpr (Or.inr ⟨c, hc, ha⟩)
  · rintro ⟨hfirst, hrest⟩ a b ha hb
    rcases under_iff.mp ha with rfl | ⟨c, hc, ha⟩
    · exact hfirst b hb
    · exact hrest c hc a b ha hb

theorem pushing_append : Pushing ((· ++ ·) : List α → List α → List α) := fun _ _ => List.Perm.refl _

variable {pending popped : List α}

/-- What is popped is in order exactly if the trees are, each in itself and one after the other. -/
theorem pairwise_run_iff {fuel : Nat} (h : run (· ++ ·) next fuel pending = some popped) :
    popped.Pairwise R ↔ (∀ p ∈ pending, TreeOrdered next R p) ∧ pending.Pairwise (Leads next R) := by
  induction fuel generalizing pending popped with
  | zero =>
    cases pending with
    | nil =>
      obtain rfl := Option.some.inj h
      simp
    | cons a pending => cases h
  | succ fuel ih =>
    cases pending with
    | nil =>
      obtain rfl := Option.some.inj h
      simp
    | cons a pending =>
      obtain ⟨rest, hrest, rfl⟩ := Option.map_eq_some_iff.mp h
      have hmem := fun b => @mem_run_iff _ next _ _ _ pushing_append _ hrest b
      rw [List.pairwise_cons, ih hrest, List.pairwise_append, List.forall_mem_cons, treeOrdered_iff, List.pairwise_cons]
      constructor
      · rintro ⟨hfirst, htrees, hlevel, hpending, hcross⟩
        refine ⟨⟨⟨fun c hc b hb => ?_, hlevel, fun c hc => ?_⟩, fun p hp => ?_⟩, fun p hp => ?_, hpending⟩
        · exact hfirst b ((hmem b).mpr ⟨c, List.mem_append_left _ hc, hb⟩)
        · exact htrees c (List.mem_append_left _ hc)
        · exact htrees p (List.mem_append_right _ hp)
        · refine leads_iff.mpr ⟨fun b hb => ?_, fun c hc => hcross c hc p hp⟩
          exact hfirst b ((hmem b).mpr ⟨p, List.mem_append_right _ hp, hb⟩)
      · rintro ⟨⟨⟨hbelow, hlevel, htrees⟩, hothers⟩, hleads, hpending⟩
        refine ⟨fun b hb => ?_, fun p hp => ?_, hlevel, hpending, fun c hc p hp => ?_⟩
        · obtain ⟨r, hr, hunder⟩ := (hmem b).mp hb
          rcases List.mem_append.mp hr with hc | hp
          · exact hbelow r hc b hunder
          · exact (leads_iff.mp (hleads r hp)).1 b hunder
        · rcases List.mem_append.mp hp with hc | hp
          · exact htrees p hc
          · exact hothers p hp
        · exact (leads_iff.mp (hleads p hp)).2 c hc

theorem pairwise_of_short {R : α → α → Prop} {l : List α} (h : l.length ≤ 1) : l.Pairwise R :=
  match l, h with
  | [], _ => List.Pairwise.nil
  | [a], _ => List.pairwise_singleton R a

/-- Lists without repetition are in the one order exactly if they are in the other, where both order
different members alike. -/
theorem pairwise_congr_of_nodup {R S : α → α → Prop} {l : List α} (hnodup : l.Nodup)
    (h : ∀ a ∈ l, ∀ b ∈ l, a ≠ b → (R a b ↔ S a b)) : l.Pairwise R ↔ l.Pairwise S := by
  constructor
  · intro hR
    exact (hR.and hnodup).imp_of_mem fun {a b} ha hb hboth => (h a ha b hb hboth.2).mp hboth.1
  · intro hS
    exact (hS.and hnodup).imp_of_mem fun {a b} ha hb hboth => (h a ha b hb hboth.2).mpr hboth.1

theorem take_append_of_take {β : Type} (n : Nat) (l rest : List β) : (l.take n ++ rest).take n = (l ++ rest).take n := by
  have hroom : n - (l.take n).length = n - l.length := by
    rw [List.length_take]
    omega
  rw [List.take_append, List.take_append, List.take_take, Nat.min_self, hroom]

/-- What one pop hands out, appended to what is kept until `limit` of them are. -/
def emit_each {β : Type} (passes : β → Bool) (limit : Nat) (emitted kept : List β) : List β :=
  emitted.foldl (fun kept b => if limit ≤ kept.length then kept else if passes b then kept ++ [b] else kept) kept

theorem emit_each_eq {β : Type} {passes : β → Bool} {limit : Nat} {emitted kept : List β} (hkept : kept.length ≤ limit) :
    emit_each passes limit emitted kept = (kept ++ emitted.filter passes).take limit := by
  induction emitted generalizing kept with
  | nil => rw [List.filter_nil, List.append_nil, List.take_of_length_le hkept, emit_each, List.foldl_nil]
  | cons b emitted ih =>
    rw [emit_each, List.foldl_cons]
    change emit_each passes limit emitted _ = _
    by_cases hfull : limit ≤ kept.length
    · rw [if_pos hfull, ih hkept, List.take_left' (Nat.le_antisymm hkept hfull), List.take_left' (Nat.le_antisymm hkept hfull)]
    · rw [if_neg hfull]
      cases hpasses : passes b with
      | true =>
        rw [if_pos rfl, ih (by rw [List.length_append, List.length_singleton]; omega), List.filter_cons_of_pos hpasses,
          List.append_assoc, List.singleton_append]
      | false =>
        rw [if_neg Bool.false_ne_true, ih hkept, List.filter_cons_of_neg (by rw [hpasses]; exact Bool.false_ne_true)]

/-- Pop items as `run` does, keep what each hands out if it passes, and stop once `limit` are kept. -/
def run_limited {β : Type} (next : α → List α) (emits : α → List β) (passes : β → Bool) (limit : Nat) :
    Nat → List α → List β → Option (List β)
  | _, [], kept => some kept
  | 0, _ :: _, _ => none
  | fuel + 1, a :: pending, kept =>
    if limit ≤ kept.length then some kept
    else run_limited next emits passes limit fuel (next a ++ pending) (emit_each passes limit (emits a) kept)

/-- The walk that stops early hands out the first of what the whole walk does. -/
theorem run_limited_eq {β : Type} {emits : α → List β} {passes : β → Bool} {limit fuel : Nat}
    {kept : List β} (h : run (· ++ ·) next fuel pending = some popped) (hkept : kept.length ≤ limit) :
    run_limited next emits passes limit fuel pending kept =
      some ((kept ++ (popped.flatMap emits).filter passes).take limit) := by
  induction fuel generalizing pending popped kept with
  | zero =>
    cases pending with
    | nil =>
      obtain rfl := Option.some.inj h
      rw [run_limited, List.flatMap_nil, List.filter_nil, List.append_nil, List.take_of_length_le hkept]
    | cons a pending => cases h
  | succ fuel ih =>
    cases pending with
    | nil =>
      obtain rfl := Option.some.inj h
      rw [run_limited, List.flatMap_nil, List.filter_nil, List.append_nil, List.take_of_length_le hkept]
    | cons a pending =>
      obtain ⟨rest, hrest, rfl⟩ := Option.map_eq_some_iff.mp h
      rw [run_limited]
      split
      next hfull => rw [List.take_left' (Nat.le_antisymm hkept hfull)]
      next =>
        have hshort : (emit_each passes limit (emits a) kept).length ≤ limit := by
          rw [emit_each_eq hkept]
          exact List.length_take_le _ _
        rw [ih hrest hshort, emit_each_eq hkept, List.flatMap_cons, List.filter_append, ← List.append_assoc,
          take_append_of_take]

/-- Two stacks, one on the other, are popped one after the other. -/
theorem run_append {fuel fuel' : Nat} {pending' popped' : List α}
    (h : run (· ++ ·) next fuel pending = some popped) (h' : run (· ++ ·) next fuel' pending' = some popped') :
    run (· ++ ·) next (fuel + fuel') (pending ++ pending') = some (popped ++ popped') := by
  induction fuel generalizing pending popped with
  | zero =>
    cases pending with
    | nil =>
      obtain rfl := Option.some.inj h
      rwa [Nat.zero_add]
    | cons a pending => cases h
  | succ fuel ih =>
    cases pending with
    | nil =>
      obtain rfl := Option.some.inj h
      exact run_mono h' (Nat.le_add_left _ _)
    | cons a pending =>
      obtain ⟨rest, hrest, rfl⟩ := Option.map_eq_some_iff.mp h
      have hboth := ih hrest
      rw [List.append_assoc] at hboth
      rw [Nat.succ_add, List.cons_append, run, hboth, Option.map_some, List.cons_append]

/-- What a walk pops, whatever the fuel. -/
def Listing (next : α → List α) (pending popped : List α) : Prop := ∃ fuel, run (· ++ ·) next fuel pending = some popped

theorem Listing.nil : Listing next [] [] := ⟨0, rfl⟩

theorem Listing.append {pending' popped' : List α} (h : Listing next pending popped)
    (h' : Listing next pending' popped') : Listing next (pending ++ pending') (popped ++ popped') := by
  obtain ⟨fuel, h⟩ := h
  obtain ⟨fuel', h'⟩ := h'
  exact ⟨fuel + fuel', run_append h h'⟩

theorem Listing.item {a : α} {below : List α} (h : Listing next (next a) below) : Listing next [a] (a :: below) := by
  obtain ⟨fuel, h⟩ := h
  refine ⟨fuel + 1, ?_⟩
  rw [run, List.append_nil, h, Option.map_some]

/-- Of two items above a third, one is above the other, and pushes nothing of the other's level. -/
theorem under_or_under (hunique : Relator.RightUnique (Pushes next)) {a u v : α} (hu : Under next a u) (hv : Under next a v) :
    Under next u v ∨ Under next v u := Relation.ReflTransGen.total_of_right_unique hunique hu hv

theorem exists_pusher {u v : α} (h : Under next u v) (hne : u ≠ v) : ∃ p, u ∈ next p ∧ Under next p v := by
  rcases h.cases_head with heq | ⟨p, hpush, hrest⟩
  · exact absurd heq hne
  · exact ⟨p, hpush, hrest⟩

/-- Where every item is pushed by one other at most, and once, a walk pops no item twice. -/
theorem Listing.nodup (hunique : Relator.RightUnique (Pushes next)) (hnext : ∀ p, (next p).Nodup)
    (hroots : ∀ r ∈ pending, ∀ q ∈ pending, ∀ p, Under next p q → r ∉ next p) (hpending : pending.Nodup)
    (h : Listing next pending popped) : popped.Nodup := by
  obtain ⟨fuel, hrun⟩ := h
  have hends : ∀ q ∈ pending, ∀ p, Under next p q → ∀ c ∈ next p, ¬ Under next p c := by
    intro q hq p hp c hc hcycle
    have hacc := acc_of_reflTransGen (acc_of_run pushing_append hrun q hq) hp
    exact not_transGen_self hacc (Relation.TransGen.tail' hcycle hc)
  refine (pairwise_run_iff hrun).mpr ⟨fun r hr => ⟨fun p hp c hc a ha => ?_, fun p hp => ?_⟩, ?_⟩
  · rintro rfl
    exact hends r hr p hp c hc ha
  · -- a slot below two of one level would put one of them below the other
    refine (hnext p).imp_of_mem fun {u v} hu hv hne a b ha hb hab => ?_
    subst hab
    rcases under_or_under hunique ha hb with huv | hvu
    · obtain ⟨q, hq, hrest⟩ := exists_pusher huv hne
      exact hends r hr p hp v hv (hunique hq hu ▸ hrest)
    · obtain ⟨q, hq, hrest⟩ := exists_pusher hvu hne.symm
      exact hends r hr p hp u hu (hunique hq hv ▸ hrest)
  · refine hpending.imp_of_mem fun {u v} hu hv hne a b ha hb hab => ?_
    subst hab
    rcases under_or_under hunique ha hb with huv | hvu
    · obtain ⟨q, hq, hrest⟩ := exists_pusher huv hne
      exact hroots u hu v hv q hrest hq
    · obtain ⟨q, hq, hrest⟩ := exists_pusher hvu hne.symm
      exact hroots v hv u hu q hrest hq

theorem exists_listing (hacc : ∀ a ∈ pending, Acc (Pushes next) a) : ∃ popped, Listing next pending popped := by
  obtain ⟨fuel, popped, h⟩ := (run_ends_iff pushing_append).mpr hacc
  exact ⟨popped, fuel, h⟩

end uffs.lib.worklist
