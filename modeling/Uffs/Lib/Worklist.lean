import Mathlib.SetTheory.Cardinal.Finite

/-! Worklists without a visited set: a popped item is replaced by its successors. -/

namespace uffs.lib.worklist

variable {α : Type} {next : α → List α} {push : List α → List α → List α}

/-- Pop the head and push its successors until nothing is pending; the popped items in order, or
`none` when `fuel` pops do not empty the list. -/
def run (push : List α → List α → List α) (next : α → List α) : Nat → List α → Option (List α)
  | _, [] => some []
  | 0, _ :: _ => none
  | fuel + 1, a :: pending => (run push next fuel (push (next a) pending)).map (a :: ·)

/-- The successor relation, from an item down to the ones it pushes. -/
def Pushes (next : α → List α) (c p : α) : Prop := c ∈ next p

/-- Pushing keeps what is pending and adds the successors, in any order. -/
def Pushing (push : List α → List α → List α) : Prop := ∀ new pending, (push new pending).Perm (new ++ pending)

variable {pending popped : List α}

/-- A loop that ends has met well-founded entries only. -/
theorem acc_of_run {fuel : Nat} (hpush : Pushing push)
    (h : run push next fuel pending = some popped) : ∀ a ∈ pending, Acc (Pushes next) a := by
  induction fuel generalizing pending popped with
  | zero =>
    cases pending with
    | nil => exact fun a ha => absurd ha List.not_mem_nil
    | cons a pending => cases h
  | succ fuel ih =>
    cases pending with
    | nil => exact fun a ha => absurd ha List.not_mem_nil
    | cons a pending =>
      obtain ⟨rest, hrest, -⟩ := Option.map_eq_some_iff.mp h
      have hacc := ih hrest
      intro b hb
      cases List.mem_cons.mp hb with
      | inl hba =>
        rw [hba]
        constructor
        intro c hc
        exact hacc c ((hpush _ _).mem_iff.mpr (List.mem_append_left _ hc))
      | inr hb => exact hacc b ((hpush _ _).mem_iff.mpr (List.mem_append_right _ hb))

/-- Successor edges out of the items that end. -/
def EndingEdge (next : α → List α) (c p : α) : Prop := Pushes next c p ∧ Acc (Pushes next) p

theorem endingEdge_wellFounded (next : α → List α) : WellFounded (EndingEdge next) := by
  constructor
  intro a
  by_cases h : Acc (Pushes next) a
  · induction h with
    | intro a _ ih => exact ⟨a, fun c hc => ih c hc.1⟩
  · exact ⟨a, fun c hc => absurd hc.2 h⟩

/-- Pops that an item causes. -/
noncomputable def pops (next : α → List α) : α → Nat :=
  (endingEdge_wellFounded next).fix fun a ih =>
    open Classical in
    if h : Acc (Pushes next) a then 1 + ((next a).attach.map fun c => ih c.1 ⟨c.2, h⟩).sum else 0

theorem pops_eq {a : α} (h : Acc (Pushes next) a) : pops next a = 1 + ((next a).map (pops next)).sum := by
  rw [pops, WellFounded.fix_eq, dif_pos h]
  exact congrArg (1 + List.sum ·) List.attach_map_val

/-- A loop over well-founded entries ends once the fuel covers what they pop. -/
theorem run_of_acc {fuel : Nat} (hpush : Pushing push)
    (hacc : ∀ a ∈ pending, Acc (Pushes next) a) (hfuel : (pending.map (pops next)).sum ≤ fuel) :
    ∃ popped, run push next fuel pending = some popped := by
  induction fuel generalizing pending with
  | zero =>
    cases pending with
    | nil => exact ⟨[], rfl⟩
    | cons a pending =>
      rw [List.map_cons, List.sum_cons, pops_eq (hacc a List.mem_cons_self)] at hfuel
      omega
  | succ fuel ih =>
    cases pending with
    | nil => exact ⟨[], rfl⟩
    | cons a pending =>
      have hmem : ∀ b ∈ push (next a) pending, Acc (Pushes next) b := by
        intro b hb
        cases List.mem_append.mp ((hpush _ _).mem_iff.mp hb) with
        | inl hb => exact (hacc a List.mem_cons_self).inv hb
        | inr hb => exact hacc b (List.mem_cons_of_mem _ hb)
      have hsum : ((push (next a) pending).map (pops next)).sum ≤ fuel := by
        rw [((hpush (next a) pending).map (pops next)).sum_eq, List.map_append, List.sum_append]
        rw [List.map_cons, List.sum_cons, pops_eq (hacc a List.mem_cons_self)] at hfuel
        omega
      obtain ⟨popped, hpopped⟩ := ih hmem hsum
      exact ⟨a :: popped, by rw [run, hpopped, Option.map_some]⟩

/-- A worklist empties exactly if no endless chain of successors starts in it. -/
theorem run_ends_iff (hpush : Pushing push) :
    (∃ fuel popped, run push next fuel pending = some popped) ↔ ∀ a ∈ pending, Acc (Pushes next) a := by
  constructor
  · rintro ⟨fuel, popped, h⟩
    exact acc_of_run hpush h
  · intro hacc
    exact ⟨_, run_of_acc hpush hacc (Nat.le_refl _)⟩

/-- What is accessible does not lead back to itself. -/
theorem not_transGen_self {r : α → α → Prop} {a : α} (h : Acc r a) : ¬ Relation.TransGen r a a := by
  have hacc := h.transGen
  clear h
  induction hacc with
  | intro a _ ih => exact fun hcycle => ih a hcycle hcycle

theorem acc_of_reflTransGen {r : α → α → Prop} {a b : α} (h : Acc r a) (hreach : Relation.ReflTransGen r b a) : Acc r b := by
  rcases Relation.reflTransGen_iff_eq_or_transGen.mp hreach with heq | hpath
  · exact heq ▸ h
  · exact h.inv_of_transGen hpath

/-- Two items that push each other. -/
theorem not_acc_of_cycle {a b : α} (hab : b ∈ next a) (hba : a ∈ next b) : ¬ Acc (Pushes next) a := by
  intro h
  induction h generalizing b with
  | intro a _ ih => exact ih b hab hba hab

/-- Successor graphs with finitely many items below `a` end exactly where nothing leads to itself. -/
theorem acc_iff_acyclic {a : α} (hfinite : {b | Relation.ReflTransGen (Pushes next) b a}.Finite) :
    Acc (Pushes next) a ↔
      ∀ b, Relation.ReflTransGen (Pushes next) b a → ¬ Relation.TransGen (Pushes next) b b := by
  constructor
  · exact fun hacc b hreach => not_transGen_self (acc_of_reflTransGen hacc hreach)
  · intro hacyclic
    let Below := {b // Relation.ReflTransGen (Pushes next) b a}
    let leads : Below → Below → Prop := fun b c => Relation.TransGen (Pushes next) b.1 c.1
    have : Finite Below := hfinite.to_subtype
    have : IsTrans Below leads := ⟨fun _ _ _ hbc hcd => hbc.trans hcd⟩
    have : Std.Irrefl leads := ⟨fun b => hacyclic b.1 b.2⟩
    have hends : ∀ b : Below, Acc (Pushes next) b.1 := by
      intro b
      induction (Finite.wellFounded_of_trans_of_irrefl leads).apply b with
      | intro b _ ih =>
        constructor
        intro c hc
        exact ih ⟨c, .head hc b.2⟩ (.single hc)
    exact hends ⟨a, .refl⟩

/-- More fuel does not change the result. -/
theorem run_mono {fuel fuel' : Nat} (h : run push next fuel pending = some popped)
    (hle : fuel ≤ fuel') : run push next fuel' pending = some popped := by
  induction fuel generalizing fuel' pending popped with
  | zero =>
    cases pending with
    | nil =>
      rw [run] at h ⊢
      exact h
    | cons a pending => cases h
  | succ fuel ih =>
    cases pending with
    | nil =>
      rw [run] at h ⊢
      exact h
    | cons a pending =>
      obtain ⟨rest, hrest, hpopped⟩ := Option.map_eq_some_iff.mp h
      obtain ⟨more, rfl⟩ := Nat.exists_eq_add_of_le hle
      rw [Nat.succ_add, run, ih hrest (Nat.le_add_right _ _), Option.map_some, hpopped]

/-- What a run pops is what the pending items lead to. -/
theorem mem_run_iff (hpush : Pushing push) {fuel : Nat} (h : run push next fuel pending = some popped) {a : α} :
    a ∈ popped ↔ ∃ r ∈ pending, Relation.ReflTransGen (Pushes next) a r := by
  induction fuel generalizing pending popped with
  | zero =>
    cases pending with
    | nil =>
      obtain rfl := Option.some.inj h
      simp
    | cons b pending => cases h
  | succ fuel ih =>
    cases pending with
    | nil =>
      obtain rfl := Option.some.inj h
      simp
    | cons b pending =>
      obtain ⟨rest, hrest, rfl⟩ := Option.map_eq_some_iff.mp h
      rw [List.mem_cons, ih hrest]
      constructor
      · rintro (rfl | ⟨r, hr, hreach⟩)
        · exact ⟨a, List.mem_cons_self, Relation.ReflTransGen.refl⟩
        · cases List.mem_append.mp ((hpush _ _).mem_iff.mp hr) with
          | inl hnew => exact ⟨b, List.mem_cons_self, hreach.tail hnew⟩
          | inr hold => exact ⟨r, List.mem_cons_of_mem _ hold, hreach⟩
      · rintro ⟨r, hr, hreach⟩
        cases List.mem_cons.mp hr with
        | inr hold => exact Or.inr ⟨r, (hpush _ _).mem_iff.mpr (List.mem_append_right _ hold), hreach⟩
        | inl hrb =>
          -- the chain ends in the popped item: it is that item or goes through one of its successors
          rcases hreach.cases_tail with hab | ⟨c, hreach, hc⟩
          · exact Or.inl (hab.symm.trans hrb)
          · exact Or.inr ⟨c, (hpush _ _).mem_iff.mpr (List.mem_append_left _ (hrb ▸ hc)), hreach⟩

/-- With no endless chain, enough fuel pops what the pending items lead to. -/
theorem run_reaches (hpush : Pushing push) (hacc : ∀ a ∈ pending, Acc (Pushes next) a) :
    ∃ enough, ∀ fuel, enough ≤ fuel → ∃ popped, run push next fuel pending = some popped ∧
      ∀ a, a ∈ popped ↔ ∃ r ∈ pending, Relation.ReflTransGen (Pushes next) a r := by
  obtain ⟨enough, popped, h⟩ := (run_ends_iff hpush).mpr hacc
  exact ⟨enough, fun fuel hle => ⟨popped, run_mono h hle, fun _ => mem_run_iff hpush h⟩⟩

section forest

variable [Finite α]

/-- A chain of items in which every one is the parent of the one before it. -/
def Lineage (parent : α → Option α) : List α → Prop
  | [] => True
  | [a] => parent a = none
  | a :: b :: rest => parent a = some b ∧ Lineage parent (b :: rest)

variable {parent : α → Option α}

omit [Finite α] in
theorem Lineage.parent_of_mem {chain : List α} (h : Lineage parent chain) {a : α} (ha : a ∈ chain) :
    parent a = none ∨ ∃ b ∈ chain.tail, parent a = some b := by
  induction chain with
  | nil => cases ha
  | cons c chain ih =>
    cases chain with
    | nil =>
      rw [List.mem_singleton.mp ha]
      exact Or.inl h
    | cons d rest =>
      cases List.mem_cons.mp ha with
      | inl hac =>
        rw [hac]
        exact Or.inr ⟨d, List.mem_cons_self, h.1⟩
      | inr ha =>
        rcases ih h.2 ha with hnone | ⟨b, hb, hparent⟩
        · exact Or.inl hnone
        · exact Or.inr ⟨b, List.mem_of_mem_tail hb, hparent⟩

omit [Finite α] in
/-- A child on the lineage would make its head occur twice. -/
theorem Lineage.child_fresh {a c : α} {chain : List α} (h : Lineage parent (a :: chain)) (hnodup : (a :: chain).Nodup)
    (hc : parent c = some a) : c ∉ a :: chain := by
  intro hmem
  rcases h.parent_of_mem hmem with hnone | ⟨b, hb, hparent⟩
  · rw [hc] at hnone
    cases hnone
  · rw [hc] at hparent
    exact (List.nodup_cons.mp hnodup).1 (Option.some.inj hparent ▸ hb)

/-- Below the end of a lineage no chain of children is endless. -/
theorem acc_of_lineage {parent : α → Option α} {room : Nat} {a : α} {chain : List α}
    (hchain : Lineage parent (a :: chain)) (hnodup : (a :: chain).Nodup)
    (hroom : Nat.card α ≤ (a :: chain).length + room) : Acc (fun c p => parent c = some p) a := by
  induction room generalizing a chain with
  | zero =>
    constructor
    intro c hc
    have hfresh := hchain.child_fresh hnodup hc
    have := Fintype.ofFinite α
    have hcard := (List.nodup_cons.mpr ⟨hfresh, hnodup⟩).length_le_card
    rw [← Nat.card_eq_fintype_card, List.length_cons] at hcard
    omega
  | succ room ih =>
    constructor
    intro c hc
    have hfresh := hchain.child_fresh hnodup hc
    refine ih (show Lineage parent (c :: a :: chain) from ⟨hc, hchain⟩) (List.nodup_cons.mpr ⟨hfresh, hnodup⟩) ?_
    rw [List.length_cons]
    omega

/-- Below a root no chain of children is endless, whatever cycles there are elsewhere. -/
theorem acc_root {root : α} (hroot : parent root = none) : Acc (fun c p => parent c = some p) root :=
  @acc_of_lineage _ _ parent (Nat.card α) root [] hroot (List.nodup_singleton root) (Nat.le_add_left _ _)

/-- An item climbs to an ancestor, itself included. -/
def Below (parent : α → Option α) (root a : α) : Prop := Relation.ReflTransGen (fun c p => parent c = some p) a root

omit [Finite α] in
theorem Below.child {parent : α → Option α} {root a c : α} (h : Below parent root a) (hc : parent c = some a) :
    Below parent root c := Relation.ReflTransGen.head hc h

omit [Finite α] in
/-- Above a cycle there is an endless chain. -/
theorem not_acc_of_below {root a : α} (hbelow : Below parent root a) (hcycle : parent root = some a) :
    ¬ Acc (fun c p => parent c = some p) root := by
  intro hacc
  exact not_transGen_self hacc (Relation.TransGen.head' hcycle hbelow)

/-- What a walk over a forest has seen: every item once, and all successors of what it popped. -/
structure Seen (parent : α → Option α) (next : α → List α) (root : α) (seen pending : List α) : Prop where
  nodup : (seen ++ pending).Nodup
  closed : ∀ p ∈ seen, ∀ c ∈ next p, c ∈ seen ++ pending
  known : ∀ a ∈ seen ++ pending, a = root ∨ ∃ p ∈ seen, parent a = some p
  below : ∀ a ∈ seen ++ pending, Below parent root a

omit [Finite α] in
theorem Seen.pop {root a : α} {seen : List α} (hpush : Pushing push) (hacc : Acc (fun c p => parent c = some p) root)
    (hnext : ∀ p, Below parent root p → (next p).Nodup ∧ ∀ c ∈ next p, parent c = some p)
    (h : Seen parent next root seen (a :: pending)) : Seen parent next root (seen ++ [a]) (push (next a) pending) := by
  have hold : ∀ x, x ∈ seen ++ a :: pending ↔ x ∈ seen ++ [a] ++ pending := by simp
  have hmem : ∀ x, x ∈ seen ++ [a] ++ push (next a) pending ↔ x ∈ seen ++ a :: pending ∨ x ∈ next a := by
    intro x
    rw [hold, List.mem_append, (hpush _ _).mem_iff]
    simp only [List.mem_append]
    tauto
  have hself : a ∈ seen ++ a :: pending := List.mem_append_right _ List.mem_cons_self
  have hunseen : a ∉ seen := fun hseen => (List.nodup_append.mp h.nodup).2.2 a hseen a List.mem_cons_self rfl
  obtain ⟨hnextNodup, hparent⟩ := hnext a (h.below a hself)
  -- A successor seen before would have its only parent popped before, or be the root.
  have hfresh : ∀ c ∈ next a, c ∉ seen ++ a :: pending := by
    intro c hc hseen
    rcases h.known c hseen with rfl | ⟨p, hp, hcp⟩
    · exact not_acc_of_below (h.below a hself) (hparent c hc) hacc
    · rw [hparent c hc] at hcp
      exact hunseen (Option.some.inj hcp ▸ hp)
  refine ⟨?_, ?_, ?_, ?_⟩
  · have hperm : (seen ++ [a] ++ push (next a) pending).Perm ((seen ++ a :: pending) ++ next a) := by
      have hswap : (push (next a) pending).Perm (pending ++ next a) := (hpush _ _).trans List.perm_append_comm
      simpa using hswap.append_left (seen ++ [a])
    rw [hperm.nodup_iff]
    refine List.nodup_append.mpr ⟨h.nodup, hnextNodup, ?_⟩
    rintro x hx y hy rfl
    exact hfresh x hy hx
  · intro p hp c hc
    rw [hmem]
    cases List.mem_append.mp hp with
    | inl hseen => exact Or.inl (h.closed p hseen c hc)
    | inr hlast => exact Or.inr (List.mem_singleton.mp hlast ▸ hc)
  · intro x hx
    rcases (hmem x).mp hx with hx | hx
    · exact (h.known x hx).imp_right fun ⟨p, hp, hxp⟩ => ⟨p, List.mem_append_left _ hp, hxp⟩
    · exact Or.inr ⟨a, List.mem_append_right _ List.mem_cons_self, hparent x hx⟩
  · intro x hx
    rcases (hmem x).mp hx with hx | hx
    · exact h.below x hx
    · exact (h.below a hself).child (hparent x hx)

omit [Finite α] in
/-- The whole walk: everything it popped, once each, and closed under successors. -/
theorem Seen.run {root : α} {seen : List α} {fuel : Nat} (hpush : Pushing push)
    (hacc : Acc (fun c p => parent c = some p) root)
    (hnext : ∀ p, Below parent root p → (next p).Nodup ∧ ∀ c ∈ next p, parent c = some p)
    (h : Seen parent next root seen pending) (hrun : worklist.run push next fuel pending = some popped) :
    Seen parent next root (seen ++ popped) [] := by
  induction fuel generalizing seen pending popped with
  | zero =>
    cases pending with
    | nil =>
      obtain rfl := Option.some.inj hrun
      simpa using h
    | cons a pending => cases hrun
  | succ fuel ih =>
    cases pending with
    | nil =>
      obtain rfl := Option.some.inj hrun
      simpa using h
    | cons a pending =>
      obtain ⟨rest, hrest, rfl⟩ := Option.map_eq_some_iff.mp hrun
      have hseen := ih (h.pop hpush hacc hnext) hrest
      simpa using hseen

omit [Finite α] in
/-- A walk from a root: its descendants, once each. -/
theorem seen_start {root : α} (hpush : Pushing push) (hacc : Acc (fun c p => parent c = some p) root)
    (hnext : ∀ p, Below parent root p → (next p).Nodup ∧ ∀ c ∈ next p, parent c = some p) :
    Seen parent next root [root] (push (next root) []) := by
  have hroot : Seen parent next root [] [root] :=
    ⟨by simp, by simp, by simp, fun a ha => by
      rw [List.mem_singleton.mp ha]
      exact Relation.ReflTransGen.refl⟩
  simpa using hroot.pop hpush hacc hnext

end forest

/-- What holds of every run that ends, where the runs end with what is known. -/
theorem enough_iff {limit result : Type} {run : Nat → limit → Option result} {found : limit → result}
    {good : limit → result → Prop} (hrun : ∃ enough, ∀ fuel, enough ≤ fuel → ∀ n, run fuel n = some (found n)) :
    (∃ enough, ∀ fuel, enough ≤ fuel → ∀ n, ∃ rows, run fuel n = some rows ∧ good n rows) ↔ ∀ n, good n (found n) := by
  obtain ⟨enough, hrun⟩ := hrun
  constructor
  · rintro ⟨enough', h⟩ n
    obtain ⟨rows, hrows, hgood⟩ := h (max enough enough') (Nat.le_max_right _ _) n
    obtain rfl := Option.some.inj (hrows.symm.trans (hrun _ (Nat.le_max_left _ _) n))
    exact hgood
  · exact fun h => ⟨enough, fun fuel hle n => ⟨_, hrun fuel hle n, h n⟩⟩

instance finiteUInt32 : Finite UInt32 := Finite.of_injective UInt32.toFin fun _ _ => UInt32.toFin_inj.mp

end uffs.lib.worklist
