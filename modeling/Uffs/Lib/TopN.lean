import Uffs.Lib.Ranking

namespace uffs.lib

/-! The first `n` rows of a sort, chosen by a key before the rows are put in order. -/

/-- A sort by a comparison that promises nothing about the order of entries that tie. -/
structure UnstableSort where
  run : {α : Type} → (α → α → Ordering) → List α → List α
  perm : ∀ {α : Type} (cmp : α → α → Ordering) (l : List α), (run cmp l).Perm l
  sorted : ∀ {α : Type} (cmp : α → α → Ordering) [Std.TransCmp cmp] (l : List α),
    (run cmp l).Pairwise fun a b => (cmp a b).isLE

/-- Asked the other way round, a comparison answers the other way round. -/
theorem cmp_flip {α : Type} (cmp : α → α → Ordering) [Std.OrientedCmp cmp] (a b : α) : cmp b a = (cmp a b).swap :=
  Std.OrientedCmp.eq_swap

theorem pairwise_mergeSort_cmp {α : Type} (cmp : α → α → Ordering) [Std.TransCmp cmp] (l : List α) :
    (l.mergeSort fun a b => (cmp a b).isLE).Pairwise fun a b => (cmp a b).isLE := by
  apply List.pairwise_mergeSort
  · exact fun a b c => Std.TransCmp.isLE_trans
  · intro a b
    rw [Bool.or_eq_true, cmp_flip cmp a b]
    cases cmp a b <;> simp

/-- The stable sort is one of them. -/
def UnstableSort.stable : UnstableSort where
  run cmp l := l.mergeSort fun a b => (cmp a b).isLE
  perm _ l := List.mergeSort_perm l _
  sorted cmp _ l := pairwise_mergeSort_cmp cmp l

/-- A comparison in one of the two directions. -/
def directed {α : Type} (descending : Bool) (cmp : α → α → Ordering) : α → α → Ordering :=
  fun a b => if descending then (cmp a b).swap else cmp a b

instance {α : Type} (descending : Bool) (cmp : α → α → Ordering) [Std.TransCmp cmp] :
    Std.TransCmp (directed descending cmp) := by
  cases descending with
  | false => exact inferInstanceAs (Std.TransCmp cmp)
  | true =>
    have hflip : directed true cmp = fun a b => cmp b a := by
      funext a b
      exact Std.OrientedCmp.eq_swap.symm
    rw [hflip]
    infer_instance

instance {α : Type} (descending : Bool) (cmp : α → α → Ordering) [Std.LawfulEqCmp cmp] :
    Std.LawfulEqCmp (directed descending cmp) where
  compare_self := by
    intro a
    cases descending <;> simp [directed]
  eq_of_compare := by
    intro a b h
    have htie : cmp a b = .eq := by
      cases descending with
      | false => exact h
      | true => exact Ordering.swap_eq_eq.mp h
    exact Std.LawfulEqCmp.eq_of_compare htie

variable {n : Nat}

section keeping

variable {α β κ μ : Type} [LinearOrder κ] [LinearOrder μ] {key : α → κ}

theorem Keeps.all {all : List α} (hfits : all.length ≤ n) : Keeps key n all all :=
  ⟨hfits, [], by rw [List.append_nil], fun _ _ _ hb => absurd hb List.not_mem_nil, fun _ => rfl⟩

theorem Keeps.reorder {all kept kept' : List α} (h : Keeps key n all kept) (hperm : kept'.Perm kept) :
    Keeps key n all kept' := by
  obtain ⟨hlen, dropped, hsplit, hbest, hfull⟩ := h
  refine ⟨hperm.length_eq.trans_le hlen, dropped, (hperm.append_right dropped).trans hsplit, fun a ha => ?_, fun hroom => ?_⟩
  · exact hbest a (hperm.mem_iff.mp ha)
  · exact hfull (hperm.length_eq ▸ hroom)

variable {all kept : List α}

/-- The best by a key are among the best by any coarser one. -/
theorem Keeps.coarsen (h : Keeps key n all kept) {f : κ → μ} (hf : Monotone f) : Keeps (f ∘ key) n all kept := by
  obtain ⟨hlen, dropped, hsplit, hbest, hfull⟩ := h
  exact ⟨hlen, dropped, hsplit, fun a ha b hb => hf (hbest a ha b hb), hfull⟩

theorem Keeps.map {f : α → β} {key' : β → κ} (h : Keeps key n all kept) (hkey : ∀ a ∈ all, key' (f a) = key a) :
    Keeps key' n (all.map f) (kept.map f) := by
  obtain ⟨hlen, dropped, hsplit, hbest, hfull⟩ := h
  refine ⟨by rwa [List.length_map], dropped.map f, ?_, ?_, fun hroom => ?_⟩
  · rw [← List.map_append]
    exact hsplit.map f
  · intro a ha b hb
    obtain ⟨x, hx, rfl⟩ := List.mem_map.mp ha
    obtain ⟨y, hy, rfl⟩ := List.mem_map.mp hb
    rw [hkey x (hsplit.subset (List.mem_append_left _ hx)), hkey y (hsplit.subset (List.mem_append_right _ hy))]
    exact hbest x hx y hy
  · rw [List.length_map] at hroom
    rw [hfull hroom, List.map_nil]

/-- The first `n` of a ranking. -/
theorem Ranked.keeps_take {all ranked : List α} (h : Ranked key ranked) (hperm : ranked.Perm all) :
    Keeps key n all (ranked.take n) := by
  refine ⟨List.length_take_le n ranked, ranked.drop n, ?_, ?_, fun hroom => ?_⟩
  · rw [List.take_append_drop]
    exact hperm
  · rw [Ranked, ← List.take_append_drop n ranked, List.pairwise_append] at h
    exact h.2.2
  · rw [List.length_take] at hroom
    exact List.drop_eq_nil_of_le (by omega)

/-- Each part may keep its own best before the best of all are kept. -/
theorem Keeps.merge {parts : List (List α × List α)}
    (hparts : ∀ part ∈ parts, part.2 = part.1 ∨ Keeps key n part.1 part.2) {kept : List α} {before : List α}
    (h : Keeps key n (before ++ parts.flatMap Prod.snd) kept) : Keeps key n (before ++ parts.flatMap Prod.fst) kept := by
  induction parts generalizing before with
  | nil => exact h
  | cons part parts ih =>
    have hfirst : Keeps key n ((before ++ part.1) ++ parts.flatMap Prod.snd) kept := by
      rw [List.flatMap_cons, ← List.append_assoc] at h
      cases hparts part List.mem_cons_self with
      | inl heq => rwa [heq] at h
      | inr hpart =>
        have haside : ∀ own : List α, (before ++ own ++ parts.flatMap Prod.snd).Perm
            (before ++ parts.flatMap Prod.snd ++ own) := by
          intro own
          rw [List.append_assoc, List.append_assoc]
          exact List.perm_append_comm.append_left before
        exact ((h.perm (haside part.2)).widen hpart).perm (haside part.1).symm
    rw [List.flatMap_cons, ← List.append_assoc]
    exact ih (fun other hother => hparts other (List.mem_cons_of_mem _ hother)) hfirst

theorem Keeps.length_eq (h : Keeps key n all kept) : kept.length = min n all.length := by
  obtain ⟨hlen, dropped, hsplit, -, hfull⟩ := h
  have hlength := hsplit.length_eq
  rw [List.length_append] at hlength
  by_cases hroom : kept.length < n
  · rw [hfull hroom, List.length_nil] at hlength
    omega
  · omega

/-- With room for exactly the entries before `b`, it is these that are kept. -/
theorem Keeps.mem_iff_of_rank {b : α} (h : Keeps key (rank key all b) all kept) {a : α} (ha : a ∈ all) :
    a ∈ kept ↔ key a < key b := by
  have hfull : kept.length = rank key all b := by
    rw [h.length_eq]
    exact min_eq_left (List.length_filter_le _ _)
  obtain ⟨-, dropped, hsplit, hbest, -⟩ := h
  have hcount : kept.countP (fun c => key c < key b) + dropped.countP (fun c => key c < key b) = kept.length := by
    rw [← List.countP_append, hsplit.countP_eq, hfull, rank, List.countP_eq_length_filter]
  constructor
  · intro hkept
    by_contra hge
    -- An entry is kept that is not before `b`, hence one before `b` is not.
    have hfew : kept.countP (fun c => key c < key b) < kept.length := by
      refine lt_of_le_of_ne List.countP_le_length fun heq => ?_
      exact hge (by simpa using List.countP_eq_length.mp heq a hkept)
    obtain ⟨c, hc, hlt⟩ := List.countP_pos_iff.mp (show 0 < dropped.countP (fun c => key c < key b) by omega)
    exact hge (lt_of_le_of_lt (hbest a hkept c hc) (by simpa using hlt))
  · intro hlt
    by_contra hnot
    have hdropped : a ∈ dropped := by
      have hmem := hsplit.mem_iff.mpr ha
      rw [List.mem_append] at hmem
      exact hmem.resolve_left hnot
    have hall : kept.countP (fun c => key c < key b) = kept.length :=
      List.countP_eq_length.mpr fun c hc => by simpa using lt_of_le_of_lt (hbest c hc a hdropped) hlt
    have hsome : 0 < dropped.countP (fun c => key c < key b) :=
      List.countP_pos_iff.mpr ⟨a, hdropped, by simpa using hlt⟩
    omega

/-- For every limit only ties in the key are let go for what they displace, exactly if the key never
contradicts what displaces what. -/
theorem Keeps.sound_iff {all : List α} {kept : Nat → List α} (h : ∀ n, Keeps key n all (kept n)) {displaces : α → α → Prop} :
    (∀ n, ∀ a ∈ kept n, ∀ b ∈ all, b ∉ kept n → key a ≠ key b → ¬displaces b a) ↔
      ∀ a ∈ all, ∀ b ∈ all, key a < key b → ¬displaces b a := by
  constructor
  · intro hsound a ha b hb hlt
    have hmem := fun {c} (hc : c ∈ all) => (h (rank key all b)).mem_iff_of_rank hc
    exact hsound (rank key all b) a ((hmem ha).mpr hlt) b hb (fun hkept => lt_irrefl _ ((hmem hb).mp hkept)) hlt.ne
  · intro hagree n a ha b hb hleft hne
    obtain ⟨-, dropped, hsplit, hbest, -⟩ := h n
    have hdropped : b ∈ dropped := (List.mem_append.mp (hsplit.mem_iff.mpr hb)).resolve_left hleft
    exact hagree a (hsplit.subset (List.mem_append_left _ ha)) b hb (lt_of_le_of_ne (hbest a ha b hdropped) hne)

end keeping

section selection

variable {α β : Type}

/-- `rows` are `n` of the entries in order, and none that was let go displaces one of them. -/
structure TopN (row_of : α → Option β) (before : β → β → Prop) (displaces : α → α → Prop) (n : Nat) (all : List α)
    (rows : List β) : Prop where
  length : rows.length = min n all.length
  sorted : rows.Pairwise fun a b => ¬before b a
  best : ∃ kept left : List α, (kept ++ left).Perm all ∧ (kept.map row_of).Perm (rows.map some) ∧
    ∀ a ∈ kept, ∀ b ∈ left, ¬displaces b a

theorem TopN.of_keeps {κ : Type} [LinearOrder κ] {key : α → κ} {row_of : α → Option β} {before : β → β → Prop}
    {displaces : α → α → Prop} {all kept : List α} {rows : List β} (h : Keeps key n all kept)
    (hrows : (kept.map row_of).Perm (rows.map some)) (hsorted : rows.Pairwise fun a b => ¬before b a)
    (hagree : ∀ a ∈ all, ∀ b ∈ all, key a ≤ key b → ¬displaces b a) : TopN row_of before displaces n all rows := by
  have hlength := hrows.length_eq
  rw [List.length_map, List.length_map, h.length_eq] at hlength
  obtain ⟨-, left, hsplit, hbest, -⟩ := h
  refine ⟨hlength.symm, hsorted, kept, left, hsplit, hrows, fun a ha b hb => ?_⟩
  exact hagree a (hsplit.subset (List.mem_append_left _ ha)) b (hsplit.subset (List.mem_append_right _ hb)) (hbest a ha b hb)

theorem TopN.of_perm {row_of : α → Option β} {before : β → β → Prop} {displaces : α → α → Prop} {all all' : List α}
    {rows : List β} (h : TopN row_of before displaces n all rows) (hperm : all.Perm all') :
    TopN row_of before displaces n all' rows := by
  obtain ⟨hlength, hsorted, kept, left, hsplit, hrows, hbest⟩ := h
  exact ⟨hperm.length_eq ▸ hlength, hsorted, kept, left, hsplit.trans hperm, hrows, hbest⟩

/-- With room for all, the rows are those of all entries. -/
theorem TopN.rows_of_all {row_of : α → Option β} {before : β → β → Prop} {displaces : α → α → Prop} {all : List α}
    {rows : List β} (h : TopN row_of before displaces n all rows) (hroom : all.length ≤ n) :
    (all.map row_of).Perm (rows.map some) := by
  obtain ⟨hlength, -, kept, left, hsplit, hrows, -⟩ := h
  have hkept := hrows.length_eq
  have hall := hsplit.length_eq
  rw [List.length_map, List.length_map, hlength, Nat.min_eq_right hroom] at hkept
  rw [List.length_append, hkept] at hall
  obtain rfl : left = [] := List.length_eq_zero_iff.mp (by omega)
  rw [List.append_nil] at hsplit
  exact (hsplit.symm.map _).trans hrows

/-- Entries are told apart by their rows, so lists with the same rows have the same entries. -/
theorem perm_of_rows {row_of : α → Option β} (hinj : ∀ a b row, row_of a = some row → row_of b = some row → a = b)
    {all all' : List α} (hnodup : all.Nodup) (hnodup' : all'.Nodup) {rows : List β} (h : (all.map row_of).Perm (rows.map some))
    (h' : (all'.map row_of).Perm (rows.map some)) : all.Perm all' := by
  have hsub : ∀ {l l' : List α}, (l.map row_of).Perm (rows.map some) → (l'.map row_of).Perm (rows.map some) → ∀ a ∈ l, a ∈ l' := by
    intro l l' hl hl' a ha
    obtain ⟨row, -, hrow⟩ := List.mem_map.mp (hl.mem_iff.mp (List.mem_map_of_mem ha))
    obtain ⟨b, hb, hsame⟩ := List.mem_map.mp ((hl.trans hl'.symm).mem_iff.mp (List.mem_map_of_mem ha))
    rw [hinj a b row hrow.symm (hsame.trans hrow.symm)]
    exact hb
  exact (List.perm_ext_iff_of_nodup hnodup hnodup').mpr fun a => ⟨hsub h h' a, hsub h' h a⟩

end selection

section ties

variable {α κ : Type} {key : α → κ}

/-- The first rows of a sorted list, where rows with one key may stand in any order. -/
def FirstOf (key : α → κ) (limit : Nat) (rows sorted : List α) : Prop :=
  ∃ tied : List α, tied.Perm sorted ∧ tied.map key = sorted.map key ∧ rows = tied.take limit

theorem firstOf_iff {l sorted : List α} :
    (∀ limit, FirstOf key limit (l.take limit) sorted) ↔ l.Perm sorted ∧ l.map key = sorted.map key := by
  constructor
  · intro h
    obtain ⟨tied, hperm, hkeys, heq⟩ := h (max l.length sorted.length)
    rw [List.take_of_length_le (Nat.le_max_left _ _),
      List.take_of_length_le (hperm.length_eq.trans_le (Nat.le_max_right _ _))] at heq
    exact heq ▸ ⟨hperm, hkeys⟩
  · exact fun h limit => ⟨l, h.1, h.2, rfl⟩

theorem eq_of_map_eq {l l' : List α} (hinj : ∀ a ∈ l, ∀ b ∈ l', key a = key b → a = b) (h : l.map key = l'.map key) : l = l' := by
  induction l generalizing l' with
  | nil => exact (List.map_eq_nil_iff.mp h.symm).symm
  | cons a l ih =>
    cases l' with
    | nil => cases h
    | cons b l' =>
      obtain ⟨hkey, hrest⟩ := List.cons.inj h
      rw [hinj a List.mem_cons_self b List.mem_cons_self hkey,
        ih (fun x hx y hy => hinj x (List.mem_cons_of_mem _ hx) y (List.mem_cons_of_mem _ hy)) hrest]

/-- Where no two rows have one key, these are the first rows themselves. -/
theorem FirstOf.exact {limit : Nat} {rows sorted : List α} (h : FirstOf key limit rows sorted)
    (hinj : ∀ a ∈ sorted, ∀ b ∈ sorted, key a = key b → a = b) : rows = sorted.take limit := by
  obtain ⟨tied, hperm, hkeys, rfl⟩ := h
  rw [eq_of_map_eq (fun a ha b hb => hinj a (hperm.mem_iff.mp ha) b hb) hkeys]

/-- Rows stand as in the sorted list exactly if they are sorted. -/
theorem map_key_eq_iff {order : κ → κ → Ordering} [Std.TransCmp order] [Std.LawfulEqCmp order] {l sorted : List α}
    (hperm : l.Perm sorted) (hsorted : sorted.Pairwise fun a b => (order (key a) (key b)).isLE) :
    l.map key = sorted.map key ↔ l.Pairwise fun a b => (order (key a) (key b)).isLE := by
  have hkeys : ∀ rows : List α, (rows.map key).Pairwise (fun k k' => (order k k').isLE) ↔
      rows.Pairwise fun a b => (order (key a) (key b)).isLE := fun _ => List.pairwise_map
  constructor
  · intro heq
    rw [← hkeys, heq, hkeys]
    exact hsorted
  · intro hl
    refine (hperm.map key).eq_of_pairwise (fun k k' _ _ hle hge => ?_) ((hkeys l).mpr hl) ((hkeys sorted).mpr hsorted)
    have htie : order k k' = .eq := Std.OrientedCmp.isLE_antisymm hle hge
    exact Std.LawfulEqCmp.eq_of_compare htie

end ties

end uffs.lib
