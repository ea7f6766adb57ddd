import Mathlib.Data.List.Sort
import Mathlib.Data.List.Perm.Lattice

namespace uffs.lib

/-! The best entries of a list by a key, where nothing is known of the order of entries that tie. -/

variable {n : Nat}

section ranking

variable {α β κ : Type} [LinearOrder κ] {key : α → κ}

/-- Smallest key first. -/
def Ranked (key : α → κ) (l : List α) : Prop := l.Pairwise fun a b => key a ≤ key b

/-- How many entries stand before this one, however ties are broken. -/
def rank (key : α → κ) (l : List α) (a : α) : Nat := (l.filter fun b => key b < key a).length

/-- Entries that tie for one of the first `n` places show the same. -/
def TiesAlike (key : α → κ) (row : α → β) (n : Nat) (l : List α) : Prop :=
  ∀ a ∈ l, ∀ b ∈ l, key a = key b → rank key l a < n → row a = row b

variable {l l' : List α}

theorem rank_perm (h : l.Perm l') (a : α) : rank key l a = rank key l' a := (h.filter _).length_eq

theorem rank_eq_of_key_eq {l : List α} {a b : α} (h : key a = key b) : rank key l a = rank key l b := by rw [rank, rank, h]

theorem TiesAlike.perm {row : α → β} (h : TiesAlike key row n l) (hperm : l.Perm l') : TiesAlike key row n l' := by
  intro a ha b hb htie hrank
  rw [← rank_perm hperm] at hrank
  exact h a (hperm.mem_iff.mpr ha) b (hperm.mem_iff.mpr hb) htie hrank

/-- Two rankings of the same entries have the same keys place by place. -/
theorem Ranked.map_key_eq (h : Ranked key l) (h' : Ranked key l') (hperm : l.Perm l') : l.map key = l'.map key :=
  (hperm.map key).eq_of_pairwise' (List.pairwise_map.mpr h) (List.pairwise_map.mpr h')

/-- Nothing behind an entry that is not before `a` is before `a`. -/
theorem Ranked.rank_cons_eq_zero {b : α} {rest : List α} (h : Ranked key (b :: rest)) {a : α} (hb : ¬key b < key a) :
    rank key (b :: rest) a = 0 := by
  refine List.length_eq_zero_iff.mpr (List.filter_eq_nil_iff.mpr fun c hc => ?_)
  rcases List.mem_cons.mp hc with rfl | hlater
  · simpa using hb
  · simpa using le_trans (not_lt.mp hb) ((List.pairwise_cons.mp h).1 c hlater)

theorem Ranked.rank_le {l : List α} (h : Ranked key l) {i : Nat} {a : α} (hget : l[i]? = some a) : rank key l a ≤ i := by
  induction l generalizing i with
  | nil => cases hget
  | cons b rest ih =>
    cases i with
    | zero =>
      simp only [List.getElem?_cons_zero, Option.some.injEq] at hget
      subst hget
      exact (h.rank_cons_eq_zero (lt_irrefl _)).le
    | succ i =>
      have hle := ih (List.pairwise_cons.mp h).2 (by simpa using hget)
      unfold rank at hle ⊢
      rw [List.filter_cons]
      split
      · exact Nat.succ_le_succ hle
      · exact Nat.le_succ_of_le hle

theorem Ranked.rank_lt_of_mem_take {l : List α} (h : Ranked key l) {a : α} (hmem : a ∈ l.take n) : rank key l a < n := by
  obtain ⟨i, hi⟩ := List.mem_iff_getElem?.mp hmem
  have hlt : i < n := by
    by_contra hge
    rw [List.getElem?_take_eq_none (by omega)] at hi
    cases hi
  rw [List.getElem?_take_of_lt hlt] at hi
  exact lt_of_le_of_lt (h.rank_le hi) hlt

/-- The first `n` rows do not depend on the order of ties if these look alike. -/
theorem Ranked.take_map_eq {row : α → β} (h : Ranked key l) (h' : Ranked key l') (hperm : l.Perm l')
    (halike : TiesAlike key row n l) : (l.take n).map row = (l'.take n).map row := by
  have hkeys := h.map_key_eq h' hperm
  refine List.ext_getElem? fun i => ?_
  by_cases hi : i < n
  · rw [List.getElem?_map, List.getElem?_map, List.getElem?_take_of_lt hi, List.getElem?_take_of_lt hi]
    have hkey : (l[i]?).map key = (l'[i]?).map key := by rw [← List.getElem?_map, ← List.getElem?_map, hkeys]
    cases ha : l[i]? with
    | none =>
      rw [ha] at hkey
      rw [Option.map_eq_none_iff.mp hkey.symm]
    | some a =>
      rw [ha] at hkey
      obtain ⟨b, hb, hkb⟩ := Option.map_eq_some_iff.mp hkey.symm
      rw [hb]
      have hmem : b ∈ l := hperm.mem_iff.mpr (List.mem_of_getElem? hb)
      exact congrArg some (halike a (List.mem_of_getElem? ha) b hmem hkb.symm (lt_of_le_of_lt (h.rank_le ha) hi))
  · have hlong : ∀ entries : List α, n ≤ i → ((entries.take n).map row)[i]? = none := by
      intro entries hle
      refine List.getElem?_eq_none ?_
      rw [List.length_map, List.length_take]
      omega
    rw [hlong l (by omega), hlong l' (by omega)]

section sorting

variable {r : α → α → Prop} [DecidableRel r]

/-- A comparison that goes by the key. -/
def GoesBy (r : α → α → Prop) (key : α → κ) : Prop := ∀ a b, r a b ↔ key a ≤ key b

theorem GoesBy.ranked (h : GoesBy r key) (l : List α) : Ranked key (l.insertionSort r) := by
  have : Std.Total r := ⟨fun a b => by simpa only [h a b, h b a] using le_total (key a) (key b)⟩
  have : IsTrans α r := ⟨fun a b c hab hbc => (h a c).mpr (le_trans ((h a b).mp hab) ((h b c).mp hbc))⟩
  exact (List.pairwise_insertionSort r l).imp fun hab => (h _ _).mp hab

theorem GoesBy.insertionSort_eq (h : GoesBy r key) {l : List α} (hl : Ranked key l) : l.insertionSort r = l :=
  List.Pairwise.insertionSort_eq (hl.imp fun hab => (h _ _).mpr hab)

theorem Ranked.length_takeWhile {l : List α} (h : Ranked key l) (a : α) :
    (l.takeWhile fun b => key b < key a).length = rank key l a := by
  induction l with
  | nil => rfl
  | cons b rest ih =>
    by_cases hb : key b < key a
    · have hrec := ih (List.pairwise_cons.mp h).2
      unfold rank at hrec ⊢
      rw [List.takeWhile_cons_of_pos (by simpa using hb), List.filter_cons_of_pos (by simpa using hb)]
      exact congrArg Nat.succ hrec
    · rw [h.rank_cons_eq_zero hb, List.takeWhile_cons_of_neg (by simpa using hb)]
      rfl

/-- A stable sort puts the first entry of the list before all that tie with it. -/
theorem GoesBy.getElem?_insertionSort_cons (h : GoesBy r key) (a : α) (l : List α) :
    ((a :: l).insertionSort r)[rank key (a :: l) a]? = some a := by
  have hwhile : ((l.insertionSort r).takeWhile fun b => decide ¬r a b) =
      (l.insertionSort r).takeWhile fun b => decide (key b < key a) := by
    congr 1
    funext b
    simp only [h a b, not_le]
  have hrank : rank key (a :: l) a = rank key (l.insertionSort r) a := by
    rw [rank_perm (List.perm_insertionSort r l), rank, rank, List.filter_cons_of_neg (by simp)]
  rw [List.insertionSort_cons_eq_take_drop, hwhile, hrank, ← (h.ranked l).length_takeWhile a,
    List.getElem?_append_right (Nat.le_refl _), Nat.sub_self, List.getElem?_cons_zero]

end sorting

section keeping

/-- `kept` are the best `n` of `all`, chosen in any way among ties. -/
def Keeps (key : α → κ) (n : Nat) (all kept : List α) : Prop :=
  kept.length ≤ n ∧ ∃ dropped, (kept ++ dropped).Perm all ∧ (∀ a ∈ kept, ∀ b ∈ dropped, key a ≤ key b) ∧
    (kept.length < n → dropped = [])

theorem Keeps.nil (n : Nat) : Keeps key n [] [] := ⟨Nat.zero_le n, [], List.Perm.nil, fun _ h => absurd h List.not_mem_nil,
  fun _ => rfl⟩

theorem Keeps.perm {all all' kept : List α} (h : Keeps key n all kept) (hperm : all.Perm all') :
    Keeps key n all' kept := by
  obtain ⟨hlen, dropped, hsplit, hbest, hfull⟩ := h
  exact ⟨hlen, dropped, hsplit.trans hperm, hbest, hfull⟩

/-- Below the limit every entry is taken. -/
theorem Keeps.grow {all kept : List α} (h : Keeps key n all kept) (hroom : kept.length < n) (x : α) :
    Keeps key n (all ++ [x]) (kept ++ [x]) := by
  obtain ⟨-, dropped, hsplit, -, hfull⟩ := h
  rw [hfull hroom, List.append_nil] at hsplit
  refine ⟨by rw [List.length_append]; exact hroom, [], ?_, fun _ _ _ hb => absurd hb List.not_mem_nil, fun _ => rfl⟩
  rw [List.append_nil]
  exact hsplit.append_right [x]

/-- An entry not better than any that is kept is let go. -/
theorem Keeps.pass {all kept : List α} (h : Keeps key n all kept) (hfull : kept.length = n) {x : α}
    (hworse : ∀ a ∈ kept, key a ≤ key x) : Keeps key n (all ++ [x]) kept := by
  obtain ⟨hlen, dropped, hsplit, hbest, -⟩ := h
  refine ⟨hlen, dropped ++ [x], ?_, fun a ha b hb => ?_, fun hroom => absurd hfull (by omega)⟩
  · rw [← List.append_assoc]
    exact hsplit.append_right [x]
  · rcases List.mem_append.mp hb with hold | hnew
    · exact hbest a ha b hold
    · exact List.mem_singleton.mp hnew ▸ hworse a ha

/-- A better entry takes the place of a worst one. -/
theorem Keeps.replace [DecidableEq α] {all kept : List α} (h : Keeps key n all kept) (hfull : kept.length = n)
    {worst x : α} (hmem : worst ∈ kept) (hworst : ∀ a ∈ kept, key a ≤ key worst) (hbetter : key x < key worst) :
    Keeps key n (all ++ [x]) (kept.erase worst ++ [x]) := by
  obtain ⟨hlen, dropped, hsplit, hbest, -⟩ := h
  have hlength : (kept.erase worst ++ [x]).length = n := by
    have hpos := List.length_pos_of_mem hmem
    rw [List.length_append, List.length_erase_of_mem hmem, List.length_singleton]
    omega
  refine ⟨hlength.le, worst :: dropped, ?_, fun a ha b hb => ?_, fun hroom => absurd hlength (by omega)⟩
  · have hback : (worst :: (kept.erase worst ++ dropped)).Perm all :=
      ((List.perm_cons_erase hmem).symm.append_right dropped).trans hsplit
    have hside : (kept.erase worst ++ [x] ++ dropped).Perm (kept.erase worst ++ dropped ++ [x]) := by
      rw [List.append_assoc, List.append_assoc]
      exact List.perm_append_comm.append_left _
    exact (List.perm_middle.trans (hside.cons worst)).trans (hback.append_right [x])
  · have hbefore : key a ≤ key worst := by
      rcases List.mem_append.mp ha with hold | hnew
      · exact hworst a (List.mem_of_mem_erase hold)
      · exact List.mem_singleton.mp hnew ▸ hbetter.le
    rcases List.mem_cons.mp hb with rfl | hdropped
    · exact hbefore
    · exact hbefore.trans (hbest worst hmem b hdropped)

/-- What is kept of what was kept on one side is kept of all of that side. -/
theorem Keeps.widen {xs ys other kept : List α} (h : Keeps key n (xs ++ other) kept) (hother : Keeps key n ys other) :
    Keeps key n (xs ++ ys) kept := by
  obtain ⟨hlen, left, hsplit, hbest, hfull⟩ := h
  obtain ⟨hlen', right, hsplit', hbest', hfull'⟩ := hother
  have hall : (kept ++ (left ++ right)).Perm (xs ++ ys) := by
    have hmid : (xs ++ other ++ right).Perm (xs ++ ys) := by
      rw [List.append_assoc]
      exact hsplit'.append_left xs
    rw [← List.append_assoc]
    exact (hsplit.append_right right).trans hmid
  refine ⟨hlen, left ++ right, hall, fun a ha b hb => ?_, fun hroom => ?_⟩
  · rcases List.mem_append.mp hb with hleft | hright
    · exact hbest a ha b hleft
    · have hfilled : other.length = n := by
        by_contra hne
        rw [hfull' (by omega)] at hright
        cases hright
      -- Else all of the n entries kept on the other side are better than `a`, but fewer than n stand before it.
      by_contra hlt
      have hbetter : ∀ c ∈ other, decide (key c < key a) = true := fun c hc =>
        decide_eq_true (lt_of_le_of_lt (hbest' c hc b hright) (not_le.mp hlt))
      have hmany : other.countP (fun c => key c < key a) = n := (List.countP_eq_length.mpr hbetter).trans hfilled
      have hnone : left.countP (fun c => key c < key a) = 0 :=
        List.countP_eq_zero.mpr fun c hc => by simpa using hbest a ha c hc
      have hcount := hsplit.countP_eq (fun c => decide (key c < key a))
      have hfew : kept.countP (fun c => key c < key a) < kept.length := by
        refine lt_of_le_of_ne List.countP_le_length fun heq => ?_
        simpa using List.countP_eq_length.mp heq a ha
      rw [List.countP_append, List.countP_append, hnone, hmany] at hcount
      omega
  · have hleft := hfull hroom
    rw [hleft, List.append_nil] at hsplit
    have hlength := hsplit.length_eq
    rw [List.length_append] at hlength
    rw [hleft, hfull' (by omega), List.append_nil]

/-- Put in order, what is kept shows the first `n` of any ranking, if ties among these look alike. -/
theorem Keeps.map_eq {row : α → β} {all kept ordered ranked : List α} (h : Keeps key n all kept)
    (hordered : Ranked key ordered) (hkept : ordered.Perm kept) (hranked : Ranked key ranked) (hall : ranked.Perm all)
    (halike : TiesAlike key row n all) : ordered.map row = (ranked.take n).map row := by
  obtain ⟨hlen, dropped, hsplit, hbest, hfull⟩ := h
  let rest := dropped.insertionSort fun a b => key a ≤ key b
  have hgoes : GoesBy (fun a b : α => key a ≤ key b) key := fun _ _ => Iff.rfl
  have hrest : rest.Perm dropped := List.perm_insertionSort _ dropped
  have hwhole : Ranked key (ordered ++ rest) := by
    refine List.pairwise_append.mpr ⟨hordered, hgoes.ranked dropped, fun a ha b hb => ?_⟩
    exact hbest a (hkept.mem_iff.mp ha) b (hrest.mem_iff.mp hb)
  have hsame : (ordered ++ rest).Perm all := (hkept.append hrest).trans hsplit
  have htake : (ordered ++ rest).take n = ordered := by
    rcases Nat.lt_or_ge kept.length n with hroom | hnone
    · have hempty : rest = [] := (hfull hroom ▸ hrest).eq_nil
      rw [hempty, List.append_nil]
      exact List.take_of_length_le (hkept.length_eq.trans_le hlen)
    · exact List.take_left' (hkept.length_eq.trans (by omega))
  rw [← htake]
  exact hwhole.take_map_eq hranked (hsame.trans hall.symm) (halike.perm hsame.symm)

end keeping

end ranking

end uffs.lib
