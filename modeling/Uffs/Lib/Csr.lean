import Uffs.Lib.Word
import Uffs.Lib.Slice

/-! Compressed sparse rows with 32-bit offsets, built by a two-pass counting sort: count the
items of each bucket, prefix-sum the counts, scatter the items behind per-bucket write cursors. -/

namespace uffs.lib.csr

variable {α ν : Type}

/-- Count one item of bucket `b`; a bucket out of range is ignored. -/
def bump (counts : List UInt32) (b : Nat) : List UInt32 :=
  counts.modify b (· + 1)

/-- First pass: every item adds one to each bucket it falls into. -/
def count (emit : α → List Nat) (counts : List UInt32) (items : List α) : List UInt32 :=
  items.foldl (fun counts item => (emit item).foldl bump counts) counts

/-- Exclusive prefix sums followed by the total, in saturating 32-bit arithmetic. -/
def offsets (running : UInt32) : List UInt32 → List UInt32
  | [] => [running]
  | c :: counts => running :: offsets (saturating_add running c) counts

/-- The scatter state: one write cursor per bucket and the flat value array. -/
structure Cursors (ν : Type) where
  write_pos : List UInt32
  values : List ν

/-- Store `value` at the cursor of bucket `b` and advance it, when both exist. -/
def Cursors.store (value : ν) (state : Cursors ν) (b : Nat) : Cursors ν :=
  match state.write_pos[b]? with
  | none => state
  | some pos =>
    if pos.toNat < state.values.length then
      { write_pos := state.write_pos.set b (pos + 1), values := state.values.set pos.toNat value }
    else state

/-- Second pass: item number `base + k` stores `val (base + k)` into each of its buckets. -/
def scatter (emit : α → List Nat) (val : Nat → ν) (base : Nat) : List α → Cursors ν → Cursors ν
  | [], state => state
  | item :: items, state =>
    scatter emit val (base + 1) items ((emit item).foldl (Cursors.store (val base)) state)

/-- The row a bucket is meant to hold: its items in order. -/
def bucket (emit : α → List Nat) (val : Nat → ν) (b base : Nat) : List α → List ν
  | [] => []
  | item :: items =>
    if b ∈ emit item then val base :: bucket emit val b (base + 1) items
    else bucket emit val b (base + 1) items

theorem bucket_append (emit : α → List Nat) (val : Nat → ν) (b base : Nat) (left right : List α) :
    bucket emit val b base (left ++ right) =
      bucket emit val b base left ++ bucket emit val b (base + left.length) right := by
  induction left generalizing base with
  | nil => simp [bucket]
  | cons item left ih =>
    simp only [List.cons_append, bucket, ih, List.length_cons]
    have hbase : base + 1 + left.length = base + (left.length + 1) := by omega
    rw [hbase]
    split <;> rfl

variable {val : Nat → ν} {items : List α} {nb : Nat} {state : Cursors ν} {rows : Nat → List ν}

theorem mem_bucket {emit : α → List Nat} {b base : Nat} {v : ν} :
    v ∈ bucket emit val b base items ↔
      ∃ k item, items[k]? = some item ∧ b ∈ emit item ∧ v = val (base + k) := by
  induction items generalizing base with
  | nil => simp [bucket]
  | cons first items ih =>
    have hrest : v ∈ bucket emit val b (base + 1) items ↔
        ∃ k item, (first :: items)[k + 1]? = some item ∧ b ∈ emit item ∧ v = val (base + (k + 1)) := by
      simpa only [List.getElem?_cons_succ, Nat.add_assoc, Nat.add_comm 1] using @ih (base + 1)
    have hsplit : (∃ k item, (first :: items)[k]? = some item ∧ b ∈ emit item ∧ v = val (base + k)) ↔
        (b ∈ emit first ∧ v = val base) ∨
          ∃ k item, (first :: items)[k + 1]? = some item ∧ b ∈ emit item ∧ v = val (base + (k + 1)) := by
      constructor
      · rintro ⟨k, item, hget, hmem, hval⟩
        cases k with
        | zero =>
          obtain rfl : first = item := by simpa using hget
          exact Or.inl ⟨hmem, by simpa using hval⟩
        | succ k => exact Or.inr ⟨k, item, hget, hmem, hval⟩
      · rintro (⟨hmem, hval⟩ | ⟨k, item, hget, hmem, hval⟩)
        · exact ⟨0, first, by simp, hmem, by simpa using hval⟩
        · exact ⟨k + 1, item, hget, hmem, hval⟩
    rw [hsplit, ← hrest, bucket]
    split
    next h => simp [h]
    next h => simp [h]

/-- Values assigned in ascending order give ascending rows. -/
theorem bucket_pairwise {emit : α → List Nat} {lt : ν → ν → Prop} {b base : Nat}
    (hval : ∀ i j, base ≤ i → i < j → j < base + items.length → lt (val i) (val j)) :
    (bucket emit val b base items).Pairwise lt := by
  induction items generalizing base with
  | nil => simp [bucket]
  | cons first items ih =>
    have htail : (bucket emit val b (base + 1) items).Pairwise lt := by
      refine ih fun i j hi hij hj => hval i j (by omega) hij ?_
      simp only [List.length_cons]
      omega
    rw [bucket]
    split
    · refine List.pairwise_cons.mpr ⟨fun v hv => ?_, htail⟩
      obtain ⟨k, item, hget, -, rfl⟩ := mem_bucket.mp hv
      have hk : k < items.length := (List.getElem?_eq_some_iff.mp hget).1
      refine hval base (base + 1 + k) (Nat.le_refl _) (by omega) ?_
      simp only [List.length_cons]
      omega
    · exact htail

/-- First position of row `b` when row `i` holds `size i` items. -/
def start (size : Nat → Nat) : Nat → Nat
  | 0 => 0
  | b + 1 => start size b + size b

theorem start_mono (size : Nat → Nat) {a b : Nat} (h : a ≤ b) : start size a ≤ start size b := by
  induction h with
  | refl => exact Nat.le_refl _
  | step _ ih => exact Nat.le_trans ih (Nat.le_add_right _ _)

theorem start_add_le (size : Nat → Nat) {a b : Nat} (h : a < b) : start size a + size a ≤ start size b :=
  start_mono size h

theorem start_shift (size : Nat → Nat) (b : Nat) :
    size 0 + start (fun i => size (i + 1)) b = start size (b + 1) := by
  induction b with
  | zero => simp [start]
  | succ b ih => rw [start, start, ← ih, Nat.add_assoc]

/-- Row starts of listed sizes; the last one is their sum. -/
theorem start_length_eq_sum (sizes : List Nat) : start (fun b => sizes[b]?.getD 0) sizes.length = sizes.sum := by
  induction sizes with
  | nil => rfl
  | cons first sizes ih =>
    rw [List.length_cons, ← start_shift, List.sum_cons, ← ih]
    rfl

theorem count_emit_getElem? {emit : List Nat} (counts : List UInt32) (b : Nat) (hnodup : emit.Nodup) :
    (emit.foldl bump counts)[b]? = counts[b]?.map fun c => if b ∈ emit then c + 1 else c := by
  induction emit generalizing counts with
  | nil => simp
  | cons e emit ih =>
    obtain ⟨hfresh, hnodup'⟩ := List.nodup_cons.mp hnodup
    rw [List.foldl_cons, ih _ hnodup', bump, List.getElem?_modify]
    by_cases heb : e = b
    · subst heb
      simp only [if_true, hfresh, if_false, List.mem_cons, true_or, Option.map_eq_map, Option.map_map]
      rfl
    · have hbe : b ≠ e := fun h => heb h.symm
      simp [heb, hbe]

/-- The first pass counts the rows exactly while the items are fewer than 2^32. -/
theorem count_getElem? {emit : α → List Nat} (val : Nat → ν) (base : Nat) {counts : List UInt32} {b : Nat} {c : UInt32}
    (hnodup : ∀ item ∈ items, (emit item).Nodup) (hget : counts[b]? = some c) (hroom : c.toNat + items.length < UInt32.size) :
    ∃ c', (count emit counts items)[b]? = some c' ∧
      c'.toNat = c.toNat + (bucket emit val b base items).length := by
  induction items generalizing counts c base with
  | nil => exact ⟨c, hget, by simp [bucket]⟩
  | cons item items ih =>
    have hstep := count_emit_getElem? counts b (hnodup item (by simp))
    rw [hget, Option.map_some] at hstep
    rw [List.length_cons] at hroom
    have hnodup' : ∀ item ∈ items, (emit item).Nodup := fun i hi => hnodup i (by simp [hi])
    by_cases hb : b ∈ emit item
    · rw [if_pos hb] at hstep
      have hsucc : (c + 1).toNat = c.toNat + 1 := succ_toNat (by omega)
      obtain ⟨c', hget', hc'⟩ := ih (base + 1) hnodup' hstep (by omega)
      refine ⟨c', hget', ?_⟩
      simp only [bucket, if_pos hb, List.length_cons]
      omega
    · rw [if_neg hb] at hstep
      obtain ⟨c', hget', hc'⟩ := ih (base + 1) hnodup' hstep (by omega)
      exact ⟨c', hget', by simpa only [bucket, if_neg hb] using hc'⟩

theorem offsets_length (running : UInt32) (counts : List UInt32) :
    (offsets running counts).length = counts.length + 1 := by
  induction counts generalizing running with
  | nil => rfl
  | cons c counts ih => simp [offsets, ih]

/-- The prefix sums are exact while the total stays below 2^32. -/
theorem offsets_getElem? {running : UInt32} {counts : List UInt32} {size : Nat → Nat} {b : Nat}
    (hsize : ∀ i c, counts[i]? = some c → c.toNat = size i)
    (hroom : running.toNat + start size counts.length < UInt32.size) (hb : b ≤ counts.length) :
    ∃ p, (offsets running counts)[b]? = some p ∧ p.toNat = running.toNat + start size b := by
  induction counts generalizing running size b with
  | nil =>
    obtain rfl : b = 0 := by simpa using hb
    exact ⟨running, rfl, by simp [start]⟩
  | cons c counts ih =>
    cases b with
    | zero => exact ⟨running, rfl, by simp [start]⟩
    | succ b =>
      have hc : c.toNat = size 0 := hsize 0 c rfl
      have hshift := start_shift size counts.length
      rw [List.length_cons] at hroom
      have hrun : (saturating_add running c).toNat = running.toNat + c.toNat :=
        saturating_add_toNat (by omega)
      obtain ⟨p, hget, hp⟩ := @ih (saturating_add running c) (fun i => size (i + 1)) b
        (fun i c' hi => hsize (i + 1) c' hi) (by omega) (by simpa using hb)
      refine ⟨p, hget, ?_⟩
      have hshift' := start_shift size b
      omega

/-- The scatter invariant: row `b` has been filled with `rows b`, its cursor stands behind them,
and a cursor past the last row stands at the end of the array. -/
structure Filled (size : Nat → Nat) (nb : Nat) (state : Cursors ν) (rows : Nat → List ν) : Prop where
  cursor : ∀ b < nb, ∃ p, state.write_pos[b]? = some p ∧ p.toNat = start size b + (rows b).length
  room : ∀ b < nb, (rows b).length ≤ size b
  length : state.values.length = start size nb
  row : ∀ b < nb, ∀ k < (rows b).length, state.values[start size b + k]? = (rows b)[k]?
  rest : ∀ b, nb ≤ b → ∀ p, state.write_pos[b]? = some p → state.values.length ≤ p.toNat

/-- Cursors may be replaced by others that stand at the same places. -/
theorem Filled.with_cursors {size : Nat → Nat} (hfilled : Filled size nb state rows) (write_pos : List UInt32)
    (hlength : write_pos.length = nb)
    (hcursor : ∀ b < nb, ∃ p, write_pos[b]? = some p ∧ p.toNat = start size b + (rows b).length) :
    Filled size nb { state with write_pos := write_pos } rows :=
  ⟨hcursor, hfilled.room, hfilled.length, hfilled.row, fun b hb p hget => by
    have hnone : write_pos[b]? = none := List.getElem?_eq_none (by omega)
    cases hnone.symm.trans hget⟩

/-- Rows after item value `value` went to the buckets of `emit`. -/
def push (rows : Nat → List ν) (value : ν) (emit : List Nat) (b : Nat) : List ν :=
  if b ∈ emit then rows b ++ [value] else rows b

theorem Filled.store {size : Nat → Nat} (value : ν) {e : Nat} (hfilled : Filled size nb state rows)
    (htotal : start size nb < UInt32.size) (hroom : e < nb → (rows e).length < size e) :
    Filled size nb (Cursors.store value state e) (push rows value [e]) := by
  by_cases he : e < nb
  · obtain ⟨p, hget, hp⟩ := hfilled.cursor e he
    have hspace := hroom he
    have hend := start_add_le size he
    have hlen := hfilled.length
    have hlt : p.toNat < state.values.length := by omega
    have hbound : e < state.write_pos.length := (List.getElem?_eq_some_iff.mp hget).1
    have hstate : Cursors.store value state e =
        { write_pos := state.write_pos.set e (p + 1), values := state.values.set p.toNat value } := by
      simp only [Cursors.store, hget, if_pos hlt]
    rw [hstate]
    have hself : push rows value [e] e = rows e ++ [value] := by simp [push]
    have hother : ∀ b, b ≠ e → push rows value [e] b = rows b := fun b hb => by simp [push, hb]
    refine ⟨fun b hb => ?_, fun b hb => ?_, by simpa using hlen, fun b hb k hk => ?_, fun b hb q hq => ?_⟩
    · by_cases hbe : b = e
      · subst hbe
        refine ⟨p + 1, by simp [hbound], ?_⟩
        rw [hself, succ_toNat (by omega)]
        simp only [List.length_append, List.length_singleton]
        omega
      · have heb : e ≠ b := fun h => hbe h.symm
        simpa only [hother b hbe, List.getElem?_set, if_neg heb] using hfilled.cursor b hb
    · by_cases hbe : b = e
      · subst hbe
        rw [hself, List.length_append]
        exact hspace
      · simpa only [hother b hbe] using hfilled.room b hb
    · by_cases hbe : b = e
      · subst hbe
        rw [hself] at hk ⊢
        rw [List.length_append, List.length_singleton] at hk
        by_cases hlast : k = (rows b).length
        · have hpos : start size b + k = p.toNat := by omega
          rw [hpos, List.getElem?_set_self hlt, hlast, List.getElem?_concat_length]
        · have hne : p.toNat ≠ start size b + k := by omega
          have hk' : k < (rows b).length := by omega
          simpa only [List.getElem?_set, if_neg hne, List.getElem?_append_left hk'] using
            hfilled.row b hb k hk'
      · rw [hother b hbe] at hk ⊢
        -- Rows do not overlap, so the written position lies outside row `b`.
        have hne : p.toNat ≠ start size b + k := by
          have hroomB := hfilled.room b hb
          rcases Nat.lt_or_gt_of_ne hbe with hlt' | hgt'
          · have hbefore := start_add_le size hlt'
            omega
          · have hafter := start_add_le size hgt'
            omega
        simpa only [List.getElem?_set, if_neg hne] using hfilled.row b hb k hk
    · have heb : e ≠ b := by omega
      simp only [List.getElem?_set, if_neg heb] at hq
      simpa using hfilled.rest b hb q hq
  · have hstate : Cursors.store value state e = state := by
      rw [Cursors.store]
      cases hget : state.write_pos[e]? with
      | none => rfl
      | some p =>
        have hge := hfilled.rest e (Nat.le_of_not_lt he) p hget
        simp only [if_neg (Nat.not_lt.mpr hge)]
    have hrows : ∀ b < nb, push rows value [e] b = rows b := fun b hb => by
      have hbe : b ≠ e := by omega
      simp [push, hbe]
    rw [hstate]
    refine ⟨fun b hb => ?_, fun b hb => ?_, hfilled.length, fun b hb => ?_, hfilled.rest⟩
    · simpa only [hrows b hb] using hfilled.cursor b hb
    · simpa only [hrows b hb] using hfilled.room b hb
    · simpa only [hrows b hb] using hfilled.row b hb

/-- The invariant only reads the rows in range. -/
theorem Filled.congr {size : Nat → Nat} {rows rows' : Nat → List ν} (hfilled : Filled size nb state rows)
    (hrows : ∀ b < nb, rows b = rows' b) : Filled size nb state rows' := by
  refine ⟨fun b hb => ?_, fun b hb => ?_, hfilled.length, fun b hb => ?_, hfilled.rest⟩
  · simpa only [← hrows b hb] using hfilled.cursor b hb
  · simpa only [← hrows b hb] using hfilled.room b hb
  · simpa only [← hrows b hb] using hfilled.row b hb

theorem Filled.emit {size : Nat → Nat} (value : ν) {emit : List Nat} (hfilled : Filled size nb state rows)
    (htotal : start size nb < UInt32.size) (hnodup : emit.Nodup) (hroom : ∀ e ∈ emit, e < nb → (rows e).length < size e) :
    Filled size nb (emit.foldl (Cursors.store value) state) (push rows value emit) := by
  induction emit generalizing state rows with
  | nil => exact hfilled.congr fun b _ => by simp [push]
  | cons e emit ih =>
    obtain ⟨hfresh, hnodup'⟩ := List.nodup_cons.mp hnodup
    have hstep := hfilled.store value htotal (hroom e (by simp))
    have hrest := ih hstep hnodup' fun i hi hinb => by
      have hie : i ≠ e := fun h => hfresh (h ▸ hi)
      simpa [push, hie] using hroom i (by simp [hi]) hinb
    refine hrest.congr fun b _ => ?_
    by_cases hbe : b = e
    · subst hbe
      simp [push, hfresh]
    · simp [push, hbe]

/-- A whole scatter pass appends to every row the items that fall into it. -/
theorem Filled.scatter {emit : α → List Nat} (val : Nat → ν) {size : Nat → Nat} (base : Nat)
    (hfilled : Filled size nb state rows) (htotal : start size nb < UInt32.size) (hnodup : ∀ item ∈ items, (emit item).Nodup)
    (hroom : ∀ b < nb, (rows b).length + (bucket emit val b base items).length ≤ size b) :
    Filled size nb (csr.scatter emit val base items state)
      fun b => rows b ++ bucket emit val b base items := by
  induction items generalizing base state rows with
  | nil => simpa [csr.scatter, bucket] using hfilled
  | cons item items ih =>
    have hstep := hfilled.emit (val base) htotal (hnodup item (by simp)) fun e he henb => by
      have hsize := hroom e henb
      simp only [bucket, if_pos he, List.length_cons] at hsize
      omega
    have hsplit : ∀ b, push rows (val base) (emit item) b ++ bucket emit val b (base + 1) items =
        rows b ++ bucket emit val b base (item :: items) := fun b => by
      by_cases hb : b ∈ emit item
      · simp [push, bucket, hb]
      · simp [push, bucket, hb]
    have hrest := ih (base + 1) hstep (fun i hi => hnodup i (by simp [hi])) fun b hb => by
      have hsize := hroom b hb
      rw [← List.length_append, ← hsplit b, List.length_append] at hsize
      exact hsize
    exact hrest.congr fun b _ => hsplit b

/-- A finished table: row `b` is `values[offsets[b]..offsets[b + 1]]`. -/
structure Csr where
  offsets : List UInt32
  values : List UInt32
deriving DecidableEq

/-- Lookup of one row; offsets out of range read as 0 and a bad range as the empty row. -/
def Csr.get (csr : Csr) (b : Nat) : List UInt32 :=
  let start := (csr.offsets[b]?.getD 0).toNat
  let stop := (csr.offsets[b + 1]?.getD 0).toNat
  (slice? csr.values start stop).getD []

/-- Both passes over `items` with `nb` buckets; item number `i` stores `val i`. -/
def build (emit : α → List Nat) (val : Nat → UInt32) (nb : Nat) (items : List α) : Csr :=
  let offsets := offsets 0 (count emit (List.replicate nb 0) items)
  let running := offsets.getLastD 0
  let state : Cursors UInt32 := { write_pos := offsets, values := List.replicate running.toNat 0 }
  { offsets := offsets, values := (scatter emit val 0 items state).values }

theorem scatter_map {β : Type} {f : β → α} {emit : α → List Nat} (base : Nat) (items : List β) (state : Cursors ν) :
    scatter emit val base (items.map f) state = scatter (emit ∘ f) val base items state := by
  induction items generalizing base state with
  | nil => rfl
  | cons item items ih => exact ih (base + 1) _

/-- A table depends on the items only through their buckets. -/
theorem build_map {β : Type} (f : β → α) (emit : α → List Nat) (val : Nat → UInt32) (nb : Nat) (items : List β) :
    build emit val nb (items.map f) = build (emit ∘ f) val nb items := by
  have hcount : ∀ counts, count emit counts (items.map f) = count (emit ∘ f) counts items := by
    intro counts
    rw [count, count, List.foldl_map]
    rfl
  simp only [build, hcount, scatter_map]

/-- Size of row `b` of the table built over `items`. -/
def rowSize (emit : α → List Nat) (items : List α) (b : Nat) : Nat :=
  (bucket emit id b 0 items).length

/-- A row depends on the items only through their membership in it. -/
theorem bucket_congr {β : Type} {emit : α → List Nat} {emit' : α → List Nat} {b b' : Nat} (val : Nat → β) (base : Nat)
    (hmem : ∀ item ∈ items, b ∈ emit item ↔ b' ∈ emit' item) :
    bucket emit val b base items = bucket emit' val b' base items := by
  induction items generalizing base with
  | nil => rfl
  | cons item items ih =>
    have hrest := ih (base + 1) fun i hi => hmem i (by simp [hi])
    by_cases hb : b ∈ emit item
    · have hb' := (hmem item (by simp)).mp hb
      simp only [bucket, if_pos hb, if_pos hb', hrest]
    · have hb' : b' ∉ emit' item := fun h => hb ((hmem item (by simp)).mpr h)
      simp only [bucket, if_neg hb, if_neg hb', hrest]

theorem bucket_length_eq_countP (emit : α → List Nat) (val : Nat → ν) (b base : Nat) (items : List α) :
    (bucket emit val b base items).length = items.countP fun item => b ∈ emit item := by
  induction items generalizing base with
  | nil => rfl
  | cons item items ih =>
    by_cases hb : b ∈ emit item
    · simp [bucket, hb, ih (base + 1)]
    · simp [bucket, hb, ih (base + 1)]

theorem bucket_length (emit : α → List Nat) (val : Nat → ν) (b base : Nat) (items : List α) :
    (bucket emit val b base items).length = (bucket emit id b 0 items).length := by
  have hmap : ∀ base', (bucket emit val b base items).length = (bucket emit (id : Nat → Nat) b base' items).length := by
    induction items generalizing base with
    | nil => simp [bucket]
    | cons item items ih =>
      intro base'
      by_cases hb : b ∈ emit item
      · simp [bucket, hb, ih (base + 1) (base' + 1)]
      · simp [bucket, hb, ih (base + 1) (base' + 1)]
  exact hmap 0

theorem count_length (emit : α → List Nat) (counts : List UInt32) (items : List α) :
    (count emit counts items).length = counts.length := by
  have hemit : ∀ (bs : List Nat) (cs : List UInt32), (bs.foldl bump cs).length = cs.length := fun bs => by
    induction bs with
    | nil => intro cs; rfl
    | cons b bs ih => intro cs; rw [List.foldl_cons, ih, bump, List.length_modify]
  induction items generalizing counts with
  | nil => rfl
  | cons item items ih => rw [count, List.foldl_cons, ← count, ih, hemit]

/-- Prefix sums over the counting pass are the row starts. -/
theorem offsets_count_getElem? {emit : α → List Nat} {b : Nat} (hnodup : ∀ item ∈ items, (emit item).Nodup)
    (hitems : items.length < UInt32.size) (htotal : start (rowSize emit items) nb < UInt32.size) (hb : b ≤ nb) :
    ∃ p, (offsets 0 (count emit (List.replicate nb 0) items))[b]? = some p ∧
      p.toNat = start (rowSize emit items) b := by
  have hlength : (count emit (List.replicate nb 0) items).length = nb := by
    rw [count_length, List.length_replicate]
  have hsize : ∀ i c, (count emit (List.replicate nb 0) items)[i]? = some c →
      c.toNat = rowSize emit items i := by
    intro i c hget
    have hi : i < nb := hlength ▸ (List.getElem?_eq_some_iff.mp hget).1
    have hzero : (List.replicate nb (0 : UInt32))[i]? = some 0 := by simp [hi]
    obtain ⟨c', hget', hc'⟩ := count_getElem? id 0 hnodup hzero (by simpa using hitems)
    obtain rfl : c = c' := Option.some.inj (hget.symm.trans hget')
    simpa [rowSize] using hc'
  obtain ⟨p, hget, hp⟩ := @offsets_getElem? 0 _ _ b hsize (by simpa [hlength] using htotal)
    (by simpa [hlength] using hb)
  exact ⟨p, hget, by simpa using hp⟩

/-- A row that is full is read back by its range. -/
theorem Filled.slice? {size : Nat → Nat} {nb b : Nat} (hfilled : Filled size nb state rows) (hb : b < nb)
    (hfull : (rows b).length = size b) : lib.slice? state.values (start size b) (start size (b + 1)) = some (rows b) := by
  have hend : start size b + size b ≤ state.values.length :=
    hfilled.length ▸ start_add_le size hb
  have hrange : start size b ≤ start size (b + 1) ∧ start size (b + 1) ≤ state.values.length :=
    ⟨start_mono size (Nat.le_succ b), hend⟩
  rw [lib.slice?, if_pos hrange]
  congr 1
  have hcount : start size (b + 1) - start size b = size b := by
    rw [start]
    omega
  rw [hcount]
  refine List.ext_getElem? fun k => ?_
  by_cases hk : k < (rows b).length
  · rw [List.getElem?_take_of_lt (by omega), List.getElem?_drop, hfilled.row b hb k hk]
  · rw [List.getElem?_eq_none (by simp; omega), List.getElem?_eq_none (by omega)]

/-- The state a scatter pass starts from: every cursor at the start of its row. -/
theorem filled_nil {size : Nat → Nat} (hcursor : ∀ b < nb, ∃ p, state.write_pos[b]? = some p ∧ p.toNat = start size b)
    (hlength : state.values.length = start size nb)
    (hrest : ∀ b, nb ≤ b → ∀ p, state.write_pos[b]? = some p → state.values.length ≤ p.toNat) :
    Filled size nb state fun _ => [] :=
  ⟨fun b hb => by simpa using hcursor b hb, fun _ _ => Nat.zero_le _, hlength,
    fun _ _ k hk => absurd hk (Nat.not_lt_zero k), hrest⟩

/-- Reading row `b` of a built table gives exactly the items of bucket `b`, in order. -/
theorem build_get {emit : α → List Nat} {val : Nat → UInt32} {b : Nat} (hnodup : ∀ item ∈ items, (emit item).Nodup)
    (hitems : items.length < UInt32.size) (htotal : start (rowSize emit items) nb < UInt32.size) :
    (build emit val nb items).get b = if b < nb then bucket emit val b 0 items else [] := by
  have hoffset : ∀ i ≤ nb, ∃ p, (offsets 0 (count emit (List.replicate nb 0) items))[i]? = some p ∧
      p.toNat = start (rowSize emit items) i :=
    fun i hi => offsets_count_getElem? hnodup hitems htotal hi
  have hoffsetsLength : (offsets 0 (count emit (List.replicate nb 0) items)).length = nb + 1 := by
    rw [offsets_length, count_length, List.length_replicate]
  have hnone : ∀ i, nb < i → (offsets 0 (count emit (List.replicate nb 0) items))[i]? = none :=
    fun i hi => List.getElem?_eq_none (by omega)
  obtain ⟨total, hlast, htotalNat⟩ := hoffset nb (Nat.le_refl _)
  have hrunning : (offsets 0 (count emit (List.replicate nb 0) items)).getLastD 0 = total := by
    rw [List.getLastD_eq_getLast?, List.getLast?_eq_getElem?, hoffsetsLength]
    simp [hlast]
  by_cases hb : b < nb
  · rw [if_pos hb]
    have hstart : Filled (rowSize emit items) nb
        { write_pos := offsets 0 (count emit (List.replicate nb 0) items)
          values := List.replicate total.toNat (0 : UInt32) } (fun _ => []) := by
      refine filled_nil (fun i hi => hoffset i (Nat.le_of_lt hi)) (by simpa using htotalNat) ?_
      intro i hi p hget
      rcases Nat.lt_or_eq_of_le hi with hlt | rfl
      · rw [hnone i hlt] at hget
        cases hget
      · obtain rfl : total = p := Option.some.inj (hlast.symm.trans hget)
        simp
    have hend := hstart.scatter val 0 htotal hnodup
      fun i _ => by simp [rowSize, bucket_length emit val i 0 items]
    have hslice := hend.slice? hb (by simp [rowSize, bucket_length emit val b 0 items])
    obtain ⟨p, hp, hpNat⟩ := hoffset b (Nat.le_of_lt hb)
    obtain ⟨q, hq, hqNat⟩ := hoffset (b + 1) hb
    simp only [Csr.get, build, hp, hq, Option.getD_some, hpNat, hqNat, hrunning]
    rw [hslice]
    rfl
  · rw [if_neg hb]
    simp only [Csr.get, build, hnone (b + 1) (by omega), Option.getD_none]
    rw [slice?]
    split
    · simp
    · rfl

theorem Cursors.store_values_length (value : ν) (state : Cursors ν) (b : Nat) :
    (state.store value b).values.length = state.values.length := by
  unfold Cursors.store
  split
  · rfl
  · split
    · exact List.length_set
    · rfl

theorem scatter_values_length (emit : α → List Nat) (val : Nat → ν) (base : Nat) (items : List α)
    (state : Cursors ν) : (scatter emit val base items state).values.length = state.values.length := by
  have hemit : ∀ (value : ν) (bs : List Nat) (s : Cursors ν),
      (bs.foldl (Cursors.store value) s).values.length = s.values.length := by
    intro value bs
    induction bs with
    | nil => exact fun s => rfl
    | cons b bs ih =>
      intro s
      rw [List.foldl_cons, ih, s.store_values_length value b]
  induction items generalizing base state with
  | nil => rfl
  | cons item items ih => rw [scatter, ih, hemit]

/-- Shape of a built table, whatever the items: one offset per row and the total, which is the
number of values. -/
theorem build_shape (emit : α → List Nat) (val : Nat → UInt32) (nb : Nat) (items : List α) :
    (build emit val nb items).offsets.length = nb + 1 ∧
      ((build emit val nb items).offsets.getLastD 0).toNat = (build emit val nb items).values.length := by
  refine ⟨?_, ?_⟩
  · rw [build, offsets_length, count_length, List.length_replicate]
  · simp only [build, scatter_values_length, List.length_replicate]

theorem start_add (f g : Nat → Nat) (nb : Nat) : start (fun b => f b + g b) nb = start f nb + start g nb := by
  induction nb with
  | zero => rfl
  | succ nb ih =>
    simp only [start, ih]
    omega

theorem start_le_start {f g : Nat → Nat} (hle : ∀ b, f b ≤ g b) (nb : Nat) : start f nb ≤ start g nb := by
  induction nb with
  | zero => exact Nat.le_refl _
  | succ nb ih => exact Nat.add_le_add ih (hle nb)

theorem start_single_le (e nb : Nat) : start (fun b => if b = e then 1 else 0) nb ≤ if e < nb then 1 else 0 := by
  induction nb with
  | zero => simp [start]
  | succ nb ih =>
    rw [start]
    split_ifs at ih ⊢ <;> omega

theorem start_mem_le (emit : List Nat) (nb : Nat) :
    start (fun b => if b ∈ emit then 1 else 0) nb ≤ emit.length := by
  induction emit with
  | nil =>
    have hzero : start (fun _ => 0) nb = 0 := by induction nb <;> simp_all [start]
    simp [hzero]
  | cons e emit ih =>
    have hsplit := start_le_start (f := fun b => if b ∈ e :: emit then 1 else 0)
      (g := fun b => (if b = e then 1 else 0) + if b ∈ emit then 1 else 0) (fun b => by
        by_cases hbe : b = e
        · simp [hbe]
        · simp [hbe]) nb
    rw [start_add] at hsplit
    have hsingle := start_single_le e nb
    rw [List.length_cons]
    split_ifs at hsingle <;> omega

/-- The table has room for every item: it never holds more than was emitted. -/
theorem start_rowSize_le (emit : α → List Nat) (items : List α) (nb : Nat) :
    start (rowSize emit items) nb ≤ (items.map fun item => (emit item).length).sum := by
  induction items with
  | nil =>
    have hzero : start (rowSize emit []) nb = 0 := by induction nb <;> simp_all [start, rowSize, bucket]
    simp [hzero]
  | cons item items ih =>
    have hsize : rowSize emit (item :: items) =
        fun b => (if b ∈ emit item then 1 else 0) + rowSize emit items b := by
      funext b
      rw [rowSize, bucket, rowSize, ← bucket_length emit id b (0 + 1) items]
      split <;> simp [Nat.add_comm]
    rw [hsize, start_add, List.map_cons, List.sum_cons]
    exact Nat.add_le_add (start_mem_le _ _) ih

/-- Items with at most one bucket each never overflow the table. -/
theorem start_rowSize_le_length {emit : α → List Nat} (nb : Nat) (hone : ∀ item, (emit item).length ≤ 1) :
    start (rowSize emit items) nb ≤ items.length := by
  refine Nat.le_trans (start_rowSize_le emit items nb) ?_
  induction items with
  | nil => simp
  | cons item items ih =>
    rw [List.map_cons, List.sum_cons, List.length_cons, Nat.add_comm items.length 1]
    exact Nat.add_le_add (hone item) ih

/-- Offsets never descend, also where the sums saturate. -/
theorem offsets_pairwise (running : UInt32) (counts : List UInt32) :
    (offsets running counts).Pairwise (· ≤ ·) ∧ ∀ offset ∈ offsets running counts, running ≤ offset := by
  induction counts generalizing running with
  | nil => simp [offsets]
  | cons c counts ih =>
    obtain ⟨hrest, hleast⟩ := ih (saturating_add running c)
    have hfirst : ∀ offset ∈ offsets (saturating_add running c) counts, running ≤ offset := by
      intro offset hoffset
      exact UInt32.le_trans (le_saturating_add running c) (hleast offset hoffset)
    rw [offsets]
    exact ⟨List.pairwise_cons.mpr ⟨hfirst, hrest⟩, by simpa using hfirst⟩

/-- Stored values are values handed to the scatter. -/
theorem Cursors.forall_store {P : ν → Prop} {value : ν} (hvalue : P value) (hstate : ∀ v ∈ state.values, P v) (b : Nat) :
    ∀ v ∈ (state.store value b).values, P v := by
  intro v hv
  unfold Cursors.store at hv
  split at hv
  · exact hstate v hv
  · split at hv
    · cases List.mem_or_eq_of_mem_set hv with
      | inl hold => exact hstate v hold
      | inr hnew => exact hnew ▸ hvalue
    · exact hstate v hv

theorem forall_scatter {P : ν → Prop} {emit : α → List Nat} {base : Nat}
    (hvalues : ∀ i, base ≤ i → i < base + items.length → P (val i)) (hstate : ∀ v ∈ state.values, P v) :
    ∀ v ∈ (scatter emit val base items state).values, P v := by
  induction items generalizing base state with
  | nil => exact hstate
  | cons item items ih =>
    have hemit : ∀ (bs : List Nat) (s : Cursors ν), (∀ v ∈ s.values, P v) →
        ∀ v ∈ (bs.foldl (Cursors.store (val base)) s).values, P v := by
      intro bs
      induction bs with
      | nil => exact fun s hs => hs
      | cons b bs ihb =>
        intro s hs
        have hbase := hvalues base (Nat.le_refl _) (by simp)
        exact ihb _ (Cursors.forall_store hbase hs b)
    rw [scatter]
    apply ih
    · intro i hlow hhigh
      exact hvalues i (by omega) (by rw [List.length_cons]; omega)
    · exact hemit (emit item) state hstate

/-- Entries of a built table are numbers of its items. -/
theorem build_values_lt {emit : α → List Nat} {val : Nat → UInt32} (hval : ∀ i, (val i).toNat ≤ i) (nb : Nat) (items : List α) :
    ∀ v ∈ (build emit val nb items).values, v.toNat < items.length := by
  cases items with
  | nil =>
    have hzero : ∀ (n : Nat), offsets 0 (List.replicate n 0) = List.replicate (n + 1) 0 := by
      intro n
      induction n with
      | zero => simp [offsets]
      | succ n ih =>
        have hsum : saturating_add 0 0 = 0 := by decide
        rw [List.replicate_succ, offsets, hsum, ih, ← List.replicate_succ]
    have hcount : count emit (List.replicate nb 0) [] = List.replicate nb 0 := rfl
    have hlast : (offsets 0 (count emit (List.replicate nb 0) [])).getLastD 0 = 0 := by
      rw [hcount, hzero, List.replicate_succ']
      simp
    unfold build
    dsimp only
    rw [hlast]
    simp [scatter]
  | cons item items =>
    apply forall_scatter
    · intro i _ hi
      exact lt_of_le_of_lt (hval i) (by omega)
    · intro v hv
      simp [List.eq_of_mem_replicate hv]

end uffs.lib.csr
