import Mathlib.Algebra.Order.Ring.Nat
import Uffs.Lib.Fold
import Uffs.Text.CaseFold

open uffs.lib uffs.text

namespace uffs.bloom

/-- Library code the index calls but does not define: the byte hasher (seed, then key), the
floating-point sizing formula of a filter (bits and probe count for a number of items), and
Unicode lowercasing. -/
structure Env where
  fx_hash : UInt64 → List UInt8 → UInt64
  bloom_sizing : Nat → UInt64 × UInt8
  to_lowercase : Str → Str

def SEED_A : UInt64 := 0xA5A5C3C3F0F05A5A

def SEED_B : UInt64 := 0x5A5A3C3C0F0FA5A5

/-- Bit array in 64-bit words; `nbits` is a positive multiple of 64. -/
structure Bloom where
  bits : List UInt64
  nbits : UInt64
  k_hashes : UInt8
deriving DecidableEq

/-- `nbits.div_ceil(64).saturating_mul(64).max(64)`. -/
def align_nbits (nbits : UInt64) : UInt64 :=
  let words := (nbits.toNat + 63) / 64
  if words * 64 < UInt64.size then max (UInt64.ofNat (words * 64)) 64 else UInt64.ofNat (UInt64.size - 1)

def clamp_k (k_hashes : UInt8) : UInt8 := max 1 (min k_hashes 32)

def Bloom.with_size_and_k (nbits : UInt64) (k_hashes : UInt8) : Bloom :=
  let aligned_nbits := align_nbits nbits
  { bits := List.replicate (aligned_nbits / 64).toNat 0, nbits := aligned_nbits, k_hashes := clamp_k k_hashes }

def base_hashes (env : Env) (key : List UInt8) : UInt64 × UInt64 :=
  (env.fx_hash SEED_A key, env.fx_hash SEED_B key ||| 1)

def Bloom.bit_index (self : Bloom) (hash_a hash_b probe_idx : UInt64) : UInt64 :=
  (hash_a + probe_idx * hash_b) % self.nbits

def Bloom.set_bit (self : Bloom) (pos : UInt64) : Bloom :=
  { self with bits := self.bits.modify (pos / 64).toNat (· ||| (1 <<< (pos &&& 63))) }

def Bloom.get_bit (self : Bloom) (pos : UInt64) : Bool :=
  (self.bits[(pos / 64).toNat]?.getD 0 >>> (pos &&& 63)) &&& 1 == 1

/-- Bit positions of a key, one per probe. -/
def Bloom.probes (self : Bloom) (env : Env) (key : List UInt8) : List UInt64 :=
  (List.range self.k_hashes.toNat).map fun probe_idx =>
    self.bit_index (base_hashes env key).1 (base_hashes env key).2 (UInt64.ofNat probe_idx)

def Bloom.insert (self : Bloom) (env : Env) (key : List UInt8) : Bloom :=
  (self.probes env key).foldl Bloom.set_bit self

def Bloom.contains (self : Bloom) (env : Env) (key : List UInt8) : Bool :=
  (self.probes env key).all self.get_bit

def Bloom.from_raw_parts (nbits : UInt64) (k_hashes : UInt8) (bits : List UInt64) : Option Bloom :=
  if nbits = 0 ∨ nbits % 64 ≠ 0 then none
  else if bits.length ≠ (nbits / 64).toNat then none
  else some { bits := bits, nbits := nbits, k_hashes := clamp_k k_hashes }

/-- The constructor invariant: as many words as bits, and at least one word. -/
structure Bloom.Sized (bloom : Bloom) : Prop where
  positive : 0 < bloom.nbits.toNat
  words : bloom.nbits.toNat = 64 * bloom.bits.length

theorem set_bit_frame (bloom : Bloom) (pos : UInt64) :
    (bloom.set_bit pos).nbits = bloom.nbits ∧ (bloom.set_bit pos).k_hashes = bloom.k_hashes ∧
      (bloom.set_bit pos).bits.length = bloom.bits.length :=
  ⟨rfl, rfl, List.length_modify ..⟩

/-- Inserting keys changes bits only. -/
structure SameSize (before after : Bloom) : Prop where
  nbits : after.nbits = before.nbits
  k_hashes : after.k_hashes = before.k_hashes
  words : after.bits.length = before.bits.length

theorem SameSize.refl (bloom : Bloom) : SameSize bloom bloom := ⟨rfl, rfl, rfl⟩

theorem SameSize.symm {a b : Bloom} (h : SameSize a b) : SameSize b a := ⟨h.nbits.symm, h.k_hashes.symm, h.words.symm⟩

theorem SameSize.trans {a b c : Bloom} (hab : SameSize a b) (hbc : SameSize b c) : SameSize a c :=
  ⟨hbc.nbits.trans hab.nbits, hbc.k_hashes.trans hab.k_hashes, hbc.words.trans hab.words⟩

theorem sameSize_insert (bloom : Bloom) (env : Env) (key : List UInt8) : SameSize bloom (bloom.insert env key) := by
  unfold Bloom.insert
  refine foldl_invariant (motive := SameSize bloom) (SameSize.refl bloom) fun s pos _ hs => hs.trans ?_
  obtain ⟨hnbits, hk, hwords⟩ := set_bit_frame s pos
  exact ⟨hnbits, hk, hwords⟩

theorem clamp_k_eq_self {k : UInt8} (hlow : 1 ≤ k) (hhigh : k ≤ 32) : clamp_k k = k := by
  have hmin : min k 32 = k := if_pos hhigh
  rw [clamp_k, hmin]
  exact if_pos hlow

theorem clamp_k_range (k : UInt8) : 1 ≤ clamp_k k ∧ clamp_k k ≤ 32 := by
  have hmin : min k 32 ≤ 32 := by
    change (if k ≤ 32 then k else 32) ≤ 32
    split
    next h => exact h
    next => exact UInt8.le_refl _
  change 1 ≤ (if 1 ≤ min k 32 then min k 32 else 1) ∧ (if 1 ≤ min k 32 then min k 32 else 1) ≤ 32
  split
  next h => exact ⟨h, hmin⟩
  next => exact ⟨UInt8.le_refl _, by decide⟩

theorem clamp_k_clamp_k (k : UInt8) : clamp_k (clamp_k k) = clamp_k k :=
  clamp_k_eq_self (clamp_k_range k).1 (clamp_k_range k).2

/-- The number of bits is a positive multiple of 64, unless the multiple left the 64-bit range. -/
theorem align_nbits_cases (nbits : UInt64) :
    ((align_nbits nbits).toNat % 64 = 0 ∧ 0 < (align_nbits nbits).toNat) ∨ (align_nbits nbits).toNat = 2 ^ 64 - 1 := by
  have h64 : (64 : UInt64).toNat = 64 := rfl
  unfold align_nbits
  dsimp only
  split
  next hwords =>
    left
    have hnat : (UInt64.ofNat ((nbits.toNat + 63) / 64 * 64)).toNat = (nbits.toNat + 63) / 64 * 64 := by
      rw [UInt64.toNat_ofNat']
      exact Nat.mod_eq_of_lt hwords
    have hmax : max (UInt64.ofNat ((nbits.toNat + 63) / 64 * 64)) 64 =
        if UInt64.ofNat ((nbits.toNat + 63) / 64 * 64) ≤ 64 then 64
        else UInt64.ofNat ((nbits.toNat + 63) / 64 * 64) := rfl
    rw [hmax]
    split
    next =>
      rw [h64]
      decide
    next hle =>
      rw [UInt64.le_iff_toNat_le, h64, hnat] at hle
      rw [hnat]
      omega
  next =>
    right
    rw [UInt64.toNat_ofNat']
    decide

theorem and_63_toNat (pos : UInt64) : (pos &&& 63).toNat = pos.toNat % 64 := by
  rw [UInt64.toNat_and]
  exact Nat.and_two_pow_sub_one_eq_mod pos.toNat 6

theorem div_64_toNat (pos : UInt64) : (pos / 64).toNat = pos.toNat / 64 := UInt64.toNat_div _ _

theorem get_bit_eq_testBit (bloom : Bloom) (pos : UInt64) :
    bloom.get_bit pos = (bloom.bits[pos.toNat / 64]?.getD 0).toNat.testBit (pos.toNat % 64) := by
  unfold Bloom.get_bit
  rw [div_64_toNat]
  generalize bloom.bits[pos.toNat / 64]?.getD 0 = word
  have hshift : ((word >>> (pos &&& 63)) &&& 1).toNat = (word.toNat >>> (pos.toNat % 64)) % 2 := by
    rw [UInt64.toNat_and, UInt64.toNat_shiftRight, and_63_toNat, Nat.mod_mod]
    exact Nat.and_two_pow_sub_one_eq_mod _ 1
  have hone : (1 : UInt64).toNat = 1 := rfl
  rw [Nat.testBit, Nat.and_comm, Nat.and_one_is_mod, ← hshift, Bool.eq_iff_iff, beq_iff_eq, bne_iff_ne,
    ← UInt64.toNat_inj]
  omega

theorem one_shiftLeft_toNat (pos : UInt64) : ((1 : UInt64) <<< (pos &&& 63)).toNat = 2 ^ (pos.toNat % 64) := by
  have hlt : 2 ^ (pos.toNat % 64) < 2 ^ 64 := Nat.pow_lt_pow_right (by decide) (Nat.mod_lt _ (by decide))
  rw [UInt64.toNat_shiftLeft, and_63_toNat, Nat.mod_mod, Nat.shiftLeft_eq]
  exact (congrArg (· % 2 ^ 64) (Nat.one_mul _)).trans (Nat.mod_eq_of_lt hlt)

/-- A set bit reads as one, and every other bit as before. -/
theorem get_bit_set_bit (bloom : Bloom) {pos : UInt64} (hpos : pos.toNat / 64 < bloom.bits.length) (other : UInt64) :
    (bloom.set_bit pos).get_bit other = (decide (pos = other) || bloom.get_bit other) := by
  rw [get_bit_eq_testBit, get_bit_eq_testBit]
  unfold Bloom.set_bit
  rw [div_64_toNat, List.getElem?_modify]
  cases hget : bloom.bits[other.toNat / 64]? with
  | none =>
    have hne : pos ≠ other := by
      rintro rfl
      rw [List.getElem?_eq_getElem hpos] at hget
      cases hget
    rw [decide_eq_false hne, Bool.false_or]
    rfl
  | some word =>
    change (if pos.toNat / 64 = other.toNat / 64 then word ||| 1 <<< (pos &&& 63) else word).toNat.testBit _ =
      (_ || word.toNat.testBit _)
    by_cases hword : pos.toNat / 64 = other.toNat / 64
    · have hiff : pos.toNat % 64 = other.toNat % 64 ↔ pos = other := by
        rw [← UInt64.toNat_inj]
        omega
      rw [if_pos hword, UInt64.toNat_or, Nat.testBit_or, one_shiftLeft_toNat, Nat.testBit_two_pow, Bool.or_comm,
        decide_eq_decide.mpr hiff]
    · have hne : pos ≠ other := fun h => hword (h ▸ rfl)
      rw [if_neg hword, decide_eq_false hne, Bool.false_or]

variable {bloom : Bloom}

/-- Every bit that a key probes exists. -/
theorem Bloom.Sized.probe_lt (hsized : bloom.Sized) {env : Env} {key : List UInt8} {pos : UInt64}
    (hpos : pos ∈ bloom.probes env key) : pos.toNat / 64 < bloom.bits.length := by
  obtain ⟨probe_idx, -, rfl⟩ := List.mem_map.mp hpos
  have hmod : (bloom.bit_index (base_hashes env key).1 (base_hashes env key).2 (UInt64.ofNat probe_idx)).toNat <
      bloom.nbits.toNat := by
    unfold Bloom.bit_index
    rw [UInt64.toNat_mod]
    exact Nat.mod_lt _ hsized.positive
  have hwords := hsized.words
  omega

theorem SameSize.sized {before after : Bloom} (h : SameSize before after) (hsized : before.Sized) : after.Sized := by
  refine ⟨?_, ?_⟩
  · rw [h.nbits]
    exact hsized.positive
  · rw [h.nbits, h.words]
    exact hsized.words

theorem SameSize.probes {before after : Bloom} (h : SameSize before after) (env : Env) (key : List UInt8) :
    after.probes env key = before.probes env key := by
  simp only [Bloom.probes, Bloom.bit_index, h.nbits, h.k_hashes]

/-- Setting bits that exist: they read as one afterwards, and no bit is lost. -/
theorem get_bit_foldl_set_bit {positions : List UInt64} (hpositions : ∀ pos ∈ positions, pos.toNat / 64 < bloom.bits.length)
    (other : UInt64) :
    (positions.foldl Bloom.set_bit bloom).get_bit other = (decide (other ∈ positions) || bloom.get_bit other) := by
  induction positions generalizing bloom with
  | nil => rfl
  | cons pos positions ih =>
    have hpos := hpositions pos List.mem_cons_self
    have hrest : ∀ p ∈ positions, p.toNat / 64 < (bloom.set_bit pos).bits.length := by
      intro p hp
      rw [(set_bit_frame bloom pos).2.2]
      exact hpositions p (List.mem_cons_of_mem _ hp)
    rw [List.foldl_cons, ih hrest, get_bit_set_bit bloom hpos, ← Bool.or_assoc, ← Bool.decide_or]
    congr 1
    rw [decide_eq_decide, List.mem_cons, or_comm, eq_comm]

/-- An inserted key is found. -/
theorem contains_insert_self (hsized : bloom.Sized) (env : Env) (key : List UInt8) :
    (bloom.insert env key).contains env key = true := by
  rw [Bloom.contains, (sameSize_insert bloom env key).probes, List.all_eq_true]
  intro pos hpos
  rw [Bloom.insert, get_bit_foldl_set_bit fun p hp => hsized.probe_lt hp, decide_eq_true hpos, Bool.true_or]

/-- A key that is found stays found. -/
theorem contains_insert_of_contains (hsized : bloom.Sized) {env : Env} {key : List UInt8} (h : bloom.contains env key = true)
    (other : List UInt8) : (bloom.insert env other).contains env key = true := by
  rw [Bloom.contains, List.all_eq_true] at h
  rw [Bloom.contains, (sameSize_insert bloom env other).probes, List.all_eq_true]
  intro pos hpos
  rw [Bloom.insert, get_bit_foldl_set_bit fun p hp => hsized.probe_lt hp, h pos hpos, Bool.or_true]

/-- A loop of insertions finds every key it inserted. -/
theorem contains_foldl_insert {α : Type} {env : Env} {step : Bloom → α → Bloom} {list : List α}
    (hsize : ∀ s a, SameSize s (step s a)) (hsized : bloom.Sized) {key : List UInt8}
    (hkeep : ∀ s a, s.Sized → s.contains env key = true → (step s a).contains env key = true) {a : α} (hmem : a ∈ list)
    (hhit : ∀ s, s.Sized → (step s a).contains env key = true) : (list.foldl step bloom).contains env key = true := by
  have hloop : (list.foldl step bloom).Sized → (list.foldl step bloom).contains env key = true := by
    refine foldl_reaches (motive := fun s : Bloom => s.Sized → s.contains env key = true) hmem (fun s hs => ?_)
      fun s b hs hnext => ?_
    · exact hhit s ((hsize s a).symm.sized hs)
    · have hsized := (hsize s b).symm.sized hnext
      exact hkeep s b hsized (hs hsized)
  apply hloop
  exact foldl_invariant (motive := Bloom.Sized) hsized fun s b _ hs => (hsize s b).sized hs

/-- The constructor meets its invariant when the rounded size stays in the 64-bit range. -/
theorem sized_with_size_and_k {nbits : UInt64} (h : (align_nbits nbits).toNat ≠ 2 ^ 64 - 1) (k_hashes : UInt8) :
    (Bloom.with_size_and_k nbits k_hashes).Sized := by
  obtain ⟨haligned, hpos⟩ := (align_nbits_cases nbits).resolve_right h
  refine ⟨hpos, ?_⟩
  change (align_nbits nbits).toNat = 64 * (List.replicate (align_nbits nbits / 64).toNat (0 : UInt64)).length
  rw [List.length_replicate, div_64_toNat]
  omega

end uffs.bloom
