import Mathlib.Data.List.MinMax
import Uffs.Daemon.Registry
import Uffs.Lib.Machine

open uffs.lib uffs.text uffs.bloom uffs.compact uffs.compact_cache

namespace uffs.daemon

/-! The controllers that demote shards, and the operator's pins and floors they have to respect. -/

inductive TierLevel where
  | hot
  | warm
  | parked
deriving DecidableEq

def TierLevel.to_state : TierLevel → ShardState
  | .hot => .hot
  | .warm => .warm
  | .parked => .parked

/-- `[shards.per_drive]` of the configuration, in the order of its keys. -/
structure Config where
  per_drive : List (Str × Option TierLevel) := []
deriving DecidableEq

/-- A drive letter is an upper-case ASCII letter; the case bit of the other side is cleared. -/
def eq_ignore_ascii_case (letter other : Char) : Bool :=
  decide (other.toNat < 128) && other.toNat &&& 0xDF == letter.toNat

def trim_colons (key : Str) : Str := (key.reverse.dropWhile (· == ':')).reverse

def is_key_of (letter : Char) (key : Str) : Bool :=
  match trim_colons key with
  | [ch] => eq_ignore_ascii_case letter ch
  | _ => false

def min_tier_for_drive (letter : Char) (config : Config) : Option ShardState := do
  let (_, min_tier) ← config.per_drive.find? fun (key, _) => is_key_of letter key
  min_tier.map TierLevel.to_state

def tier_rank : ShardState → Nat
  | .hot => 4
  | .warm => 3
  | .parked => 2
  | .cold => 1
  | .unknown => 0
  | .evicting => 0

structure TierThresholds where
  hot_to_warm_secs : UInt64
  warm_to_parked_secs : UInt64
  parked_to_cold_secs : UInt64
deriving DecidableEq

def next_state_for_idle_with_thresholds (state : ShardState) (idle_secs : UInt64) (thresholds : TierThresholds) :
    Option ShardState :=
  match state with
  | .hot => if thresholds.hot_to_warm_secs ≤ idle_secs then some .warm else none
  | .warm => if thresholds.warm_to_parked_secs ≤ idle_secs then some .parked else none
  | .parked => if thresholds.parked_to_cold_secs ≤ idle_secs then some .cold else none
  | _ => none

def ShardEntry.is_pinned (self : ShardEntry) (now_ms : UInt64) : Bool := decide (now_ms < self.pin_until_ms)

/-- The target tier of an idle shard. The thresholds come from the shard's query rate. -/
def evaluate_idle_demote (shard : ShardEntry) (now_ms : UInt64) (config : Config) (thresholds : TierThresholds) :
    Option ShardState :=
  let last := shard.stats.last_query_at_ms
  let idle_secs := (if last ≤ now_ms then now_ms - last else 0) / 1000
  match next_state_for_idle_with_thresholds shard.state idle_secs thresholds, min_tier_for_drive shard.drive config with
  | some proposed, some floor => if tier_rank proposed < tier_rank floor then none else some proposed
  | some proposed, none => some proposed
  | none, _ => none

/-- The shards an idle tick is going to demote. -/
def idle_demotes (reg : ShardRegistry) (now_ms : UInt64) (config : Config) (thresholds : Char → TierThresholds) :
    List (Char × ShardState) :=
  (reg.shards.filter fun shard => !shard.is_pinned now_ms).filterMap fun shard =>
    (evaluate_idle_demote shard now_ms config (thresholds shard.drive)).map fun target => (shard.drive, target)

/-- The Warm shard whose last query is the oldest. No floor is looked at. -/
def cascade_pick (reg : ShardRegistry) (now_ms : UInt64) : Option Char :=
  (((reg.shards.filter fun shard => shard.state == .warm).filter fun shard => !shard.is_pinned now_ms).argmin
    fun shard => shard.stats.last_query_at_ms.toNat).map ShardEntry.drive

/-- Demote what is still in a tier to be demoted from. -/
def demote_batch (env : Env) (reg : ShardRegistry) (demotes : List (Char × ShardState)) : ShardRegistry :=
  demotes.foldl (fun reg (letter, target) => (reg.demote_letter env letter target).getD reg) reg

/-- The shard a call for a letter finds. -/
def ShardRegistry.shard_of (self : ShardRegistry) (letter : Char) : Option ShardEntry := (self.find letter).map Prod.fst

/-- Write to the entry of a letter in place. -/
def ShardRegistry.update (self : ShardRegistry) (letter : Char) (f : ShardEntry → ShardEntry) : ShardRegistry :=
  match self.find letter with
  | none => self
  | some (shard, pos) => { self with shards := self.shards.set pos (f shard) }

def ShardEntry.mark_at (now_ms : UInt64) (self : ShardEntry) : ShardEntry :=
  { self with stats := { self.stats with last_query_at_ms := now_ms } }

def ShardEntry.pin_until (pin_until_ms : UInt64) (self : ShardEntry) : ShardEntry := { self with pin_until_ms := pin_until_ms }

def ShardEntry.preloaded (now_ms pin_until_ms : UInt64) (self : ShardEntry) : ShardEntry :=
  (self.mark_at now_ms).pin_until pin_until_ms

/-- The daemon's registry with the plans of controllers that have released their read lock. -/
structure Tiering where
  registry : ShardRegistry
  now_ms : UInt64
  /-- What an idle tick has found. -/
  idle_plan : Option (List (Char × ShardState)) := none
  /-- What the pressure cascade has picked. -/
  pick : Option Char := none
  /-- Until when the operator was told that a drive is pinned; zero after a hibernate. -/
  promised : Char → UInt64 := fun _ => 0

inductive TierEvent where
  | clock (now_ms : UInt64)
  | query (letter : Char)
  /-- A search promotes a shard. -/
  | promote (letter : Char) (body : DriveCompactIndex)
  /-- The two halves of an idle tick. -/
  | idle_detect (thresholds : Char → TierThresholds)
  | idle_apply
  /-- The two halves of a step of the cascade. -/
  | cascade_detect
  | cascade_apply
  /-- A patched or reloaded body is swapped in. -/
  | journal_apply (letter : Char) (body : DriveCompactIndex)
  /-- The swap of a preload, with its pin. -/
  | preload (letter : Char) (body : DriveCompactIndex) (pin_until_ms : UInt64)
  /-- A preload of a shard it found Hot. The entry it found may be out of the registry by now. -/
  | preload_extend (letter : Char) (pin_until_ms : UInt64) (live : Bool)
  /-- The swap of a hibernate, for the drives it found above Cold. -/
  | hibernate (drives : List Char)

namespace Tiering

def promise (self : Tiering) (letter : Char) (pin_until_ms : UInt64) : Char → UInt64 := fun other =>
  if other = letter then pin_until_ms else self.promised other

def step (env : Env) (config : Config) (s : Tiering) : TierEvent → Option Tiering
  | .clock now_ms => if s.now_ms ≤ now_ms then some { s with now_ms } else none
  | .query letter => some
    { s with registry := s.registry.update letter (.mark_at s.now_ms) }
  | .promote letter body => (s.registry.promote_letter letter body).map fun registry => { s with registry }
  | .idle_detect thresholds => some { s with idle_plan := some (idle_demotes s.registry s.now_ms config thresholds) }
  | .idle_apply => s.idle_plan.map fun demotes => { s with registry := demote_batch env s.registry demotes, idle_plan := none }
  | .cascade_detect => (cascade_pick s.registry s.now_ms).map fun letter => { s with pick := some letter }
  | .cascade_apply => s.pick.map fun letter =>
    { s with registry := (s.registry.demote_letter env letter .parked).getD s.registry, pick := none }
  | .journal_apply letter body => (s.registry.replace_warm_body letter body).map fun registry => { s with registry }
  | .preload letter body pin_until_ms => (s.registry.promote_letter_to_hot letter body).map fun registry =>
    { s with
      registry := registry.update letter (.preloaded s.now_ms pin_until_ms)
      promised := s.promise letter pin_until_ms }
  | .preload_extend letter pin_until_ms live =>
    if live then do
      let (shard, _) ← s.registry.find letter
      if shard.state = .hot then
        some { s with registry := s.registry.update letter (.pin_until pin_until_ms), promised := s.promise letter pin_until_ms }
      else none
    else some { s with promised := s.promise letter pin_until_ms }
  | .hibernate drives => some
    { s with
      registry := demote_batch env s.registry (drives.map fun letter => (letter, .cold))
      promised := fun letter => if letter ∈ drives then 0 else s.promised letter }

/-- What the operator asks of the two controllers: they demote no shard before its pin expires, and
none below its floor. -/
def Respected (config : Config) (s s' : Tiering) : TierEvent → Prop
  | .idle_apply | .cascade_apply => ∀ letter before after, s.registry.shard_of letter = some before →
      s'.registry.shard_of letter = some after → tier_rank after.state < tier_rank before.state →
      s.promised letter ≤ s.now_ms ∧ ∀ floor, min_tier_for_drive letter config = some floor → tier_rank floor ≤ tier_rank after.state
  | _ => True

/-- A controller is going to demote this letter. -/
def Chosen (s : Tiering) (letter : Char) : Prop :=
  s.pick = some letter ∨ ∃ demotes target, s.idle_plan = some demotes ∧ (letter, target) ∈ demotes ∧ target ≠ .warm

/-- Steps that lose no pin and pick no shard at its floor. -/
def Careful (config : Config) (s : Tiering) : TierEvent → Prop
  -- the swap makes an unpinned shard, so there must be no pin to lose
  | .journal_apply letter _ => s.promised letter ≤ s.now_ms
  -- the pin comes too late for a controller that has chosen the shard before
  | .preload letter _ _ => ¬ s.Chosen letter
  | .preload_extend letter _ live => ¬ s.Chosen letter ∧ live = true
  -- the cascade reads no floor
  | .cascade_apply => ∀ letter floor, s.pick = some letter → min_tier_for_drive letter config = some floor →
      tier_rank floor ≤ tier_rank .parked
  | _ => True

end Tiering

section lookup

variable {env : Env} {reg next : ShardRegistry} {letter : Char}

theorem find_iff (hunique : (reg.shards.map ShardEntry.drive).Nodup) {shard : ShardEntry} {pos : Nat} :
    reg.find letter = some (shard, pos) ↔ reg.shards[pos]? = some shard ∧ shard.drive = letter := by
  refine ⟨ShardRegistry.find_some, fun ⟨hget, hdrive⟩ => ?_⟩
  have hsome : (reg.find letter).isSome = true := by
    rw [ShardRegistry.find, List.find?_isSome]
    exact ⟨(shard, pos), List.mem_zipIdx_iff_getElem?.mpr hget, beq_iff_eq.mpr hdrive⟩
  obtain ⟨⟨found, place⟩, hfind⟩ := Option.isSome_iff_exists.mp hsome
  obtain ⟨hfound, hsame⟩ := ShardRegistry.find_some hfind
  have hplace : place = pos := by
    refine (List.getElem?_inj ?_ hunique).mp ?_
    · rw [List.length_map]
      exact (List.getElem?_eq_some_iff.mp hfound).1
    · rw [List.getElem?_map, List.getElem?_map, hfound, hget, Option.map_some, Option.map_some, hsame, hdrive]
  rw [hfind, hplace]
  rw [hplace, hget] at hfound
  rw [Option.some.inj hfound]

theorem shard_of_iff (hunique : (reg.shards.map ShardEntry.drive).Nodup) {shard : ShardEntry} :
    reg.shard_of letter = some shard ↔ shard ∈ reg.shards ∧ shard.drive = letter := by
  rw [ShardRegistry.shard_of, Option.map_eq_some_iff]
  constructor
  · rintro ⟨⟨found, pos⟩, hfind, rfl⟩
    obtain ⟨hget, hdrive⟩ := ShardRegistry.find_some hfind
    exact ⟨List.mem_of_getElem? hget, hdrive⟩
  · rintro ⟨hmem, hdrive⟩
    obtain ⟨pos, hget⟩ := List.mem_iff_getElem?.mp hmem
    exact ⟨(shard, pos), (find_iff hunique).mpr ⟨hget, hdrive⟩, rfl⟩

/-- One entry is another one afterwards, of the same drive. -/
structure Changed (reg next : ShardRegistry) (letter : Char) (old new_entry : ShardEntry) : Prop where
  place : ∃ pos, reg.shards[pos]? = some old ∧ old.drive = letter ∧ new_entry.drive = letter ∧
    next.shards = reg.shards.set pos new_entry

theorem Changed.shard_of {old new_entry : ShardEntry} (h : Changed reg next letter old new_entry)
    (hunique : (reg.shards.map ShardEntry.drive).Nodup) (hunique' : (next.shards.map ShardEntry.drive).Nodup) :
    reg.shard_of letter = some old ∧ next.shard_of letter = some new_entry ∧
      ∀ other, other ≠ letter → next.shard_of other = reg.shard_of other := by
  obtain ⟨pos, hget, hold, hnew, hset⟩ := h.place
  have hlt := (List.getElem?_eq_some_iff.mp hget).1
  refine ⟨(shard_of_iff hunique).mpr ⟨List.mem_of_getElem? hget, hold⟩,
    (shard_of_iff hunique').mpr ⟨hset ▸ List.mem_set hlt _, hnew⟩, fun other hne => Option.ext fun shard => ?_⟩
  rw [shard_of_iff hunique, shard_of_iff hunique', hset]
  refine and_congr_left fun hdrive => ⟨fun hmem => ?_, fun hmem => ?_⟩
  · rcases List.mem_or_eq_of_mem_set hmem with hmem | rfl
    · exact hmem
    · exact absurd (hdrive.symm.trans hnew) hne
  · obtain ⟨i, hi⟩ := List.mem_iff_getElem?.mp hmem
    have hother : pos ≠ i := by
      rintro rfl
      rw [hget] at hi
      exact hne (hdrive.symm.trans ((Option.some.inj hi) ▸ hold))
    exact List.mem_iff_getElem?.mpr ⟨i, by rw [List.getElem?_set_ne hother, hi]⟩

theorem demote_changed {target : ShardState} (h : reg.demote_letter env letter target = some next) :
    ∃ old new_entry, Changed reg next letter old new_entry ∧ new_entry.state = target ∧ target ≠ .warm := by
  obtain ⟨old, pos, hget, hdrive, hrest⟩ := ShardRegistry.at_find h
  dsimp only at hrest
  split at hrest
  · obtain ⟨new_entry, hnew, hnext⟩ := Option.bind_eq_some_iff.mp hrest
    have hentry : new_entry.drive = letter ∧ new_entry.state = target ∧ target ≠ .warm := by
      split at hnew
      · obtain ⟨body, -, rfl⟩ := Option.map_eq_some_iff.mp hnew
        exact ⟨hdrive, rfl, by decide⟩
      · cases hnew
        exact ⟨hdrive, rfl, by decide⟩
      · cases hnew
    exact ⟨old, new_entry, ⟨pos, hget, hdrive, hentry.1, by rw [← Option.some.inj hnext]; rfl⟩, hentry.2⟩
  · cases hrest

variable {body : DriveCompactIndex}

theorem promote_changed (h : reg.promote_letter letter body = some next) :
    ∃ old new_entry, Changed reg next letter old new_entry ∧ old.state ≠ .hot := by
  obtain ⟨old, pos, hget, hdrive, hrest⟩ := ShardRegistry.at_find h
  dsimp only at hrest
  split at hrest
  next hstate =>
    refine ⟨old, .new_warm_with_stats old.drive body old.stats, ⟨pos, hget, hdrive, hdrive, ?_⟩, ?_⟩
    · rw [← Option.some.inj hrest]
      rfl
    · rcases hstate with hstate | hstate <;> rw [hstate] <;> decide
  next => cases hrest

theorem replace_warm_changed (h : reg.replace_warm_body letter body = some next) :
    ∃ old new_entry, Changed reg next letter old new_entry := by
  obtain ⟨old, pos, hget, hdrive, hrest⟩ := ShardRegistry.at_find h
  dsimp only at hrest
  split at hrest
  · exact ⟨old, .new_warm_with_stats old.drive body old.stats, pos, hget, hdrive, hdrive, by rw [← Option.some.inj hrest]; rfl⟩
  · cases hrest

theorem promote_to_hot_changed (h : reg.promote_letter_to_hot letter body = some next) :
    ∃ old new_entry, Changed reg next letter old new_entry ∧ new_entry.state = .hot := by
  obtain ⟨old, pos, hget, hdrive, hrest⟩ := ShardRegistry.at_find h
  dsimp only at hrest
  split at hrest
  · exact ⟨old, .new_hot_with_stats old.drive body _, ⟨pos, hget, hdrive, hdrive, by rw [← Option.some.inj hrest]; rfl⟩, rfl⟩
  · cases hrest

theorem update_changed {f : ShardEntry → ShardEntry} {old : ShardEntry} (hdrive : ∀ shard, (f shard).drive = shard.drive)
    (h : reg.shard_of letter = some old) : Changed reg (reg.update letter f) letter old (f old) := by
  obtain ⟨⟨found, pos⟩, hfind, rfl⟩ := Option.map_eq_some_iff.mp h
  obtain ⟨hget, hletter⟩ := ShardRegistry.find_some hfind
  refine ⟨pos, hget, hletter, (hdrive _).trans hletter, ?_⟩
  rw [ShardRegistry.update, hfind]

theorem update_none {f : ShardEntry → ShardEntry} (h : reg.shard_of letter = none) : reg.update letter f = reg := by
  rw [ShardRegistry.shard_of, Option.map_eq_none_iff] at h
  rw [ShardRegistry.update, h]

/-- What a write to one entry makes of all. -/
theorem shard_of_update {f : ShardEntry → ShardEntry} (hdrive : ∀ shard, (f shard).drive = shard.drive)
    (hunique : (reg.shards.map ShardEntry.drive).Nodup) (hunique' : ((reg.update letter f).shards.map ShardEntry.drive).Nodup)
    (other : Char) : (reg.update letter f).shard_of other =
      if other = letter then (reg.shard_of other).map f else reg.shard_of other := by
  cases hold : reg.shard_of letter with
  | none =>
    rw [update_none hold]
    split
    next heq => rw [heq, hold, Option.map_none]
    next => rfl
  | some old =>
    obtain ⟨-, hnew, hothers⟩ := (update_changed hdrive hold).shard_of hunique hunique'
    split
    next heq => rw [heq, hold, hnew, Option.map_some]
    next hne => exact hothers other hne

/-- Counters and pins are no part of what a registry has to keep. -/
theorem sound_update (hsound : reg.Sound) (letter : Char) {f : ShardEntry → ShardEntry}
    (hdrive : ∀ shard, (f shard).drive = shard.drive) (hstate : ∀ shard, (f shard).state = shard.state)
    (hbody : ∀ shard, (f shard).body = shard.body) (hparked : ∀ shard, (f shard).parked_body = shard.parked_body) :
    (reg.update letter f).Sound := by
  rw [ShardRegistry.update]
  cases hfind : reg.find letter with
  | none => exact hsound
  | some found =>
    obtain ⟨shard, pos⟩ := found
    obtain ⟨hget, -⟩ := ShardRegistry.find_some hfind
    have hresident : ∀ shard, (f shard).resident = shard.resident := fun shard => by
      rw [ShardEntry.resident, ShardEntry.resident, hstate]
    have hcoherent : ∀ entry ∈ reg.shards.set pos (f shard), entry.Coherent := by
      intro entry hmem
      rcases List.mem_or_eq_of_mem_set hmem with hmem | rfl
      · exact hsound.coherent entry hmem
      · have hold := hsound.coherent shard (List.mem_of_getElem? hget)
        exact ⟨by rw [hbody, hresident]; exact hold.body, by rw [hparked, hstate]; exact hold.parked⟩
    refine ⟨?_, ?_, fun entry hmem => (hcoherent entry hmem).body, fun entry hmem => (hcoherent entry hmem).parked⟩
    · have hsame : (reg.shards.set pos (f shard)).map ShardEntry.drive = reg.shards.map ShardEntry.drive := by
        obtain ⟨hlt, rfl⟩ := List.getElem?_eq_some_iff.mp hget
        rw [List.map_set, hdrive, ← @List.getElem_map _ _ ShardEntry.drive _ _ (by rw [List.length_map]; exact hlt), List.set_getElem_self]
      rw [hsame]
      exact hsound.unique
    · have hsame : ((reg.shards.set pos (f shard)).filter ShardEntry.resident).map ShardEntry.body =
          (reg.shards.filter ShardEntry.resident).map ShardEntry.body := by
        clear hcoherent hfind hsound
        generalize reg.shards = shards at hget
        induction shards generalizing pos with
        | nil => cases hget
        | cons first shards ih =>
          cases pos with
          | zero =>
            cases hget
            rw [List.set_cons_zero, List.filter_cons, List.filter_cons, hresident]
            split
            · rw [List.map_cons, List.map_cons, hbody]
            · rfl
          | succ pos =>
            rw [List.set_cons_succ, List.filter_cons, List.filter_cons]
            split
            · rw [List.map_cons, List.map_cons, ih pos hget]
            · exact ih pos hget
      rw [hsame]
      exact hsound.active

end lookup

section run

variable {env : Env} {config : Config}

theorem demote_batch_cons (reg : ShardRegistry) (letter : Char) (target : ShardState) (demotes : List (Char × ShardState)) :
    demote_batch env reg ((letter, target) :: demotes) =
      demote_batch env ((reg.demote_letter env letter target).getD reg) demotes := rfl

/-- A batch demotes only what is on its list, and to the tier that is on the list. -/
theorem demote_batch_shard_of {reg : ShardRegistry} (hsound : reg.Sound) (demotes : List (Char × ShardState)) :
    (demote_batch env reg demotes).Sound ∧ ∀ letter, (demote_batch env reg demotes).shard_of letter = reg.shard_of letter ∨
      ∃ target after, (letter, target) ∈ demotes ∧ target ≠ .warm ∧
        (demote_batch env reg demotes).shard_of letter = some after ∧ after.state = target := by
  induction demotes generalizing reg with
  | nil => exact ⟨hsound, fun letter => .inl rfl⟩
  | cons demote demotes ih =>
    obtain ⟨chosen, target⟩ := demote
    rw [demote_batch_cons]
    cases hnext : reg.demote_letter env chosen target with
    | none =>
      obtain ⟨hsound', hcases⟩ := ih hsound
      refine ⟨hsound', fun letter => (hcases letter).imp id ?_⟩
      rintro ⟨target', after, hmem, hrest⟩
      exact ⟨target', after, List.mem_cons_of_mem _ hmem, hrest⟩
    | some next =>
      have hnextSound := hsound.swapped (ShardRegistry.demote_swapped hnext)
      obtain ⟨old, new_entry, hchanged, hstate, htarget⟩ := demote_changed hnext
      obtain ⟨-, hnew, hothers⟩ := hchanged.shard_of hsound.unique hnextSound.unique
      obtain ⟨hsound', hcases⟩ := ih hnextSound
      refine ⟨hsound', fun letter => ?_⟩
      rcases hcases letter with hsame | ⟨target', after, hmem, hrest⟩
      · by_cases heq : letter = chosen
        · subst heq
          exact .inr ⟨target, new_entry, List.mem_cons_self, htarget, hsame.trans hnew, hstate⟩
        · exact .inl (hsame.trans (hothers letter heq))
      · exact .inr ⟨target', after, List.mem_cons_of_mem _ hmem, hrest⟩

namespace Tiering

/-- What careful steps keep: a pin the operator was told of is on a Hot shard, and no controller has
chosen that shard. -/
structure Inv (config : Config) (s : Tiering) : Prop where
  sound : s.registry.Sound
  pinned : ∀ letter, s.now_ms < s.promised letter →
    ∃ shard, s.registry.shard_of letter = some shard ∧ shard.state = .hot ∧ shard.pin_until_ms = s.promised letter
  chosen : ∀ letter, s.Chosen letter → s.promised letter ≤ s.now_ms
  floors : ∀ demotes letter target floor, s.idle_plan = some demotes → (letter, target) ∈ demotes →
    min_tier_for_drive letter config = some floor → tier_rank floor ≤ tier_rank target

variable {letter : Char} {s : Tiering} {registry : ShardRegistry}

/-- What an idle tick finds is not pinned, and its target is not below the floor. -/
theorem mem_idle_demotes {reg : ShardRegistry} {now_ms : UInt64} {thresholds : Char → TierThresholds} {target : ShardState}
    (h : (letter, target) ∈ idle_demotes reg now_ms config thresholds) :
    (∃ shard ∈ reg.shards, shard.drive = letter ∧ shard.is_pinned now_ms = false) ∧
      ∀ floor, min_tier_for_drive letter config = some floor → tier_rank floor ≤ tier_rank target := by
  obtain ⟨shard, hmem, hdemote⟩ := List.mem_filterMap.mp h
  obtain ⟨hmem, hpinned⟩ := List.mem_filter.mp hmem
  obtain ⟨found, htarget, heq⟩ := Option.map_eq_some_iff.mp hdemote
  cases heq
  refine ⟨⟨shard, hmem, rfl, by simpa using hpinned⟩, fun floor hfloor => ?_⟩
  rw [evaluate_idle_demote, hfloor] at htarget
  split at htarget
  next proposed floor' hproposed hfloor' =>
    cases hfloor'
    split at htarget
    · cases htarget
    next hnot =>
      cases htarget
      omega
  next hnone => cases hnone
  next => cases htarget

theorem cascade_pick_mem {reg : ShardRegistry} {now_ms : UInt64} (h : cascade_pick reg now_ms = some letter) :
    ∃ shard ∈ reg.shards, shard.drive = letter ∧ shard.is_pinned now_ms = false := by
  obtain ⟨shard, hpick, rfl⟩ := Option.map_eq_some_iff.mp h
  obtain ⟨hmem, hpinned⟩ := List.mem_filter.mp (List.argmin_mem hpick)
  exact ⟨shard, (List.mem_filter.mp hmem).1, rfl, by simpa using hpinned⟩

/-- A shard that is found without a pin has no promise either. -/
theorem Inv.unpinned (h : Inv config s)
    (hfound : ∃ shard ∈ s.registry.shards, shard.drive = letter ∧ shard.is_pinned s.now_ms = false) :
    s.promised letter ≤ s.now_ms := by
  obtain ⟨shard, hmem, hdrive, hpinned⟩ := hfound
  by_contra hlater
  obtain ⟨pinned, hshard, -, hpin⟩ := h.pinned letter (UInt64.not_le.mp hlater)
  obtain rfl : shard = pinned := by
    have hsame := (shard_of_iff h.sound.unique).mpr ⟨hmem, hdrive⟩
    rw [hshard] at hsame
    exact (Option.some.inj hsame).symm
  rw [ShardEntry.is_pinned, hpin] at hpinned
  exact hlater (UInt64.not_lt.mp (of_decide_eq_false hpinned))

/-- Where a step leaves alone every shard with a pin, the pins stay. -/
theorem Inv.keeps_pins (h : Inv config s)
    (hsame : ∀ letter, s.now_ms < s.promised letter → registry.shard_of letter = s.registry.shard_of letter) :
    ∀ letter, s.now_ms < s.promised letter →
      ∃ shard, registry.shard_of letter = some shard ∧ shard.state = .hot ∧ shard.pin_until_ms = s.promised letter := by
  intro letter hpin
  rw [hsame letter hpin]
  exact h.pinned letter hpin

/-- Where the choices of the controllers stay, what is chosen stays without a promise. -/
theorem chosen_of_same {s s' : Tiering} (hpick : s'.pick = s.pick) (hplan : s'.idle_plan = s.idle_plan) (letter : Char) :
    s'.Chosen letter ↔ s.Chosen letter := by
  rw [Chosen, Chosen, hpick, hplan]

section

variable (h : Inv config s)

include h

/-- A step that touches neither the choices nor the promises has to keep the pinned shards. -/
theorem Inv.of_registry (hsound : registry.Sound)
    (hsame : ∀ letter, s.now_ms < s.promised letter → registry.shard_of letter = s.registry.shard_of letter) :
    Inv config { s with registry } where
  sound := hsound
  pinned := h.keeps_pins hsame
  chosen letter hchosen := h.chosen letter ((chosen_of_same rfl rfl letter).mp hchosen)
  floors := h.floors

theorem Inv.clock {now_ms : UInt64} (hnow : s.now_ms ≤ now_ms) :
    Inv config { s with now_ms } where
  sound := h.sound
  pinned letter hpin := h.pinned letter (lt_of_le_of_lt hnow hpin)
  chosen letter hchosen := le_trans (h.chosen letter ((chosen_of_same rfl rfl letter).mp hchosen)) hnow
  floors := h.floors

theorem Inv.query (letter : Char) {f : ShardEntry → ShardEntry} (hdrive : ∀ shard, (f shard).drive = shard.drive)
    (hstate : ∀ shard, (f shard).state = shard.state) (hbody : ∀ shard, (f shard).body = shard.body)
    (hparked : ∀ shard, (f shard).parked_body = shard.parked_body)
    (hpin : ∀ shard, (f shard).pin_until_ms = shard.pin_until_ms) :
    Inv config { s with registry := s.registry.update letter f } where
  sound := sound_update h.sound letter hdrive hstate hbody hparked
  pinned other hother := by
    obtain ⟨shard, hshard, hhot, huntil⟩ := h.pinned other hother
    rw [shard_of_update hdrive h.sound.unique (sound_update h.sound letter hdrive hstate hbody hparked).unique, hshard]
    split
    · exact ⟨f shard, rfl, (hstate shard).trans hhot, (hpin shard).trans huntil⟩
    · exact ⟨shard, rfl, hhot, huntil⟩
  chosen other hchosen := h.chosen other ((chosen_of_same rfl rfl other).mp hchosen)
  floors := h.floors

theorem Inv.promote {body : DriveCompactIndex} (hnext : s.registry.promote_letter letter body = some registry) :
    Inv config { s with registry } := by
  have hsound := h.sound.swapped (ShardRegistry.promote_swapped hnext)
  obtain ⟨old, new_entry, hchanged, hold⟩ := promote_changed hnext
  obtain ⟨hfound, -, hothers⟩ := hchanged.shard_of h.sound.unique hsound.unique
  refine h.of_registry hsound fun other hpin => hothers other ?_
  rintro rfl
  obtain ⟨shard, hshard, hhot, -⟩ := h.pinned other hpin
  rw [hfound] at hshard
  exact hold (Option.some.inj hshard ▸ hhot)

theorem Inv.journal_apply {body : DriveCompactIndex} (hok : s.promised letter ≤ s.now_ms)
    (hnext : s.registry.replace_warm_body letter body = some registry) : Inv config { s with registry } := by
  have hsound := h.sound.swapped (ShardRegistry.replace_warm_swapped hnext)
  obtain ⟨old, new_entry, hchanged⟩ := replace_warm_changed hnext
  obtain ⟨-, -, hothers⟩ := hchanged.shard_of h.sound.unique hsound.unique
  refine h.of_registry hsound fun other hpin => hothers other ?_
  rintro rfl
  exact absurd hpin (UInt64.not_lt.mpr hok)

theorem Inv.idle_detect (thresholds : Char → TierThresholds) :
    Inv config { s with idle_plan := some (idle_demotes s.registry s.now_ms config thresholds) } where
  sound := h.sound
  pinned := h.pinned
  chosen letter hchosen := by
    rcases hchosen with hpick | ⟨demotes, target, hplan, hmem, -⟩
    · exact h.chosen letter (.inl hpick)
    · cases hplan
      exact h.unpinned (mem_idle_demotes hmem).1
  floors demotes letter target floor hplan hmem hfloor := by
    cases hplan
    exact (mem_idle_demotes hmem).2 floor hfloor

theorem Inv.cascade_detect (hpick : cascade_pick s.registry s.now_ms = some letter) :
    Inv config { s with pick := some letter } where
  sound := h.sound
  pinned := h.pinned
  chosen other hchosen := by
    rcases hchosen with heq | hplan
    · cases heq
      exact h.unpinned (cascade_pick_mem hpick)
    · exact h.chosen other (.inr hplan)
  floors := h.floors

end

/-- A batch of a controller, when nothing on its list is pinned and no target is below a floor. -/
theorem Inv.batch {s : Tiering} (h : Inv config s) (demotes : List (Char × ShardState))
    (hfree : ∀ letter target, (letter, target) ∈ demotes → target ≠ .warm → s.promised letter ≤ s.now_ms)
    (hfloors : ∀ letter target floor, (letter, target) ∈ demotes → min_tier_for_drive letter config = some floor →
      tier_rank floor ≤ tier_rank target) :
    Inv config { s with registry := demote_batch env s.registry demotes } ∧
      ∀ letter before after, s.registry.shard_of letter = some before →
        (demote_batch env s.registry demotes).shard_of letter = some after → tier_rank after.state < tier_rank before.state →
        s.promised letter ≤ s.now_ms ∧
          ∀ floor, min_tier_for_drive letter config = some floor → tier_rank floor ≤ tier_rank after.state := by
  obtain ⟨hsound, hcases⟩ := @demote_batch_shard_of env _ h.sound demotes
  constructor
  · refine h.of_registry hsound fun letter hpin => ?_
    rcases hcases letter with hsame | ⟨target, after, hmem, htarget, -, -⟩
    · exact hsame
    · exact absurd hpin (UInt64.not_lt.mpr (hfree letter target hmem htarget))
  · intro letter before after hbefore hafter hlower
    rcases hcases letter with hsame | ⟨target, found, hmem, htarget, hfound, rfl⟩
    · rw [hsame, hbefore] at hafter
      rw [Option.some.inj hafter] at hlower
      exact absurd hlower (Nat.lt_irrefl _)
    · rw [hfound] at hafter
      obtain rfl := Option.some.inj hafter
      exact ⟨hfree letter _ hmem htarget, fun floor hfloor => hfloors letter _ floor hmem hfloor⟩

/-- A pin on a Hot shard that no controller has chosen. -/
theorem Inv.pin (h : Inv config s) (hfree : ¬ s.Chosen letter) (hsound : registry.Sound) {pin_until_ms : UInt64}
    (hpinned : ∃ shard, registry.shard_of letter = some shard ∧ shard.state = .hot ∧ shard.pin_until_ms = pin_until_ms)
    (hothers : ∀ other, other ≠ letter → registry.shard_of other = s.registry.shard_of other) :
    Inv config { s with registry := registry, promised := s.promise letter pin_until_ms } where
  sound := hsound
  pinned other hpin := by
    dsimp only [promise] at hpin ⊢
    by_cases heq : other = letter
    · rw [if_pos heq, heq]
      exact hpinned
    · rw [if_neg heq] at hpin ⊢
      rw [hothers other heq]
      exact h.pinned other hpin
  chosen other hchosen := by
    have hchosen' : s.Chosen other := (chosen_of_same rfl rfl other).mp hchosen
    have hne : other ≠ letter := fun heq => hfree (heq ▸ hchosen')
    dsimp only [promise]
    rw [if_neg hne]
    exact h.chosen other hchosen'
  floors := h.floors

theorem Inv.hibernate (h : Inv config s) (drives : List Char) :
    Inv config { s with
      registry := demote_batch env s.registry (drives.map fun letter => (letter, .cold))
      promised := fun letter => if letter ∈ drives then 0 else s.promised letter } := by
  obtain ⟨hsound, hcases⟩ := @demote_batch_shard_of env _ h.sound (drives.map fun letter => (letter, .cold))
  refine ⟨hsound, fun letter hpin => ?_, fun letter hchosen => ?_, h.floors⟩
  · dsimp only at hpin ⊢
    by_cases hmem : letter ∈ drives
    · rw [if_pos hmem] at hpin
      exact absurd hpin (UInt64.not_lt.mpr UInt64.zero_le)
    · rw [if_neg hmem] at hpin ⊢
      rcases hcases letter with hsame | ⟨target, after, hlisted, -, -, -⟩
      · rw [hsame]
        exact h.pinned letter hpin
      · obtain ⟨drive, hdrive, heq⟩ := List.mem_map.mp hlisted
        cases heq
        exact absurd hdrive hmem
  · dsimp only
    split
    · exact UInt64.zero_le
    · exact h.chosen letter ((chosen_of_same rfl rfl letter).mp hchosen)

/-- A careful step keeps the promises, and what it demotes it may demote. -/
theorem Inv.step {s s' : Tiering} {e : TierEvent} (h : Inv config s) (hok : Careful config s e)
    (hstep : step env config s e = some s') : Inv config s' ∧ Respected config s s' e := by
  cases e with
  | clock now_ms =>
    rw [Tiering.step] at hstep
    split at hstep
    next hnow =>
      cases hstep
      exact ⟨h.clock hnow, trivial⟩
    next => cases hstep
  | query letter =>
    cases hstep
    exact ⟨h.query letter (fun _ => rfl) (fun _ => rfl) (fun _ => rfl) (fun _ => rfl) fun _ => rfl, trivial⟩
  | promote letter body =>
    obtain ⟨registry, hnext, rfl⟩ := Option.map_eq_some_iff.mp hstep
    exact ⟨h.promote hnext, trivial⟩
  | idle_detect thresholds =>
    cases hstep
    exact ⟨h.idle_detect thresholds, trivial⟩
  | idle_apply =>
    obtain ⟨demotes, hplan, rfl⟩ := Option.map_eq_some_iff.mp hstep
    obtain ⟨hinv, hrespected⟩ := @Inv.batch env config s h demotes
      (fun letter target hmem htarget => h.chosen letter (.inr ⟨demotes, target, hplan, hmem, htarget⟩))
      fun letter target floor hmem hfloor => h.floors demotes letter target floor hplan hmem hfloor
    refine ⟨⟨hinv.sound, hinv.pinned, fun letter hchosen => ?_, nofun⟩, hrespected⟩
    rcases hchosen with hpick | ⟨_, _, hnone, -⟩
    · exact h.chosen letter (.inl hpick)
    · cases hnone
  | cascade_detect =>
    obtain ⟨letter, hpick, rfl⟩ := Option.map_eq_some_iff.mp hstep
    exact ⟨h.cascade_detect hpick, trivial⟩
  | cascade_apply =>
    obtain ⟨letter, hpick, rfl⟩ := Option.map_eq_some_iff.mp hstep
    obtain ⟨hinv, hrespected⟩ := @Inv.batch env config s h [(letter, .parked)]
      (fun other target hmem _ => by
        cases List.mem_singleton.mp hmem
        exact h.chosen letter (.inl hpick))
      fun other target floor hmem hfloor => by
        cases List.mem_singleton.mp hmem
        exact hok letter floor hpick hfloor
    refine ⟨⟨hinv.sound, hinv.pinned, fun other hchosen => ?_, h.floors⟩, hrespected⟩
    rcases hchosen with hnone | hplan
    · cases hnone
    · exact h.chosen other (.inr hplan)
  | journal_apply letter body =>
    obtain ⟨registry, hnext, rfl⟩ := Option.map_eq_some_iff.mp hstep
    exact ⟨h.journal_apply hok hnext, trivial⟩
  | preload letter body pin_until_ms =>
    obtain ⟨registry, hnext, rfl⟩ := Option.map_eq_some_iff.mp hstep
    have hsound := h.sound.swapped (ShardRegistry.promote_to_hot_swapped hnext)
    have hupdated := @sound_update registry hsound letter (.preloaded s.now_ms pin_until_ms)
      (fun _ => rfl) (fun _ => rfl) (fun _ => rfl) fun _ => rfl
    obtain ⟨old, new_entry, hchanged, hhot⟩ := promote_to_hot_changed hnext
    obtain ⟨-, hnew, hothers⟩ := hchanged.shard_of h.sound.unique hsound.unique
    refine ⟨h.pin hok hupdated ?_ fun other hne => ?_, trivial⟩
    · rw [@shard_of_update registry letter (.preloaded s.now_ms pin_until_ms) (fun _ => rfl) hsound.unique hupdated.unique, if_pos rfl, hnew]
      exact ⟨_, rfl, hhot, rfl⟩
    · rw [@shard_of_update registry letter (.preloaded s.now_ms pin_until_ms) (fun _ => rfl) hsound.unique hupdated.unique, if_neg hne, hothers other hne]
  | preload_extend letter pin_until_ms live =>
    obtain ⟨hfree, rfl⟩ := hok
    obtain ⟨⟨shard, pos⟩, hfind, hhere⟩ := Option.bind_eq_some_iff.mp hstep
    dsimp only at hhere
    split at hhere
    next hhot =>
      cases hhere
      have hupdated := @sound_update s.registry h.sound letter (.pin_until pin_until_ms)
        (fun _ => rfl) (fun _ => rfl) (fun _ => rfl) fun _ => rfl
      have hshard : s.registry.shard_of letter = some shard := by rw [ShardRegistry.shard_of, hfind]; rfl
      refine ⟨h.pin hfree hupdated ?_ fun other hne => ?_, trivial⟩
      · rw [@shard_of_update s.registry letter (.pin_until pin_until_ms) (fun _ => rfl) h.sound.unique hupdated.unique, if_pos rfl, hshard]
        exact ⟨_, rfl, hhot, rfl⟩
      · rw [@shard_of_update s.registry letter (.pin_until pin_until_ms) (fun _ => rfl) h.sound.unique hupdated.unique, if_neg hne]
    next => cases hhere
  | hibernate drives =>
    cases hstep
    exact ⟨h.hibernate drives, trivial⟩

/-- Any registry nobody has pinned a shard of. -/
def start (registry : ShardRegistry) (now_ms : UInt64) : Tiering := { registry, now_ms }

theorem Inv.start (hsound : registry.Sound) (now_ms : UInt64) : Inv config (start registry now_ms) where
  sound := hsound
  pinned _ hpin := absurd hpin (UInt64.not_lt.mpr UInt64.zero_le)
  chosen _ _ := UInt64.zero_le
  floors _ _ _ _ hplan := nomatch hplan

/-- In every run of careful steps, no controller demotes a shard before its pin expires or below its
floor. -/
theorem careful_run_respects (env : Env) (config : Config) {registry : ShardRegistry} (hsound : registry.Sound) (now_ms : UInt64)
    {done : List TierEvent} {e : TierEvent} {s s' : Tiering}
    (hmeets : Meets (step env config) (Careful config) (start registry now_ms) (done ++ [e]))
    (hrun : run_events (step env config) (start registry now_ms) done = some s) (hstep : step env config s e = some s') :
    Respected config s s' e := by
  have hboth : ∀ (done : List TierEvent) (s₀ : Tiering), Inv config s₀ → Meets (step env config) (Careful config) s₀ (done ++ [e]) →
      run_events (step env config) s₀ done = some s → Inv config s ∧ Careful config s e := by
    intro done
    induction done with
    | nil =>
      intro s₀ hinv hmeets hrun
      cases hrun
      exact ⟨hinv, hmeets.1⟩
    | cons first done ih =>
      intro s₀ hinv hmeets hrun
      obtain ⟨mid, hmid, hrest⟩ := run_events_cons hrun
      exact ih mid (hinv.step hmeets.1 hmid).1 (hmeets.2 mid hmid) hrest
  obtain ⟨hinv, hcareful⟩ := hboth done _ (.start hsound now_ms) hmeets hrun
  exact (hinv.step hcareful hstep).2

/-- Thresholds that are past at once. -/
def no_patience : TierThresholds := ⟨0, 0, 0⟩

/-- One Warm drive. -/
def one_drive : ShardRegistry := ShardRegistry.new.add ShardRegistry.empty_body

theorem sound_one_drive : one_drive.Sound :=
  @ShardRegistry.Sound.after sample_env _ ShardRegistry.sound_new (.add ShardRegistry.empty_body) fun _ hmem => nomatch hmem

/-- A drive that is not to leave Parked. -/
def floored : Config := ⟨[(['G'], some .parked)]⟩

/-- The drive is pinned and outlasts an idle tick; the pin expires and the journal swaps a body in. -/
def pin_expires : List TierEvent :=
  [.preload 'G' ShardRegistry.empty_body 100, .idle_detect fun _ => no_patience, .idle_apply, .clock 200,
    .journal_apply 'G' ShardRegistry.empty_body, .idle_detect fun _ => no_patience]

/-- The next idle tick parks it, down to its floor. -/
theorem careful_run_respects_pin_and_floor : ∃ s s', run_events (step sample_env floored) (start one_drive 1) pin_expires = some s ∧
    step sample_env floored s .idle_apply = some s' ∧ s.promised 'G' = 100 ∧
    (s.registry.shard_of 'G').map ShardEntry.state = some .warm ∧ (s'.registry.shard_of 'G').map ShardEntry.state = some .parked ∧
    Respected floored s s' .idle_apply := by
  refine ⟨_, _, rfl, rfl, rfl, rfl, rfl, ?_⟩
  refine @careful_run_respects sample_env floored one_drive sound_one_drive 1 pin_expires .idle_apply _ _ ?_ rfl rfl
  refine .cons ?_ rfl (.cons trivial rfl (.cons trivial rfl (.cons trivial rfl ?_)))
  · rintro (hpick | ⟨_, _, hplan, -⟩)
    · cases hpick
    · cases hplan
  · exact .cons (show (100 : UInt64) ≤ 200 by decide) rfl (.cons trivial rfl (.cons trivial rfl trivial))

/-- A journal apply swaps in an unpinned shard, which the cascade then demotes though it is pinned;
and it demotes a drive that is never to leave Warm. -/
theorem cascade_demotes_pinned_and_floored :
    (∃ s s', run_events (step sample_env {}) (start one_drive 1)
        [.preload 'G' ShardRegistry.empty_body 100, .journal_apply 'G' ShardRegistry.empty_body, .cascade_detect] = some s ∧
      step sample_env {} s .cascade_apply = some s' ∧ ¬ Respected {} s s' .cascade_apply) ∧
    ∃ s s', run_events (step sample_env ⟨[(['G'], some .warm)]⟩) (start one_drive 1) [.cascade_detect] = some s ∧
      step sample_env ⟨[(['G'], some .warm)]⟩ s .cascade_apply = some s' ∧
      ¬ Respected ⟨[(['G'], some .warm)]⟩ s s' .cascade_apply := by
  constructor
  · refine ⟨_, _, rfl, rfl, fun h => ?_⟩
    exact absurd (h 'G' _ _ rfl rfl (by decide)).1 (by decide)
  · refine ⟨_, _, rfl, rfl, fun h => ?_⟩
    exact absurd ((h 'G' _ _ rfl rfl (by decide)).2 .warm rfl) (by decide)

end Tiering

end run

section refines

/-- A call for the tier or the body of one drive. -/
inductive TierCall where
  | demote (target : Tier)
  | promote (body : Body)
  | promote_to_hot (body : Body)
  | replace_warm_body (body : Body)

namespace TierCall

def op (letter : Char) : TierCall → RegistryOp
  | demote target => .demote letter target.state
  | promote body => .promote letter body.index
  | promote_to_hot body => .promote_to_hot letter body.index
  | replace_warm_body body => .replace_warm_body letter body.index

/-- What the call makes of the shard, `none` when it fails. -/
def moves (env : Env) (shard : Shard) : TierCall → Option Shard
  | demote target => demote_letter env shard target
  | promote body => promote_letter shard body
  | promote_to_hot body => promote_letter_to_hot shard body
  | replace_warm_body body => daemon.replace_warm_body shard body

def apply (env : Env) (shard : Shard) (call : TierCall) : Shard := (call.moves env shard).getD shard

end TierCall

/-- The calls for a drive, in order, among calls for others. -/
inductive Interleaved (letter : Char) : List TierCall → List RegistryOp → Prop where
  | nil : Interleaved letter [] []
  | own {calls : List TierCall} {ops : List RegistryOp} (call : TierCall) (h : Interleaved letter calls ops) :
      Interleaved letter (call :: calls) (call.op letter :: ops)
  | other {calls : List TierCall} {ops : List RegistryOp} {op : RegistryOp} (hop : letter ∉ op.letters)
      (h : Interleaved letter calls ops) : Interleaved letter calls (op :: ops)

namespace ShardRegistry

variable {env : Env} {reg : ShardRegistry} {letter : Char}

theorem shard_of_eq : reg.shard_of letter = reg.shards.find? (·.drive == letter) := by
  conv_rhs => rw [← List.zipIdx_map_fst 0 reg.shards, List.find?_map]
  rfl

theorem shard_of_other {op : RegistryOp} (hop : letter ∉ op.letters) : (reg.after env op).shard_of letter = reg.shard_of letter := by
  have hfilter : ∀ shards : List ShardEntry,
      shards.find? (·.drive == letter) = (shards.filter (·.drive ∉ op.letters)).find? (·.drive == letter) := by
    intro shards
    rw [List.find?_filter]
    congr 1
    funext shard
    by_cases heq : shard.drive = letter <;> simp [heq, hop]
  rw [shard_of_eq, shard_of_eq, hfilter, (frame op).others, ← hfilter]

theorem shard_of_swap {old new_entry : ShardEntry} {pos : Nat} (h : reg.find letter = some (old, pos))
    (hnew : new_entry.drive = letter) : (reg.swap pos new_entry).shard_of letter = some new_entry := by
  rw [find, List.find?_eq_some_iff_getElem] at h
  obtain ⟨-, i, hi, hget, hbefore⟩ := h
  rw [List.getElem_zipIdx, Nat.zero_add] at hget
  cases hget
  rw [List.length_zipIdx] at hi
  rw [shard_of_eq, swap, from_shards, List.find?_eq_some_iff_getElem]
  refine ⟨beq_iff_eq.mpr hnew, pos, by rwa [List.length_set], List.getElem_set_self _, fun j hj => ?_⟩
  have hskip := hbefore j hj
  rw [List.getElem_zipIdx] at hskip
  rwa [List.getElem_set_ne (Nat.ne_of_gt hj)]

/-- A call for the drive makes of its shard what it makes of the one that the journal loop knows. -/
theorem shard_of_own (call : TierCall) {shard : Shard} {stats : DriveStats}
    (h : reg.shard_of letter = some (shard.entry letter stats)) :
    ∃ stats', (reg.after env (call.op letter)).shard_of letter = some ((call.apply env shard).entry letter stats') := by
  obtain ⟨⟨old, pos⟩, hfind, rfl⟩ := Option.map_eq_some_iff.mp h
  have hcall : ∃ stats', (call.op letter).call env reg =
      (call.moves env shard).map fun shard' => reg.swap pos (shard'.entry letter stats') := by
    cases call with
    | demote target => exact ⟨stats, demote_entry env hfind target⟩
    | promote body => exact ⟨stats, promote_entry hfind body⟩
    | promote_to_hot body => exact promote_to_hot_entry hfind body
    | replace_warm_body body => exact ⟨stats, replace_warm_entry hfind body⟩
  obtain ⟨stats', hcall⟩ := hcall
  rw [after, hcall, TierCall.apply]
  cases call.moves env shard with
  | none => exact ⟨stats, h⟩
  | some shard' => exact ⟨stats', shard_of_swap hfind (by cases shard' <;> rfl)⟩

/-- However the calls for other drives come between, a drive's shard goes through its own calls as the
journal loop's shard does. -/
theorem shard_of_interleaved {calls : List TierCall} {ops : List RegistryOp} (hops : Interleaved letter calls ops)
    {shard : Shard} {stats : DriveStats} (h : reg.shard_of letter = some (shard.entry letter stats)) :
    ∃ stats', (ops.foldl (after env) reg).shard_of letter =
      some ((calls.foldl (TierCall.apply env) shard).entry letter stats') := by
  induction hops generalizing reg shard stats with
  | nil => exact ⟨stats, h⟩
  | own call _ ih =>
    obtain ⟨stats', hown⟩ := shard_of_own call h
    exact ih hown
  | other hop _ ih => exact ih ((shard_of_other hop).trans h)

end ShardRegistry

end refines

end uffs.daemon
