import Uffs.Daemon.State

open uffs.bloom uffs.compact uffs.compact_cache

namespace uffs.daemon

/-! The shards of all drives and the index over those that have a body. -/

inductive ShardState where
  | unknown
  | cold
  | parked
  | warm
  | hot
  | evicting
deriving DecidableEq

/-- Counters of a drive that a tier change reads or writes; they outlive it. -/
structure DriveStats where
  last_query_at_ms : UInt64 := 0
  promotions_total : UInt64 := 0
deriving DecidableEq

def DriveStats.record_cold_to_hot_promote (self : DriveStats) : DriveStats :=
  { self with promotions_total := self.promotions_total + 1 }

structure ShardEntry where
  drive : Char
  state : ShardState
  stats : DriveStats
  body : Option DriveCompactIndex
  parked_body : Option ParkedBody
  pin_until_ms : UInt64 := 0

namespace ShardEntry

def new_warm_with_stats (drive : Char) (body : DriveCompactIndex) (stats : DriveStats) : ShardEntry where
  drive := drive
  state := .warm
  stats := stats
  body := some body
  parked_body := none

def new_warm (drive : Char) (body : DriveCompactIndex) : ShardEntry := new_warm_with_stats drive body {}

def new_hot_with_stats (drive : Char) (body : DriveCompactIndex) (stats : DriveStats) : ShardEntry where
  drive := drive
  state := .hot
  stats := stats
  body := some body
  parked_body := none

def new_parked (drive : Char) (stats : DriveStats) (parked_body : ParkedBody) : ShardEntry where
  drive := drive
  state := .parked
  stats := stats
  body := none
  parked_body := some parked_body

def new_cold (drive : Char) (stats : DriveStats) : ShardEntry where
  drive := drive
  state := .cold
  stats := stats
  body := none
  parked_body := none

/-- The tiers whose bodies are searched. -/
def resident (self : ShardEntry) : Bool := self.state == .warm || self.state == .hot

end ShardEntry

def is_legal_demote_target (source target : ShardState) : Bool :=
  match source, target with
  | .hot, .parked => true
  | .hot, .cold => true
  | .warm, .parked => true
  | .warm, .cold => true
  | .parked, .cold => true
  | _, _ => false

structure ShardRegistry where
  shards : List ShardEntry := []
  active_index : List DriveCompactIndex := []

namespace ShardRegistry

def new : ShardRegistry := {}

def from_shards (shards : List ShardEntry) : ShardRegistry where
  shards := shards
  active_index := (shards.filter ShardEntry.resident).filterMap ShardEntry.body

def add (self : ShardRegistry) (body : DriveCompactIndex) : ShardRegistry :=
  from_shards (self.shards ++ [.new_warm body.letter body])

/-- The new shard goes by the letter of its body. -/
def replace (self : ShardRegistry) (match_letter : Char) (body : DriveCompactIndex) : ShardRegistry :=
  from_shards ((self.shards.filter fun shard => shard.drive != match_letter) ++ [.new_warm body.letter body])

def remove (self : ShardRegistry) (drive : Char) : ShardRegistry :=
  from_shards (self.shards.filter fun shard => shard.drive != drive)

/-- First shard of a letter, with its place. -/
def find (self : ShardRegistry) (letter : Char) : Option (ShardEntry × Nat) :=
  self.shards.zipIdx.find? fun (shard, _) => shard.drive == letter

/-- One shard put in place of another. -/
def swap (self : ShardRegistry) (pos : Nat) (new_entry : ShardEntry) : ShardRegistry :=
  from_shards (self.shards.set pos new_entry)

def demote_letter (env : Env) (self : ShardRegistry) (letter : Char) (target : ShardState) : Option ShardRegistry := do
  let (old, pos) ← self.find letter
  if is_legal_demote_target old.state target then
    let new_entry ← (match target with
      | .parked => old.body.map fun body => .new_parked old.drive old.stats (to_parked_body env body)
      | .cold => some (.new_cold old.drive old.stats)
      | _ => none)
    some (self.swap pos new_entry)
  else none

def promote_letter (self : ShardRegistry) (letter : Char) (body : DriveCompactIndex) : Option ShardRegistry := do
  let (old, pos) ← self.find letter
  if old.state = .parked ∨ old.state = .cold then some (self.swap pos (.new_warm_with_stats old.drive body old.stats)) else none

def promote_letter_to_hot (self : ShardRegistry) (letter : Char) (body : DriveCompactIndex) : Option ShardRegistry := do
  let (old, pos) ← self.find letter
  if old.state = .parked ∨ old.state = .cold ∨ old.state = .warm then
    -- only a promotion that reads the encrypted cache again is counted
    let stats := if old.state = .cold then old.stats.record_cold_to_hot_promote else old.stats
    some (self.swap pos (.new_hot_with_stats old.drive body stats))
  else none

/-- A Hot shard becomes Warm, and the new shard is not pinned. -/
def replace_warm_body (self : ShardRegistry) (letter : Char) (body : DriveCompactIndex) : Option ShardRegistry := do
  let (old, pos) ← self.find letter
  if old.state = .warm ∨ old.state = .hot then some (self.swap pos (.new_warm_with_stats old.drive body old.stats)) else none

end ShardRegistry

inductive RegistryOp where
  | add (body : DriveCompactIndex)
  | replace (match_letter : Char) (body : DriveCompactIndex)
  | remove (drive : Char)
  | demote (letter : Char) (target : ShardState)
  | promote (letter : Char) (body : DriveCompactIndex)
  | promote_to_hot (letter : Char) (body : DriveCompactIndex)
  | replace_warm_body (letter : Char) (body : DriveCompactIndex)

namespace RegistryOp

/-- The letters a call is for; only `replace` can have two. -/
def letters : RegistryOp → List Char
  | add body => [body.letter]
  | replace match_letter body => [match_letter, body.letter]
  | remove drive => [drive]
  | demote letter _ => [letter]
  | promote letter _ => [letter]
  | promote_to_hot letter _ => [letter]
  | replace_warm_body letter _ => [letter]

/-- What a call gives back, `none` when it fails. -/
def call (env : Env) (reg : ShardRegistry) : RegistryOp → Option ShardRegistry
  | add body => some (reg.add body)
  | replace match_letter body => some (reg.replace match_letter body)
  | remove drive => some (reg.remove drive)
  | demote letter target => reg.demote_letter env letter target
  | promote letter body => reg.promote_letter letter body
  | promote_to_hot letter body => reg.promote_letter_to_hot letter body
  | replace_warm_body letter body => reg.replace_warm_body letter body

end RegistryOp

namespace ShardRegistry

/-- The registry that is installed after a call. -/
def after (env : Env) (self : ShardRegistry) (op : RegistryOp) : ShardRegistry := (op.call env self).getD self

/-- The registry after a sequence of calls. -/
def run (env : Env) (ops : List RegistryOp) : ShardRegistry := ops.foldl (after env) new

/-- What holds of a registry between two calls. -/
structure Sound (reg : ShardRegistry) : Prop where
  unique : (reg.shards.map ShardEntry.drive).Nodup
  active : reg.active_index.map some = (reg.shards.filter ShardEntry.resident).map ShardEntry.body
  body : ∀ shard ∈ reg.shards, shard.body.isSome = shard.resident
  parked : ∀ shard ∈ reg.shards, shard.parked_body.isSome = (shard.state == .parked)

/-- What a call leaves alone. -/
structure Frame (env : Env) (reg : ShardRegistry) (op : RegistryOp) : Prop where
  failed : op.call env reg = none → reg.after env op = reg
  others : (reg.after env op).shards.filter (·.drive ∉ op.letters) = reg.shards.filter (·.drive ∉ op.letters)

end ShardRegistry

/-- A body for which there is no shard yet, or whose shard is the one that goes. -/
def RegistryOp.Fresh (reg : ShardRegistry) : RegistryOp → Prop
  | add body => ∀ shard ∈ reg.shards, shard.drive ≠ body.letter
  | replace match_letter body => match_letter = body.letter ∨ ∀ shard ∈ reg.shards, shard.drive ≠ body.letter
  | _ => True

/-- The body a tier has, and the filters. -/
structure ShardEntry.Coherent (shard : ShardEntry) : Prop where
  body : shard.body.isSome = shard.resident
  parked : shard.parked_body.isSome = (shard.state == .parked)

namespace ShardEntry

variable (drive : Char) (stats : DriveStats) (body : DriveCompactIndex)

theorem coherent_warm : (new_warm_with_stats drive body stats).Coherent := ⟨rfl, rfl⟩

theorem coherent_hot : (new_hot_with_stats drive body stats).Coherent := ⟨rfl, rfl⟩

theorem coherent_parked (parked_body : ParkedBody) : (new_parked drive stats parked_body).Coherent := ⟨rfl, rfl⟩

theorem coherent_cold : (new_cold drive stats).Coherent := ⟨rfl, rfl⟩

end ShardEntry

namespace ShardRegistry

variable {env : Env} {reg : ShardRegistry} {letter : Char} {next : ShardRegistry} {body : DriveCompactIndex}

theorem find_some {old : ShardEntry} {pos : Nat} (h : reg.find letter = some (old, pos)) :
    reg.shards[pos]? = some old ∧ old.drive = letter := by
  have hmem := List.mem_of_find?_eq_some h
  have hdrive := List.find?_some h
  exact ⟨List.mem_zipIdx_iff_getElem?.mp hmem, beq_iff_eq.mp hdrive⟩

/-- A call that gives something has found the shard of its drive. -/
theorem at_find {β : Type} {f : ShardEntry × Nat → Option β} {result : β} (h : (reg.find letter).bind f = some result) :
    ∃ old pos, reg.shards[pos]? = some old ∧ old.drive = letter ∧ f (old, pos) = some result := by
  obtain ⟨⟨old, pos⟩, hfind, hrest⟩ := Option.bind_eq_some_iff.mp h
  exact ⟨old, pos, (find_some hfind).1, (find_some hfind).2, hrest⟩

/-- A call puts a coherent shard of the same drive in the place of an old one. -/
structure Swapped (reg next : ShardRegistry) (letter : Char) : Prop where
  swapped : ∃ old pos new_entry, reg.shards[pos]? = some old ∧ old.drive = letter ∧ new_entry.drive = letter ∧
    new_entry.Coherent ∧ next = reg.swap pos new_entry

theorem demote_swapped {target : ShardState} (h : reg.demote_letter env letter target = some next) : Swapped reg next letter := by
  obtain ⟨old, pos, hget, hdrive, hrest⟩ := at_find h
  dsimp only at hrest
  split at hrest
  · obtain ⟨new_entry, hnew, hnext⟩ := Option.bind_eq_some_iff.mp hrest
    have hentry : new_entry.drive = letter ∧ new_entry.Coherent := by
      split at hnew
      · obtain ⟨body, -, rfl⟩ := Option.map_eq_some_iff.mp hnew
        exact ⟨hdrive, ShardEntry.coherent_parked _ _ _⟩
      · cases hnew
        exact ⟨hdrive, ShardEntry.coherent_cold _ _⟩
      · cases hnew
    exact ⟨old, pos, new_entry, hget, hdrive, hentry.1, hentry.2, (Option.some.inj hnext).symm⟩
  · cases hrest

theorem promote_swapped (h : reg.promote_letter letter body = some next) : Swapped reg next letter := by
  obtain ⟨old, pos, hget, hdrive, hrest⟩ := at_find h
  dsimp only at hrest
  split at hrest
  · exact ⟨old, pos, .new_warm_with_stats old.drive body old.stats, hget, hdrive, hdrive, ShardEntry.coherent_warm .., (Option.some.inj hrest).symm⟩
  · cases hrest

theorem promote_to_hot_swapped (h : reg.promote_letter_to_hot letter body = some next) : Swapped reg next letter := by
  obtain ⟨old, pos, hget, hdrive, hrest⟩ := at_find h
  dsimp only at hrest
  split at hrest
  · exact ⟨old, pos, .new_hot_with_stats old.drive body _, hget, hdrive, hdrive, ShardEntry.coherent_hot .., (Option.some.inj hrest).symm⟩
  · cases hrest

theorem replace_warm_swapped (h : reg.replace_warm_body letter body = some next) : Swapped reg next letter := by
  obtain ⟨old, pos, hget, hdrive, hrest⟩ := at_find h
  dsimp only at hrest
  split at hrest
  · exact ⟨old, pos, .new_warm_with_stats old.drive body old.stats, hget, hdrive, hdrive, ShardEntry.coherent_warm .., (Option.some.inj hrest).symm⟩
  · cases hrest

/-- What a registry is made of decides whether it is sound. -/
theorem sound_from_shards {shards : List ShardEntry} (hunique : (shards.map ShardEntry.drive).Nodup)
    (hcoherent : ∀ shard ∈ shards, shard.Coherent) : (from_shards shards).Sound where
  unique := hunique
  active := by
    have hbody : ∀ shard ∈ shards.filter ShardEntry.resident, shard.body.isSome = true := fun shard hmem => by
      obtain ⟨hmem, hresident⟩ := List.mem_filter.mp hmem
      exact (hcoherent shard hmem).body.trans hresident
    rw [from_shards]
    generalize shards.filter ShardEntry.resident = active at hbody
    induction active with
    | nil => rfl
    | cons shard active ih =>
      obtain ⟨body, hsome⟩ := Option.isSome_iff_exists.mp (hbody shard List.mem_cons_self)
      rw [List.filterMap_cons, hsome, List.map_cons, List.map_cons, hsome, ih fun shard hmem => hbody shard (List.mem_cons_of_mem _ hmem)]
  body shard hmem := (hcoherent shard hmem).body
  parked shard hmem := (hcoherent shard hmem).parked

theorem Sound.coherent (h : reg.Sound) : ∀ shard ∈ reg.shards, shard.Coherent := fun shard hmem =>
  ⟨h.body shard hmem, h.parked shard hmem⟩

theorem Sound.swapped (h : reg.Sound) (hswap : Swapped reg next letter) : next.Sound := by
  obtain ⟨old, pos, new_entry, hget, hold, hnew, hcoherent, rfl⟩ := hswap.swapped
  refine sound_from_shards ?_ fun shard hmem => ?_
  · have hsame : (reg.shards.set pos new_entry).map ShardEntry.drive = reg.shards.map ShardEntry.drive := by
      refine List.ext_getElem? fun i => ?_
      rw [List.getElem?_map, List.getElem?_map, List.getElem?_set]
      split
      next heq =>
        rw [← heq, if_pos (List.getElem?_eq_some_iff.mp hget).1, hget, Option.map_some, Option.map_some, hnew, hold]
      next => rfl
    rw [hsame]
    exact h.unique
  · rcases List.mem_or_eq_of_mem_set hmem with hmem | rfl
    · exact h.coherent shard hmem
    · exact hcoherent

theorem others_swapped (hswap : Swapped reg next letter) :
    next.shards.filter (·.drive ∉ [letter]) = reg.shards.filter (·.drive ∉ [letter]) := by
  obtain ⟨old, pos, new_entry, hget, hold, hnew, -, rfl⟩ := hswap.swapped
  rw [swap, from_shards]
  clear hswap
  generalize reg.shards = shards at hget
  induction shards generalizing pos with
  | nil => cases hget
  | cons shard shards ih =>
    cases pos with
    | zero =>
      cases hget
      rw [List.set_cons_zero, List.filter_cons_of_neg (by simp [hnew]), List.filter_cons_of_neg (by simp [hold])]
    | succ pos => rw [List.set_cons_succ, List.filter_cons, List.filter_cons, ih pos hget]

/-- Every call that does not add a second shard keeps the registry sound. -/
theorem Sound.after (h : reg.Sound) {op : RegistryOp} (hfresh : op.Fresh reg) : (reg.after env op).Sound := by
  have hkept : ∀ letter, ((reg.shards.filter fun shard => shard.drive != letter).map ShardEntry.drive).Nodup :=
    fun letter => h.unique.sublist (List.filter_sublist.map _)
  have hpush : ∀ (kept : List ShardEntry) (body : DriveCompactIndex), (kept.map ShardEntry.drive).Nodup →
      (∀ shard ∈ kept, shard ∈ reg.shards ∧ shard.drive ≠ body.letter) →
      (from_shards (kept ++ [.new_warm body.letter body])).Sound := by
    intro kept body hunique hmem
    refine sound_from_shards ?_ fun shard hshard => ?_
    · rw [List.map_append, List.nodup_append]
      refine ⟨hunique, List.nodup_singleton _, fun drive hdrive other hother => ?_⟩
      obtain ⟨shard, hshard, rfl⟩ := List.mem_map.mp hdrive
      rw [List.mem_singleton.mp hother]
      exact (hmem shard hshard).2
    · cases List.mem_append.mp hshard with
      | inl hshard => exact h.coherent shard (hmem shard hshard).1
      | inr hshard =>
        rw [List.mem_singleton.mp hshard]
        exact ShardEntry.coherent_warm _ _ _
  have hcall : ∀ {next}, op.call env reg = some next → next.Sound := by
    intro next hnext
    cases op with
    | add body =>
      cases hnext
      exact hpush reg.shards body h.unique fun shard hmem => ⟨hmem, hfresh shard hmem⟩
    | replace match_letter body =>
      cases hnext
      refine hpush _ body (hkept match_letter) fun shard hmem => ?_
      obtain ⟨hmem, hne⟩ := List.mem_filter.mp hmem
      refine ⟨hmem, ?_⟩
      cases hfresh with
      | inl heq => exact heq ▸ bne_iff_ne.mp hne
      | inr hnone => exact hnone shard hmem
    | remove drive =>
      cases hnext
      exact sound_from_shards (hkept drive) fun shard hmem => h.coherent shard (List.mem_filter.mp hmem).1
    | demote letter target => exact h.swapped (demote_swapped hnext)
    | promote letter body => exact h.swapped (promote_swapped hnext)
    | promote_to_hot letter body => exact h.swapped (promote_to_hot_swapped hnext)
    | replace_warm_body letter body => exact h.swapped (replace_warm_swapped hnext)
  rw [ShardRegistry.after]
  cases hnext : op.call env reg with
  | none => exact h
  | some next => exact hcall hnext

/-- No call touches the shard of another letter, and a failed one touches nothing. -/
theorem frame (op : RegistryOp) : Frame env reg op := by
  have hfailed : op.call env reg = none → reg.after env op = reg := fun hnone => by rw [after, hnone, Option.getD_none]
  refine ⟨hfailed, ?_⟩
  cases hnext : op.call env reg with
  | none => rw [hfailed hnext]
  | some next =>
    have hafter : reg.after env op = next := by rw [after, hnext, Option.getD_some]
    rw [hafter]
    cases op with
    | add body =>
      cases hnext
      simp [add, from_shards, RegistryOp.letters, ShardEntry.new_warm, ShardEntry.new_warm_with_stats]
    | replace match_letter body =>
      cases hnext
      simp only [replace, from_shards, RegistryOp.letters, ShardEntry.new_warm, ShardEntry.new_warm_with_stats,
        List.filter_append, List.filter_filter]
      simp
      exact List.filter_congr fun shard _ => by simp; tauto
    | remove drive =>
      cases hnext
      simp only [remove, from_shards, RegistryOp.letters, List.filter_filter]
      exact List.filter_congr fun shard _ => by simp
    | demote letter target => exact others_swapped (demote_swapped hnext)
    | promote letter body => exact others_swapped (promote_swapped hnext)
    | promote_to_hot letter body => exact others_swapped (promote_to_hot_swapped hnext)
    | replace_warm_body letter body => exact others_swapped (replace_warm_swapped hnext)

/-- A second shard of a letter is a duplicate. -/
theorem fresh_of_sound {op : RegistryOp} (h : (reg.after env op).Sound) : op.Fresh reg := by
  have hpush : ∀ (kept : List ShardEntry) (body : DriveCompactIndex),
      (from_shards (kept ++ [.new_warm body.letter body])).Sound → ∀ shard ∈ kept, shard.drive ≠ body.letter := by
    intro kept body hsound shard hmem
    have hunique := hsound.unique
    rw [from_shards, List.map_append, List.nodup_append] at hunique
    exact hunique.2.2 _ (List.mem_map_of_mem hmem) _ List.mem_cons_self
  cases op with
  | add body => exact hpush _ _ h
  | replace match_letter body =>
    by_cases heq : match_letter = body.letter
    · exact .inl heq
    · refine .inr fun shard hmem hdrive => ?_
      refine hpush _ _ h shard (List.mem_filter.mpr ⟨hmem, bne_iff_ne.mpr ?_⟩) hdrive
      exact hdrive ▸ Ne.symm heq
  | _ => trivial

theorem sound_new : new.Sound := sound_from_shards List.nodup_nil fun _ hmem => nomatch hmem

theorem sound_run {ops : List RegistryOp}
    (hfresh : ∀ done op rest, ops = done ++ op :: rest → op.Fresh (run env done)) : (run env ops).Sound := by
  induction ops using List.reverseRecOn with
  | nil => exact sound_new
  | append_singleton ops op ih =>
    rw [run, List.foldl_append]
    refine (ih fun done op' rest heq => ?_).after (hfresh ops op [] rfl)
    exact hfresh done op' (rest ++ [op]) (by rw [heq, List.append_assoc, List.cons_append])

/-- In every state of a run the registry is sound and every call keeps to its letters, exactly if no
shard is added for a letter that still has one. -/
theorem run_sound_iff (env : Env) (ops : List RegistryOp) :
    (∀ done rest, ops = done ++ rest →
      (run env done).Sound ∧ ∀ op rest', rest = op :: rest' → Frame env (run env done) op) ↔
      ∀ done op rest, ops = done ++ op :: rest → op.Fresh (run env done) := by
  constructor
  · intro h done op rest heq
    have hsound := (h (done ++ [op]) rest (by rw [heq, List.append_assoc]; rfl)).1
    rw [run, List.foldl_append] at hsound
    exact fresh_of_sound hsound
  · intro hfresh done rest heq
    refine ⟨sound_run fun done' op rest' heq' => ?_, fun op _ _ => frame op⟩
    exact hfresh done' op (rest' ++ rest) (by rw [heq, heq', List.append_assoc, List.cons_append])

/-- The body of a drive without files. -/
def empty_body : DriveCompactIndex := build_compact_index sample_env 'G' ⟨[]⟩ {}

/-- The shard of a drive is Parked when its body is added once more, as by a hot-load that looks for
the letter among the active bodies only. -/
theorem second_add_duplicates :
    ¬ (run sample_env [.add empty_body, .demote 'G' .parked, .add empty_body]).Sound := by
  intro h
  have hdrives : (run sample_env [.add empty_body, .demote 'G' .parked, .add empty_body]).shards.map ShardEntry.drive = ['G', 'G'] := rfl
  have hunique := h.unique
  rw [hdrives] at hunique
  exact absurd hunique (by decide)

end ShardRegistry

section entry

/-! One drive's shard, as the journal loop knows it, is an entry of the registry. -/

def Tier.state : Tier → ShardState
  | .parked => .parked
  | .cold => .cold

def Shard.entry (letter : Char) (stats : DriveStats) : Shard → ShardEntry
  | .warm body => .new_warm_with_stats letter body.index stats
  | .hot body => .new_hot_with_stats letter body.index stats
  | .parked parked_body => .new_parked letter stats parked_body
  | .cold => .new_cold letter stats

variable {reg : ShardRegistry} {letter : Char} {stats : DriveStats} {shard : Shard} {pos : Nat}

theorem demote_entry (env : Env) (h : reg.find letter = some (shard.entry letter stats, pos)) (target : Tier) :
    reg.demote_letter env letter target.state =
      (demote_letter env shard target).map fun shard => reg.swap pos (shard.entry letter stats) := by
  rw [ShardRegistry.demote_letter, h, Option.bind_eq_bind, Option.bind_some]
  cases shard <;> cases target <;> rfl

section

variable (h : reg.find letter = some (shard.entry letter stats, pos)) (body : Body)

include h body

theorem promote_entry :
    reg.promote_letter letter body.index =
      (promote_letter shard body).map fun shard => reg.swap pos (shard.entry letter stats) := by
  rw [ShardRegistry.promote_letter, h, Option.bind_eq_bind, Option.bind_some]
  cases shard <;> rfl

theorem promote_to_hot_entry :
    ∃ stats', reg.promote_letter_to_hot letter body.index =
      (promote_letter_to_hot shard body).map fun shard => reg.swap pos (shard.entry letter stats') := by
  rw [ShardRegistry.promote_letter_to_hot, h, Option.bind_eq_bind, Option.bind_some]
  cases shard with
  | cold => exact ⟨stats.record_cold_to_hot_promote, rfl⟩
  | _ => exact ⟨stats, rfl⟩

theorem replace_warm_entry :
    reg.replace_warm_body letter body.index =
      (replace_warm_body shard body).map fun shard => reg.swap pos (shard.entry letter stats) := by
  rw [ShardRegistry.replace_warm_body, h, Option.bind_eq_bind, Option.bind_some]
  cases shard <;> rfl

end

end entry

end uffs.daemon
