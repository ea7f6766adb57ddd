import Uffs.Daemon.Tiering
import Uffs.Lib.KeyMap

open uffs.lib uffs.bloom uffs.compact uffs.compact_cache

namespace uffs.daemon

/-! The idle tick beside the tier policy it is to carry out. -/

/-- Detect and apply, with nothing in between. -/
def demote_idle_shards (env : Env) (config : Config) (thresholds : Char → TierThresholds) (now_ms : UInt64)
    (reg : ShardRegistry) : ShardRegistry :=
  demote_batch env reg (idle_demotes reg now_ms config thresholds)

section policy

/-- The next tier down the ladder. -/
def ShardState.colder : ShardState → Option ShardState
  | .hot => some .warm
  | .warm => some .parked
  | .parked => some .cold
  | _ => none

/-- How long a shard may be idle in its tier. -/
def TierThresholds.ttl_secs (self : TierThresholds) : ShardState → Option UInt64
  | .hot => some self.hot_to_warm_secs
  | .warm => some self.warm_to_parked_secs
  | .parked => some self.parked_to_cold_secs
  | _ => none

/-- The lowest tier a drive may go to. -/
def min_tier (letter : Char) (config : Config) : ShardState := (min_tier_for_drive letter config).getD .cold

/-- Not pinned, above its lowest tier, and idle for the time of its tier. -/
structure Due (config : Config) (thresholds : TierThresholds) (now_ms : UInt64) (shard : ShardEntry) : Prop where
  unpinned : shard.pin_until_ms.toNat ≤ now_ms.toNat
  above : tier_rank (min_tier shard.drive config) < tier_rank shard.state
  idle : ∃ secs, thresholds.ttl_secs shard.state = some secs ∧
    secs.toNat * 1000 ≤ now_ms.toNat - shard.stats.last_query_at_ms.toNat

/-- A shard that is due is one tier colder afterwards, another one as it was. -/
structure Ticked (config : Config) (thresholds : TierThresholds) (now_ms : UInt64) (before after : ShardEntry) : Prop where
  due : Due config thresholds now_ms before → after.drive = before.drive ∧ before.state.colder = some after.state
  others : ¬Due config thresholds now_ms before → after = before

end policy

section tick

variable {env : Env} {config : Config}

/-- The shard a demotion puts in the place of this one. -/
def ShardEntry.demoted (env : Env) (target : ShardState) (self : ShardEntry) : Option ShardEntry :=
  if is_legal_demote_target self.state target then
    match target with
    | .parked => self.body.map fun body => .new_parked self.drive self.stats (to_parked_body env body)
    | .cold => some (.new_cold self.drive self.stats)
    | _ => none
  else none

theorem demoted_drive {target : ShardState} {shard after : ShardEntry} (h : shard.demoted env target = some after) :
    after.drive = shard.drive := by
  unfold ShardEntry.demoted at h
  split at h
  · split at h
    · obtain ⟨body, -, rfl⟩ := Option.map_eq_some_iff.mp h
      rfl
    · cases h
      rfl
    · cases h
  · cases h

/-- The shards of a letter are replaced where they can be demoted. -/
def demote_shard (env : Env) (letter : Char) (target : ShardState) (shard : ShardEntry) : ShardEntry :=
  if shard.drive = letter then (shard.demoted env target).getD shard else shard

theorem demote_shard_drive (letter : Char) (target : ShardState) (shard : ShardEntry) :
    (demote_shard env letter target shard).drive = shard.drive := by
  unfold demote_shard
  split
  · cases h : shard.demoted env target with
    | none => rfl
    | some after => exact demoted_drive h
  · rfl

theorem map_of_unique {letter : Char} {f : ShardEntry → ShardEntry} :
    ∀ {shards : List ShardEntry} {pos : Nat} {old : ShardEntry}, (shards.map ShardEntry.drive).Nodup →
      shards[pos]? = some old → old.drive = letter →
      (shards.map fun shard => if shard.drive = letter then f shard else shard) = shards.set pos (f old) := by
  intro shards
  induction shards with
  | nil => intro pos old _ hget; cases hget
  | cons head rest ih =>
    intro pos old hunique hget hletter
    obtain ⟨hfresh, hrest⟩ := List.nodup_cons.mp hunique
    cases pos with
    | zero =>
      obtain rfl := Option.some.inj hget
      have hothers : (rest.map fun shard => if shard.drive = letter then f shard else shard) = rest := by
        refine (List.map_congr_left fun shard hshard => ?_).trans (List.map_id rest)
        refine if_neg fun hsame => hfresh ?_
        exact List.mem_map.mpr ⟨shard, hshard, hsame.trans hletter.symm⟩
      rw [List.map_cons, if_pos hletter, hothers, List.set_cons_zero]
    | succ pos =>
      have hne : head.drive ≠ letter := by
        intro hsame
        exact hfresh (List.mem_map.mpr ⟨old, List.mem_of_getElem? hget, hletter.trans hsame.symm⟩)
      rw [List.map_cons, if_neg hne, List.set_cons_succ, ih hrest hget hletter]

theorem demote_letter_shards {reg : ShardRegistry} (hunique : (reg.shards.map ShardEntry.drive).Nodup) (letter : Char)
    (target : ShardState) :
    ((reg.demote_letter env letter target).getD reg).shards = reg.shards.map (demote_shard env letter target) := by
  cases hfind : reg.find letter with
  | none =>
    have hnone : ∀ shard ∈ reg.shards, demote_shard env letter target shard = shard := by
      intro shard hshard
      obtain ⟨pos, hget⟩ := List.mem_iff_getElem?.mp hshard
      refine if_neg fun hsame => ?_
      have hfound := (find_iff hunique).mpr ⟨hget, hsame⟩
      rw [hfind] at hfound
      cases hfound
    rw [ShardRegistry.demote_letter, hfind, (List.map_congr_left hnone).trans (List.map_id' _)]
    rfl
  | some found =>
    obtain ⟨old, pos⟩ := found
    obtain ⟨hget, hdrive⟩ := (find_iff hunique).mp hfind
    have hcall : reg.demote_letter env letter target = (old.demoted env target).map (reg.swap pos) := by
      rw [ShardRegistry.demote_letter, hfind]
      unfold ShardEntry.demoted
      simp only [Option.bind_eq_bind, Option.bind_some]
      split
      · cases target with
        | parked => cases old.body <;> rfl
        | _ => rfl
      · rfl
    have hset : reg.shards.map (demote_shard env letter target) =
        reg.shards.set pos ((old.demoted env target).getD old) := map_of_unique hunique hget hdrive
    rw [hcall, hset]
    cases old.demoted env target with
    | none =>
      obtain ⟨hlt, rfl⟩ := List.getElem?_eq_some_iff.mp hget
      exact (List.set_getElem_self hlt).symm
    | some after => rfl

/-- What a batch makes of a shard: the demotion on the list for its letter. -/
def batch_shard (env : Env) (demotes : List (Char × ShardState)) (shard : ShardEntry) : ShardEntry :=
  match demotes.lookup shard.drive with
  | some target => (shard.demoted env target).getD shard
  | none => shard

variable {reg : ShardRegistry} {shard : ShardEntry}

theorem demote_batch_shards {demotes : List (Char × ShardState)} (hunique : (reg.shards.map ShardEntry.drive).Nodup)
    (hdemotes : NodupKeys demotes) : (demote_batch env reg demotes).shards = reg.shards.map (batch_shard env demotes) := by
  induction demotes generalizing reg with
  | nil => exact (List.map_id' _).symm
  | cons demote rest ih =>
    obtain ⟨letter, target⟩ := demote
    obtain ⟨hfresh, hrest⟩ := List.nodup_cons.mp hdemotes
    have hstep := @demote_letter_shards env reg hunique letter target
    have hunique' : (((reg.demote_letter env letter target).getD reg).shards.map ShardEntry.drive).Nodup := by
      rw [hstep, List.map_map]
      exact (List.map_congr_left fun shard _ => demote_shard_drive letter target shard) ▸ hunique
    rw [demote_batch_cons, ih hunique' hrest, hstep, List.map_map]
    refine List.map_congr_left fun shard _ => ?_
    rw [Function.comp_apply, batch_shard, demote_shard_drive, batch_shard]
    by_cases hsame : shard.drive = letter
    · have hnone : rest.lookup shard.drive = none := by
        cases hlook : rest.lookup shard.drive with
        | none => rfl
        | some other => exact absurd (List.mem_map_of_mem (f := Prod.fst) (mem_of_lookup hlook)) (hsame ▸ hfresh)
      rw [hnone, demote_shard, if_pos hsame, hsame, List.lookup_cons_self]
    · rw [demote_shard, if_neg hsame, lookup_cons_of_ne hsame]

variable {thresholds : Char → TierThresholds} {now_ms : UInt64}

/-- The target of a shard in an idle tick. -/
def idle_target (config : Config) (thresholds : Char → TierThresholds) (now_ms : UInt64) (shard : ShardEntry) :
    Option ShardState :=
  if shard.is_pinned now_ms then none else evaluate_idle_demote shard now_ms config (thresholds shard.drive)

theorem idle_demotes_eq (reg : ShardRegistry) : idle_demotes reg now_ms config thresholds =
    reg.shards.filterMap fun shard => (idle_target config thresholds now_ms shard).map fun target => (shard.drive, target) := by
  rw [idle_demotes]
  induction reg.shards with
  | nil => rfl
  | cons shard rest ih =>
    rw [List.filter_cons, List.filterMap_cons]
    unfold idle_target
    cases hpinned : shard.is_pinned now_ms with
    | true =>
      simp only [Bool.not_true, Bool.false_eq_true, if_false, if_true, Option.map_none]
      exact ih
    | false =>
      simp only [Bool.not_false, if_true, Bool.false_eq_true, if_false, List.filterMap_cons]
      cases (evaluate_idle_demote shard now_ms config (thresholds shard.drive)).map fun target => (shard.drive, target) with
      | none => exact ih
      | some demote => exact congrArg _ ih

theorem idle_demotes_nodup (hunique : (reg.shards.map ShardEntry.drive).Nodup) :
    NodupKeys (idle_demotes reg now_ms config thresholds) := by
  have hsub : ((idle_demotes reg now_ms config thresholds).map Prod.fst).Sublist (reg.shards.map ShardEntry.drive) := by
    rw [idle_demotes_eq]
    induction reg.shards with
    | nil => exact List.Sublist.refl _
    | cons shard rest ih =>
      rw [List.filterMap_cons]
      cases idle_target config thresholds now_ms shard with
      | none => exact ih.cons _
      | some target => exact ih.cons_cons _
  exact hsub.nodup hunique

theorem lookup_idle_demotes (hunique : (reg.shards.map ShardEntry.drive).Nodup) (hshard : shard ∈ reg.shards) :
    (idle_demotes reg now_ms config thresholds).lookup shard.drive = idle_target config thresholds now_ms shard := by
  refine Option.ext fun target => ?_
  rw [(idle_demotes_nodup hunique).lookup_eq_some_iff, idle_demotes_eq, List.mem_filterMap]
  constructor
  · rintro ⟨other, hother, hmap⟩
    obtain ⟨found, hfound, heq⟩ := Option.map_eq_some_iff.mp hmap
    obtain ⟨hdrive, rfl⟩ := Prod.mk.inj heq
    rwa [← List.inj_on_of_nodup_map hunique hother hshard hdrive]
  · intro htarget
    exact ⟨shard, hshard, by rw [htarget]; rfl⟩

/-- What an idle tick makes of a shard. -/
def tick_shard (env : Env) (config : Config) (thresholds : Char → TierThresholds) (now_ms : UInt64) (shard : ShardEntry) :
    ShardEntry :=
  match idle_target config thresholds now_ms shard with
  | some target => (shard.demoted env target).getD shard
  | none => shard

theorem demote_idle_shards_eq (hunique : (reg.shards.map ShardEntry.drive).Nodup) :
    (demote_idle_shards env config thresholds now_ms reg).shards = reg.shards.map (tick_shard env config thresholds now_ms) := by
  rw [demote_idle_shards, demote_batch_shards hunique (idle_demotes_nodup hunique)]
  refine List.map_congr_left fun shard hshard => ?_
  rw [batch_shard, lookup_idle_demotes hunique hshard, tick_shard]

theorem idle_secs_iff (secs now_ms last : UInt64) :
    secs ≤ (if last ≤ now_ms then now_ms - last else 0) / 1000 ↔ secs.toNat * 1000 ≤ now_ms.toNat - last.toNat := by
  rw [UInt64.le_iff_toNat_le, UInt64.toNat_div, show (1000 : UInt64).toNat = 1000 from rfl, Nat.le_div_iff_mul_le (by decide)]
  split
  · next hle => rw [UInt64.toNat_sub_of_le _ _ hle]
  · next hlt =>
    rw [UInt64.le_iff_toNat_le] at hlt
    rw [show (0 : UInt64).toNat = 0 from rfl, Nat.sub_eq_zero_of_le (by omega)]

/-- The policy proposes the next tier down for a shard that was idle for the time of its tier. -/
theorem next_state_eq (state : ShardState) (idle_secs : UInt64) (thresholds : TierThresholds) {proposed : ShardState} :
    next_state_for_idle_with_thresholds state idle_secs thresholds = some proposed ↔
      state.colder = some proposed ∧ ∃ secs, thresholds.ttl_secs state = some secs ∧ secs ≤ idle_secs := by
  cases state <;>
    simp [next_state_for_idle_with_thresholds, ShardState.colder, TierThresholds.ttl_secs, and_comm]

/-- A proposal is at or above the floor exactly when the shard is above it. -/
theorem floor_iff {state proposed : ShardState} (h : state.colder = some proposed) (floor : ShardState) :
    ¬tier_rank proposed < tier_rank floor ↔ tier_rank floor < tier_rank state := by
  have hrank : tier_rank state = tier_rank proposed + 1 := by
    cases state <;> cases h <;> rfl
  omega

theorem cold_lt {state proposed : ShardState} (h : state.colder = some proposed) : tier_rank .cold < tier_rank state := by
  cases state <;> cases h <;> decide

theorem evaluate_iff {times : TierThresholds} {proposed : ShardState} :
    evaluate_idle_demote shard now_ms config times = some proposed ↔
      shard.state.colder = some proposed ∧ tier_rank (min_tier shard.drive config) < tier_rank shard.state ∧
        ∃ secs, times.ttl_secs shard.state = some secs ∧
          secs.toNat * 1000 ≤ now_ms.toNat - shard.stats.last_query_at_ms.toNat := by
  have hnext := fun proposed => @next_state_eq shard.state
    ((if shard.stats.last_query_at_ms ≤ now_ms then now_ms - shard.stats.last_query_at_ms else 0) / 1000) times proposed
  simp only [idle_secs_iff] at hnext
  unfold evaluate_idle_demote min_tier
  dsimp only
  cases hstate : next_state_for_idle_with_thresholds shard.state
      ((if shard.stats.last_query_at_ms ≤ now_ms then now_ms - shard.stats.last_query_at_ms else 0) / 1000) times with
  | none =>
    refine iff_of_false (by rintro ⟨⟩) fun h => ?_
    rw [(hnext proposed).mpr ⟨h.1, h.2.2⟩] at hstate
    cases hstate
  | some found =>
    obtain ⟨hcolder, hidle⟩ := (hnext found).mp hstate
    cases min_tier_for_drive shard.drive config with
    | none =>
      constructor
      · intro h
        exact ⟨Option.some.inj h ▸ hcolder, cold_lt hcolder, hidle⟩
      · intro h
        exact hcolder.symm.trans h.1
    | some floor =>
      simp only [Option.getD_some]
      by_cases hbelow : tier_rank found < tier_rank floor
      · rw [if_pos hbelow]
        exact iff_of_false (by rintro ⟨⟩) fun h => absurd hbelow ((floor_iff hcolder floor).mpr h.2.1)
      · rw [if_neg hbelow]
        constructor
        · intro h
          exact ⟨Option.some.inj h ▸ hcolder, (floor_iff hcolder floor).mp hbelow, hidle⟩
        · intro h
          exact hcolder.symm.trans h.1

theorem idle_target_iff {proposed : ShardState} :
    idle_target config thresholds now_ms shard = some proposed ↔
      Due config (thresholds shard.drive) now_ms shard ∧ shard.state.colder = some proposed := by
  unfold idle_target
  by_cases hpin : shard.is_pinned now_ms = true
  · rw [if_pos hpin]
    refine iff_of_false (by rintro ⟨⟩) fun h => ?_
    have hlt := UInt64.lt_iff_toNat_lt.mp (of_decide_eq_true hpin)
    exact absurd h.1.unpinned (Nat.not_le.mpr hlt)
  · rw [if_neg hpin, evaluate_iff]
    constructor
    · rintro ⟨hcolder, habove, hidle⟩
      exact ⟨⟨Nat.not_lt.mp fun hlt => hpin (decide_eq_true (UInt64.lt_iff_toNat_lt.mpr hlt)), habove, hidle⟩, hcolder⟩
    · rintro ⟨hdue, hcolder⟩
      exact ⟨hcolder, hdue.above, hdue.idle⟩

theorem colder_of_due {times : TierThresholds} (h : Due config times now_ms shard) :
    ∃ proposed, shard.state.colder = some proposed := by
  obtain ⟨secs, hsecs, -⟩ := h.idle
  cases hstate : shard.state <;> rw [hstate] at hsecs <;> first | exact ⟨_, rfl⟩ | cases hsecs

/-- The registry refuses the step from Hot to Warm, and no other one. -/
theorem demoted_colder {shard : ShardEntry} (hbody : shard.body.isSome = shard.resident) {proposed : ShardState}
    (h : shard.state.colder = some proposed) :
    (shard.state ≠ .hot → ∃ after, shard.demoted env proposed = some after ∧ after.state = proposed) ∧
      (shard.state = .hot → shard.demoted env proposed = none) := by
  rw [ShardEntry.resident] at hbody
  unfold ShardEntry.demoted
  cases hstate : shard.state <;> rw [hstate] at h hbody <;> cases h
  · exact ⟨fun _ => ⟨_, rfl, rfl⟩, fun h => by cases h⟩
  · obtain ⟨body, hbody⟩ := Option.isSome_iff_exists.mp hbody
    rw [hbody]
    exact ⟨fun _ => ⟨_, rfl, rfl⟩, fun h => by cases h⟩
  · exact ⟨fun h => absurd rfl h, fun _ => rfl⟩

theorem ticked_iff (hbody : shard.body.isSome = shard.resident) :
    Ticked config (thresholds shard.drive) now_ms shard (tick_shard env config thresholds now_ms shard) ↔
      (Due config (thresholds shard.drive) now_ms shard → shard.state ≠ .hot) := by
  by_cases hdue : Due config (thresholds shard.drive) now_ms shard
  · obtain ⟨proposed, hcolder⟩ := colder_of_due hdue
    obtain ⟨hlegal, hrefused⟩ := @demoted_colder env shard hbody _ hcolder
    have htick : tick_shard env config thresholds now_ms shard = (shard.demoted env proposed).getD shard := by
      rw [tick_shard, idle_target_iff.mpr ⟨hdue, hcolder⟩]
    rw [htick]
    by_cases hhot : shard.state = .hot
    · refine iff_of_false (fun h => ?_) fun h => h hdue hhot
      have hstate := (h.due hdue).2
      rw [hrefused hhot, Option.getD_none, hhot] at hstate
      cases hstate
    · obtain ⟨after, hafter, hstate⟩ := hlegal hhot
      refine iff_of_true ⟨fun _ => ?_, fun h => absurd hdue h⟩ fun _ => hhot
      rw [hafter, Option.getD_some]
      exact ⟨demoted_drive hafter, hcolder.trans (congrArg some hstate.symm)⟩
  · have hnone : idle_target config thresholds now_ms shard = none := by
      cases htarget : idle_target config thresholds now_ms shard with
      | none => rfl
      | some target => exact absurd (idle_target_iff.mp htarget).1 hdue
    rw [tick_shard, hnone]
    exact iff_of_true ⟨fun h => absurd h hdue, fun _ => rfl⟩ fun h => absurd h hdue

end tick

/-- An idle tick does to every shard what the policy says exactly when no Hot shard is due: the policy
takes one to Warm, which the registry does not do. -/
theorem idle_tick_follows_policy_iff (env : Env) (config : Config) (thresholds : Char → TierThresholds) (now_ms : UInt64)
    {reg : ShardRegistry} (hsound : reg.Sound) :
    List.Forall₂ (fun before after => Ticked config (thresholds before.drive) now_ms before after) reg.shards
        (demote_idle_shards env config thresholds now_ms reg).shards ↔
      ∀ shard ∈ reg.shards, Due config (thresholds shard.drive) now_ms shard → shard.state ≠ .hot := by
  rw [demote_idle_shards_eq hsound.unique, List.forall₂_map_right_iff, List.forall₂_same]
  exact forall₂_congr fun shard hshard => ticked_iff (hsound.body shard hshard)

section one_drive

def soak_thresholds : TierThresholds := ⟨60, 300, 86400⟩

/-- The drive is Warm and was idle for an hour. -/
theorem idle_tick_parks :
    (∀ shard ∈ Tiering.one_drive.shards, Due {} soak_thresholds 3600000 shard → shard.state ≠ .hot) ∧
      List.Forall₂ (fun before after => Ticked {} soak_thresholds 3600000 before after) Tiering.one_drive.shards
        (demote_idle_shards sample_env {} (fun _ => soak_thresholds) 3600000 Tiering.one_drive).shards := by
  have hwarm : ∀ shard ∈ Tiering.one_drive.shards, Due {} soak_thresholds 3600000 shard → shard.state ≠ .hot := by
    intro shard hshard _
    rw [List.mem_singleton.mp hshard]
    decide
  exact ⟨hwarm, (idle_tick_follows_policy_iff sample_env {} (fun _ => soak_thresholds) 3600000
    Tiering.sound_one_drive).mpr hwarm⟩

/-- The drive, promoted by a search. -/
def hot_drive : ShardRegistry := (Tiering.one_drive.promote_letter_to_hot 'G' ShardRegistry.empty_body).getD .new

/-- A Hot drive that was idle for an hour stays Hot: the registry refuses the proposed tier. -/
theorem idle_tick_leaves_hot :
    ¬ ∀ (env : Env) (config : Config) (thresholds : Char → TierThresholds) (now_ms : UInt64) (reg : ShardRegistry),
      List.Forall₂ (fun before after => Ticked config (thresholds before.drive) now_ms before after) reg.shards
        (demote_idle_shards env config thresholds now_ms reg).shards := by
  intro hclaim
  have hall := hclaim sample_env {} (fun _ => soak_thresholds) 3600000 hot_drive
  have hdue : Due {} soak_thresholds 3600000 (.new_hot_with_stats 'G' ShardRegistry.empty_body {}) :=
    ⟨by decide, by decide, 60, rfl, by decide⟩
  cases hall with
  | cons hfirst _ =>
    have hcolder := (hfirst.due hdue).2
    exact absurd hcolder (by decide)

end one_drive

end uffs.daemon
