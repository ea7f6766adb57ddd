import Uffs.Daemon.Forget

open uffs.lib uffs.bloom uffs.compact

namespace uffs.daemon

/-! What stays forgotten in any run of careful steps. -/

section registry

variable {env : Env} {reg next : ShardRegistry} {letter drive : Char}

theorem mem_swapped (h : ShardRegistry.Swapped reg next letter) {shard : ShardEntry} (hmem : shard ∈ next.shards) :
    shard ∈ reg.shards ∨ shard.drive = letter ∧ ∃ old ∈ reg.shards, old.drive = letter := by
  obtain ⟨old, pos, new_entry, hget, hold, hnew, _, rfl⟩ := h.swapped
  rcases List.mem_or_eq_of_mem_set hmem with hkept | rfl
  · exact .inl hkept
  · exact .inr ⟨hnew, old, List.mem_of_getElem? hget, hold⟩

/-- A drive without a shard has one afterwards only when it is brought in. -/
theorem absent_after {op : RegistryOp} (habsent : ∀ shard ∈ reg.shards, shard.drive ≠ drive)
    (hadd : ∀ body, op = .add body → body.letter ≠ drive)
    (hreplace : ∀ match_letter body, op = .replace match_letter body → body.letter ≠ drive) :
    ∀ shard ∈ (reg.after env op).shards, shard.drive ≠ drive := by
  have hswapped : ∀ {next letter}, ShardRegistry.Swapped reg next letter → ∀ shard ∈ next.shards, shard.drive ≠ drive := by
    intro next letter h shard hmem
    rcases mem_swapped h hmem with hkept | ⟨hdrive, old, hold, hletter⟩
    · exact habsent shard hkept
    · rw [hdrive, ← hletter]
      exact habsent old hold
  have hpush : ∀ {kept : List ShardEntry} {body : DriveCompactIndex}, (∀ shard ∈ kept, shard ∈ reg.shards) → body.letter ≠ drive →
      ∀ shard ∈ kept ++ [ShardEntry.new_warm body.letter body], shard.drive ≠ drive := by
    intro kept body hkept hbody shard hmem
    rcases List.mem_append.mp hmem with hmem | hmem
    · exact habsent shard (hkept shard hmem)
    · rw [List.mem_singleton.mp hmem]
      exact hbody
  rw [ShardRegistry.after]
  cases hnext : op.call env reg with
  | none => exact habsent
  | some next =>
    rw [Option.getD_some]
    cases op with
    | add body =>
      cases hnext
      exact hpush (fun _ hmem => hmem) (hadd body rfl)
    | replace match_letter body =>
      cases hnext
      exact hpush (fun _ hmem => (List.mem_filter.mp hmem).1) (hreplace match_letter body rfl)
    | remove letter =>
      cases hnext
      exact fun shard hmem => habsent shard (List.mem_filter.mp hmem).1
    | demote letter target => exact hswapped (ShardRegistry.demote_swapped hnext)
    | promote letter body => exact hswapped (ShardRegistry.promote_swapped hnext)
    | promote_to_hot letter body => exact hswapped (ShardRegistry.promote_to_hot_swapped hnext)
    | replace_warm_body letter body => exact hswapped (ShardRegistry.replace_warm_swapped hnext)

/-- All shards of the drive are Cold. -/
def AllCold (reg : ShardRegistry) (drive : Char) : Prop := ∀ shard ∈ reg.shards, shard.drive = drive → shard.state = .cold

/-- A call for other letters leaves a drive's shards alone. -/
theorem mem_after_iff {op : RegistryOp} (h : drive ∉ op.letters) {shard : ShardEntry} (hdrive : shard.drive = drive) :
    shard ∈ (reg.after env op).shards ↔ shard ∈ reg.shards := by
  have hframe := (ShardRegistry.frame op : ShardRegistry.Frame env reg op).others
  have hkeep : ∀ {list : List ShardEntry}, shard ∈ list.filter (·.drive ∉ op.letters) ↔ shard ∈ list := by
    intro list
    rw [List.mem_filter, hdrive, decide_eq_true h, and_iff_left rfl]
  rw [← hkeep, hframe, hkeep]

theorem demote_not_cold {target : ShardState} (h : reg.demote_letter env letter target = some next) :
    ∃ shard ∈ reg.shards, shard.drive = letter ∧ shard.state ≠ .cold := by
  obtain ⟨old, pos, hget, hdrive, hrest⟩ := ShardRegistry.at_find h
  dsimp only at hrest
  split at hrest
  next hlegal =>
    refine ⟨old, List.mem_of_getElem? hget, hdrive, fun hcold => ?_⟩
    rw [hcold] at hlegal
    cases target <;> cases hlegal
  next => cases hrest

variable {body : DriveCompactIndex}

theorem replace_warm_not_cold (h : reg.replace_warm_body letter body = some next) :
    ∃ shard ∈ reg.shards, shard.drive = letter ∧ shard.state ≠ .cold := by
  obtain ⟨old, pos, hget, hdrive, hrest⟩ := ShardRegistry.at_find h
  dsimp only at hrest
  split at hrest
  next hstate =>
    refine ⟨old, List.mem_of_getElem? hget, hdrive, fun hcold => ?_⟩
    rw [hcold] at hstate
    rcases hstate with hstate | hstate <;> cases hstate
  next => cases hrest

/-- A call that fails on a Cold shard wakes none. -/
theorem cold_after {op : RegistryOp} (h : AllCold reg drive) (hfails : drive ∈ op.letters → op.call env reg = none) :
    AllCold (reg.after env op) drive := by
  by_cases hletter : drive ∈ op.letters
  · rw [ShardRegistry.after, hfails hletter, Option.getD_none]
    exact h
  · exact fun shard hmem hdrive => h shard ((mem_after_iff hletter hdrive).mp hmem) hdrive

theorem demote_of_cold {target : ShardState} (h : AllCold reg letter) : reg.demote_letter env letter target = none := by
  cases hnext : reg.demote_letter env letter target with
  | none => rfl
  | some next =>
    obtain ⟨old, hold, hdrive, hnot⟩ := demote_not_cold hnext
    exact absurd (h old hold hdrive) hnot

theorem replace_warm_of_cold (h : AllCold reg letter) : reg.replace_warm_body letter body = none := by
  cases hnext : reg.replace_warm_body letter body with
  | none => rfl
  | some next =>
    obtain ⟨old, hold, hdrive, hnot⟩ := replace_warm_not_cold hnext
    exact absurd (h old hold hdrive) hnot

theorem cold_demote {target : ShardState} (h : AllCold reg drive) : AllCold (reg.after env (.demote letter target)) drive := by
  refine cold_after h fun hletter => ?_
  rw [List.mem_singleton.mp hletter] at h
  exact demote_of_cold h

theorem cold_replace_warm (h : AllCold reg drive) : AllCold (reg.after env (.replace_warm_body letter body)) drive := by
  refine cold_after h fun hletter => ?_
  rw [List.mem_singleton.mp hletter] at h
  exact replace_warm_of_cold h

theorem cold_remove (h : AllCold reg drive) : AllCold (reg.remove letter) drive := fun shard hmem =>
  h shard (List.mem_filter.mp hmem).1

theorem absent_remove : ∀ shard ∈ (reg.remove drive).shards, shard.drive ≠ drive := fun _ hmem =>
  bne_iff_ne.mp (List.mem_filter.mp hmem).2

end registry

namespace forget_drive

section task

variable {task : ForgetTask} {letter : Char} {file : CacheFile}

theorem next_evict (h : task.next = .evict letter) : ∃ rest, task.waiting = letter :: rest ∧ task.cleaning = none := by
  unfold ForgetTask.next at h
  split at h
  case h_4 rest _ hcleaning hwaiting =>
    cases h
    exact ⟨_, hwaiting, hcleaning⟩
  all_goals cases h

theorem next_unlink (h : task.next = .unlink letter file) : ∃ rest, task.cleaning = some (letter, file :: rest) := by
  unfold ForgetTask.next at h
  split at h
  case h_2 hcleaning =>
    cases h
    exact ⟨_, hcleaning⟩
  all_goals cases h

theorem next_classify (h : task.next = .classify letter) : task.cleaning = some (letter, []) := by
  unfold ForgetTask.next at h
  split at h
  case h_3 hcleaning =>
    cases h
    exact hcleaning
  all_goals cases h

theorem mem_evicted : letter ∈ task.evicted ↔ (∃ files, task.cleaning = some (letter, files)) ∨ letter ∈ task.cleaned := by
  unfold ForgetTask.evicted
  rcases task.cleaning with _ | ⟨cleaning, files⟩ <;> simp [eq_comm]

end task

section state

/-- Nothing has the drive, and nothing is going to bring it in. -/
def Absent (s : State) (letter : Char) : Prop :=
  (∀ shard ∈ s.registry.shards, shard.drive ≠ letter) ∧ ∀ load ∈ s.loads, load.letter ≠ letter

/-- The file is not there, and nothing is going to write it. -/
def Clean (s : State) (letter : Char) (file : CacheFile) : Prop := s.disk letter file = none ∧ (letter, file) ∉ s.writes

/-- What an evicted drive keeps from one state to the next. -/
structure Keeps (s s' : State) (letter : Char) : Prop where
  absent : Absent s' letter
  clean : ∀ file, Clean s letter file → Clean s' letter file

/-- What a call has got to. -/
structure TaskInv (s : State) (task : ForgetTask) : Prop where
  evicted : ∀ letter ∈ task.evicted, Absent s letter
  cleaned : ∀ letter ∈ task.cleaned, ∀ file, file.holds_index = true → (letter, file) ∈ task.outcome.errors ∨ Clean s letter file
  cleaning : ∀ letter files, task.cleaning = some (letter, files) → ∀ file, file.holds_index = true →
    file ∈ files ∨ (letter, file) ∈ task.errors ∨ Clean s letter file
  waiting : task.force = false → ∀ letter ∈ task.waiting, AllCold s.registry letter

structure Inv (s : State) : Prop where
  tasks : ∀ task ∈ s.tasks, TaskInv s task
  forgotten : ∀ letter, s.forgotten letter = true → Absent s letter ∧ ∀ file, file.holds_index = true → Clean s letter file

variable {env : Env} {s s' : State} {task : ForgetTask} {letter : Char}

theorem TaskInv.keeps (h : TaskInv s task) (hkeeps : ∀ letter ∈ task.evicted, Keeps s s' letter)
    (hcold : task.force = false → ∀ letter ∈ task.waiting, AllCold s.registry letter → AllCold s'.registry letter) :
    TaskInv s' task where
  evicted letter hmem := (hkeeps letter hmem).absent
  cleaned letter hmem file hfile :=
    (h.cleaned letter hmem file hfile).imp_right ((hkeeps letter (mem_evicted.mpr (.inr hmem))).clean file)
  cleaning letter files hcleaning file hfile :=
    (h.cleaning letter files hcleaning file hfile).imp_right
      (Or.imp_right ((hkeeps letter (mem_evicted.mpr (.inl ⟨files, hcleaning⟩))).clean file))
  waiting hforce letter hmem := hcold hforce letter hmem (h.waiting hforce letter hmem)

theorem shard_of_mem {reg : ShardRegistry} {shard : ShardEntry} (h : reg.shard_of letter = some shard) :
    shard ∈ reg.shards ∧ shard.drive = letter := by
  obtain ⟨⟨found, pos⟩, hfind, rfl⟩ := Option.map_eq_some_iff.mp h
  obtain ⟨hget, hdrive⟩ := ShardRegistry.find_some hfind
  exact ⟨List.mem_of_getElem? hget, hdrive⟩

/-- A load that looks for a shard has found one. -/
theorem loadable_absent {load : Load} (h : s.loadable load = true) (hany : load.loader.any_drive = false)
    (habsent : ∀ shard ∈ s.registry.shards, shard.drive ≠ letter) : load.letter ≠ letter := by
  rw [State.loadable, hany, Bool.false_or, Option.any_eq_true] at h
  obtain ⟨shard, hshard, _⟩ := h
  obtain ⟨hmem, hdrive⟩ := shard_of_mem hshard
  rw [← hdrive]
  exact habsent shard hmem

/-- The steps that are not of a call. -/
def Event.other : Event → Bool
  | .forget_step _ _ => false
  | _ => true

/-- What a step that is not of a call makes of the registry. -/
inductive Registered (env : Env) (s : State) (e : Event) (registry : ShardRegistry) : Prop where
  | same (h : registry = s.registry)
  | demoted (letter : Char) (target : ShardState) (h : registry = s.registry.after env (.demote letter target))
  | patched (letter : Char) (body : DriveCompactIndex) (h : registry = s.registry.after env (.replace_warm_body letter body))
  | loaded (i : Nat) (load : Load) (body : DriveCompactIndex) (hevent : e = .load_done i (some body)) (hget : s.loads[i]? = some load)
      (hbody : body.letter = load.letter) (h : registry = s.registry.after env (load.loader.op load.letter body))

/-- Everything a step that is not of a call can do. -/
structure Moved (env : Env) (s : State) (e : Event) (s' : State) : Prop where
  registry : Registered env s e s'.registry
  loads : ∀ load ∈ s'.loads, load ∈ s.loads ∨ e = .load_begin load ∧ s.loadable load = true
  disk : ∀ letter file, s'.disk letter file = s.disk letter file ∨ (letter, file) ∈ s.writes
  writes : ∀ write ∈ s'.writes, write ∈ s.writes ∨ (∃ load ∈ s.loads, load.letter = write.1) ∨
    ∃ shard ∈ s.registry.shards, shard.drive = write.1
  tasks : s'.tasks = s.tasks ∨ ∃ drives force, e = .forget_drives drives force ∧ s.busy drives force = [] ∧
    s'.tasks = s.tasks ++ [{ force, hibernate := if force then s.to_hibernate drives else [], waiting := drives }]
  forgotten : ∀ letter, s'.forgotten letter = true → s.forgotten letter = true ∧
    ∀ load, e = .load_begin load → load.loader.explicit = true → load.letter ≠ letter

/-- The steps are told apart once; what a step keeps follows from what it can do. -/
theorem moved_of_step {e : Event} (hother : e.other = true) (hstep : s.step env e = some s') : Moved env s e s' := by
  have hidle : (∀ load, e ≠ .load_begin load) → Moved env s e s := fun h => ⟨.same rfl, fun _ => .inl, fun _ _ => .inl rfl,
    fun _ => .inl, .inl rfl, fun _ hforgotten => ⟨hforgotten, fun load heq => absurd heq (h load)⟩⟩
  cases e with
  | load_begin load =>
    rw [State.step] at hstep
    split at hstep
    next hloadable =>
      cases hstep
      refine ⟨.same rfl, fun other hmem => ?_, fun _ _ => .inl rfl, fun _ => .inl, .inl rfl, fun letter h => ?_⟩
      · refine (List.mem_append.mp hmem).imp_right fun hnew => ?_
        rw [List.mem_singleton.mp hnew]
        exact ⟨rfl, hloadable⟩
      · obtain ⟨hforgotten, hexplicit⟩ := Bool.and_eq_true_iff.mp h
        refine ⟨hforgotten, fun other heq hload heq_letter => ?_⟩
        cases heq
        simp [hload, heq_letter] at hexplicit
    next => cases hstep
  | load_write i file =>
    obtain ⟨load, hload, rfl⟩ := Option.map_eq_some_iff.mp hstep
    refine { hidle (by simp) with writes := fun write hmem => (List.mem_append.mp hmem).imp_right fun hnew => .inl ?_ }
    rw [List.mem_singleton.mp hnew]
    exact ⟨load, List.mem_of_getElem? hload, rfl⟩
  | load_done i body =>
    cases body with
    | none =>
      obtain ⟨load, _, rfl⟩ := Option.map_eq_some_iff.mp hstep
      exact { hidle (by simp) with loads := fun _ hmem => .inl (List.mem_of_mem_eraseIdx hmem) }
    | some body =>
      obtain ⟨load, hload, hrest⟩ := Option.bind_eq_some_iff.mp hstep
      split at hrest
      next hbody =>
        cases hrest
        exact { hidle (by simp) with
          registry := .loaded i load body rfl hload hbody rfl
          loads := fun _ hmem => .inl (List.mem_of_mem_eraseIdx hmem) }
      next => cases hrest
  | patch_begin patch =>
    rw [State.step] at hstep
    split at hstep
    · cases hstep
      exact { hidle (by simp) with }
    · cases hstep
  | patch_done i body =>
    cases body with
    | none =>
      obtain ⟨patch, _, rfl⟩ := Option.map_eq_some_iff.mp hstep
      exact { hidle (by simp) with }
    | some body =>
      obtain ⟨patch, _, hrest⟩ := Option.bind_eq_some_iff.mp hstep
      split at hrest
      next =>
        cases hrest
        exact { hidle (by simp) with }
      next registry hnext =>
        cases hrest
        have hafter : registry = s.registry.after env (.replace_warm_body patch.letter body) := by
          rw [ShardRegistry.after, RegistryOp.call, hnext, Option.getD_some]
        refine { hidle (by simp) with registry := .patched _ _ hafter, writes := fun write hmem => ?_ }
        dsimp only at hmem
        split at hmem
        · refine (List.mem_append.mp hmem).imp_right fun hnew => .inr ?_
          -- the shard whose body is replaced is there
          obtain ⟨shard, hshard, hdrive, _⟩ := replace_warm_not_cold hnext
          rw [List.mem_singleton.mp hnew]
          exact ⟨shard, hshard, hdrive⟩
        · exact .inl hmem
  | write i size =>
    cases size with
    | none =>
      obtain ⟨write, _, rfl⟩ := Option.map_eq_some_iff.mp hstep
      exact { hidle (by simp) with writes := fun _ hmem => .inl (List.mem_of_mem_eraseIdx hmem) }
    | some size =>
      obtain ⟨write, hwrite, hrest⟩ := Option.bind_eq_some_iff.mp hstep
      cases hrest
      refine { hidle (by simp) with
        disk := fun letter file => ?_
        writes := fun _ hmem => .inl (List.mem_of_mem_eraseIdx hmem) }
      by_cases hsame : letter = write.1 ∧ file = write.2
      · rw [hsame.1, hsame.2]
        exact .inr (List.mem_of_getElem? hwrite)
      · exact .inl (if_neg hsame)
  | demote drive target =>
    cases hstep
    exact { hidle (by simp) with registry := .demoted drive target rfl }
  | forget_drives drives force =>
    rw [State.step] at hstep
    split at hstep
    next hbusy =>
      cases hstep
      exact { hidle (by simp) with tasks := .inr ⟨drives, force, rfl, hbusy, rfl⟩ }
    next =>
      cases hstep
      exact { hidle (by simp) with }
  | forget_step i fails => cases hother

/-- No step but the beginning of a load brings an evicted drive back, or a file of it. -/
theorem Moved.keeps {e : Event} (h : Moved env s e s') (habsent : Absent s letter)
    (hload : ∀ load, e = .load_begin load → load.loader.any_drive = true → load.letter ≠ letter) : Keeps s s' letter := by
  obtain ⟨hshards, hloads⟩ := habsent
  refine ⟨⟨?_, fun load hmem => ?_⟩, fun file hclean => ⟨?_, fun hmem => ?_⟩⟩
  · cases h.registry with
    | same hregistry => exact hregistry ▸ hshards
    | demoted drive target hregistry => exact hregistry ▸ absent_after hshards (by rintro _ ⟨⟩) (by rintro _ _ ⟨⟩)
    | patched drive body hregistry => exact hregistry ▸ absent_after hshards (by rintro _ ⟨⟩) (by rintro _ _ ⟨⟩)
    | loaded i load body _ hget hbody hregistry =>
      have hne : body.letter ≠ letter := hbody ▸ hloads load (List.mem_of_getElem? hget)
      rw [hregistry]
      apply absent_after hshards
      · intro added hop
        cases hloader : load.loader <;> rw [hloader] at hop <;> cases hop <;> exact hne
      · intro match_letter added hop
        cases hloader : load.loader <;> rw [hloader] at hop <;> cases hop <;> exact hne
  · rcases h.loads load hmem with hold | ⟨heq, hloadable⟩
    · exact hloads load hold
    · cases hany : load.loader.any_drive with
      | true => exact hload load heq hany
      | false => exact loadable_absent hloadable hany hshards
  · exact ((h.disk letter file).resolve_right hclean.2).trans hclean.1
  · rcases h.writes _ hmem with hold | ⟨load, hold, heq⟩ | ⟨shard, hold, heq⟩
    · exact hclean.2 hold
    · exact hloads load hold heq
    · exact hshards shard hold heq

/-- No step but the end of a load wakes a drive that is Cold. -/
theorem Moved.cold {e : Event} (h : Moved env s e s') (hcold : AllCold s.registry letter)
    (hload : ∀ i body load, e = .load_done i (some body) → s.loads[i]? = some load →
      load.loader = .journal_refresh ∨ load.letter ≠ letter) : AllCold s'.registry letter := by
  cases h.registry with
  | same hregistry => exact hregistry ▸ hcold
  | demoted drive target hregistry => exact hregistry ▸ cold_demote hcold
  | patched drive body hregistry => exact hregistry ▸ cold_replace_warm hcold
  | loaded i load body hevent hget hbody hregistry =>
    rw [hregistry]
    rcases hload i body load hevent hget with hjournal | hne
    · rw [hjournal]
      exact cold_replace_warm hcold
    · have hletters : letter ∉ (load.loader.op load.letter body).letters := by
        cases load.loader <;> simp [Loader.op, RegistryOp.letters, hbody, Ne.symm hne]
      exact cold_after hcold fun hmem => absurd hmem hletters

theorem cold_of_not_busy {drives : List Char} (hbusy : s.busy drives false = []) (hmem : letter ∈ drives)
    (hsingle : ∀ shard ∈ s.registry.shards, shard.drive = letter → s.registry.shard_of letter = some shard) :
    AllCold s.registry letter := by
  intro shard hshard hdrive
  by_contra hwarm
  have hentry : (letter, shard.state) ∈ s.busy drives false := by
    refine List.mem_filterMap.mpr ⟨letter, hmem, ?_⟩
    simp [hsingle shard hshard hdrive, hwarm]
  rw [hbusy] at hentry
  cases hentry

/-- No careful step of another task brings a forgotten drive back. -/
theorem Inv.other {e : Event} (h : Inv s) (hother : e.other = true) (hcareful : Careful s e)
    (hstep : s.step env e = some s') : Inv s' := by
  have hmoved := moved_of_step hother hstep
  have hkept : ∀ task ∈ s.tasks, TaskInv s' task := by
    intro task hmem
    refine (h.tasks task hmem).keeps (fun letter hevicted => ?_) fun hforce letter hwaiting hcold => ?_
    · refine hmoved.keeps ((h.tasks task hmem).evicted letter hevicted) fun load heq hany heq_letter => ?_
      cases heq
      refine hcareful.1 hany task hmem ?_
      rw [heq_letter]
      exact hevicted
    · refine hmoved.cold hcold fun i body load heq hget => ?_
      cases heq
      refine (hcareful load hget).imp_right fun hnone heq_letter => hnone task hmem hforce ?_
      rw [heq_letter]
      exact hwaiting
  refine ⟨fun task hmem => ?_, fun letter hletter => ?_⟩
  · rcases hmoved.tasks with hsame | ⟨drives, force, rfl, hbusy, happend⟩
    · exact hkept task (hsame ▸ hmem)
    · rw [happend] at hmem
      rcases List.mem_append.mp hmem with hmem | hmem
      · exact hkept task hmem
      · rw [List.mem_singleton.mp hmem]
        refine ⟨nofun, nofun, nofun, fun hforce letter hwaiting => ?_⟩
        cases hforce
        refine hmoved.cold (cold_of_not_busy hbusy hwaiting ?_) nofun
        exact (hcareful.resolve_left nofun) letter hwaiting
  · obtain ⟨hbefore, hexplicit⟩ := hmoved.forgotten letter hletter
    obtain ⟨habsent, hclean⟩ := h.forgotten letter hbefore
    have hkeeps : Keeps s s' letter := by
      refine hmoved.keeps habsent fun load heq hany heq_letter => ?_
      cases heq
      rcases Bool.or_eq_true_iff.mp hany with hload | hunasked
      · exact hexplicit load rfl hload heq_letter
      · have hfree := hcareful.2 hunasked
        rw [heq_letter, hbefore] at hfree
        cases hfree
    exact ⟨hkeeps.absent, fun file hfile => hkeeps.clean file (hclean file hfile)⟩

/-- One call goes on, and leaves the others what they have. -/
theorem Inv.set_task (h : Inv s) {i : Nat} (hkeeps : ∀ letter, Absent s letter → Keeps s s' letter)
    (hcold : ∀ letter, AllCold s.registry letter → AllCold s'.registry letter) (hforgotten : s'.forgotten = s.forgotten)
    (htasks : s'.tasks = s.tasks.set i task) (htask : TaskInv s' task) : Inv s' := by
  refine ⟨fun other hmem => ?_, fun letter hletter => ?_⟩
  · rw [htasks] at hmem
    rcases List.mem_or_eq_of_mem_set hmem with hmem | rfl
    · have hother := h.tasks other hmem
      exact hother.keeps (fun letter hevicted => hkeeps letter (hother.evicted letter hevicted)) fun _ letter _ => hcold letter
    · exact htask
  · rw [hforgotten] at hletter
    obtain ⟨habsent, hclean⟩ := h.forgotten letter hletter
    exact ⟨(hkeeps letter habsent).absent, fun file hfile => (hkeeps letter habsent).clean file (hclean file hfile)⟩

theorem errors_classify (task : ForgetTask) (letter : Char) :
    (task.classify letter).outcome.errors = task.outcome.errors ++ task.errors := by
  unfold ForgetTask.classify
  dsimp only
  split
  · rfl
  · split <;> rfl

theorem keeps_registry {registry : ShardRegistry} (htasks : List ForgetTask) (habsent : Absent s letter)
    (hregistry : ∀ shard ∈ registry.shards, shard.drive ≠ letter) : Keeps s { s with registry, tasks := htasks } letter :=
  ⟨⟨hregistry, habsent.2⟩, fun _ h => h⟩

/-- A drive is evicted while nothing is going to bring it in. -/
theorem TaskInv.evict {rest : List Char} {tasks : List ForgetTask} (h : TaskInv s task)
    (hwaiting : task.waiting = letter :: rest) (hloads : ∀ load ∈ s.loads, load.letter ≠ letter) :
    TaskInv { s with registry := s.registry.remove letter, tasks }
      { task with waiting := rest, cleaning := some (letter, drive_cache_paths), freed := 0, errors := [] } := by
  have hkeeps : ∀ other ∈ task.evicted, Keeps s { s with registry := s.registry.remove letter, tasks } other := by
    intro other hmem
    have habsent := h.evicted other hmem
    exact keeps_registry tasks habsent (@absent_after sample_env _ _ (.remove letter) habsent.1 nofun nofun)
  refine ⟨fun other hmem => ?_, fun other hmem file hfile => ?_, fun other files hcleaning file hfile => ?_, fun hforce other hmem => ?_⟩
  · rcases mem_evicted.mp hmem with ⟨files, hcleaning⟩ | hcleaned
    · cases hcleaning
      exact ⟨absent_remove, hloads⟩
    · exact (hkeeps other (mem_evicted.mpr (.inr hcleaned))).absent
  · exact (h.cleaned other hmem file hfile).imp_right ((hkeeps other (mem_evicted.mpr (.inr hmem))).clean file)
  · cases hcleaning
    left
    cases file <;> decide
  · refine cold_remove (h.waiting hforce other ?_)
    rw [hwaiting]
    exact List.mem_cons_of_mem _ hmem

/-- A file that is unlinked while nothing is going to write it is done with, as is one that stays with an error. -/
theorem TaskInv.unlink {task next : ForgetTask} {file : CacheFile} {rest : List CacheFile} (h : TaskInv s task)
    (hcleaning : task.cleaning = some (letter, file :: rest)) (hkeeps : ∀ other, Absent s other → Keeps s s' other)
    (hregistry : s'.registry = s.registry) (hnext : next.cleaning = some (letter, rest)) (hforce : next.force = task.force)
    (hwaiting : next.waiting = task.waiting) (hcleaned : next.cleaned = task.cleaned)
    (houtcome : next.outcome = task.outcome) (herrors : ∀ error ∈ task.errors, error ∈ next.errors)
    (hfile : file.holds_index = true → (letter, file) ∈ next.errors ∨ Clean s' letter file) : TaskInv s' next := by
  have hevicted : ∀ other, other ∈ next.evicted → other ∈ task.evicted := by
    intro other hmem
    rw [mem_evicted, hnext, hcleaned] at hmem
    rw [mem_evicted, hcleaning]
    refine hmem.imp_left fun ⟨files, hfiles⟩ => ?_
    cases hfiles
    exact ⟨_, rfl⟩
  refine ⟨fun other hmem => ?_, fun other hmem kept hkept => ?_, fun other files hfiles kept hkept => ?_, fun hunforced other hmem => ?_⟩
  · exact (hkeeps other (h.evicted other (hevicted other hmem))).absent
  · rw [hcleaned] at hmem
    rw [houtcome]
    have habsent := h.evicted other (mem_evicted.mpr (.inr hmem))
    exact (h.cleaned other hmem kept hkept).imp_right ((hkeeps other habsent).clean kept)
  · rw [hnext] at hfiles
    cases hfiles
    have habsent := h.evicted letter (mem_evicted.mpr (.inl ⟨_, hcleaning⟩))
    rcases h.cleaning letter _ hcleaning kept hkept with hmem | herror | hclean
    · rcases List.mem_cons.mp hmem with rfl | hmem
      · exact .inr (hfile hkept)
      · exact .inl hmem
    · exact .inr (.inl (herrors _ herror))
    · exact .inr (.inr ((hkeeps letter habsent).clean kept hclean))
  · rw [hregistry]
    rw [hforce] at hunforced
    rw [hwaiting] at hmem
    exact h.waiting hunforced other hmem

theorem TaskInv.classify {tasks : List ForgetTask} (h : TaskInv s task) (hcleaning : task.cleaning = some (letter, [])) :
    TaskInv { s with tasks } (task.classify letter) := by
  have hmem_cleaned : ∀ other, other ∈ (task.classify letter).cleaned ↔ other ∈ task.cleaned ∨ other = letter := by
    intro other
    exact List.mem_append.trans (or_congr_right List.mem_singleton)
  refine ⟨fun other hmem => ?_, fun other hmem file hfile => ?_, nofun, h.waiting⟩
  · refine h.evicted other (mem_evicted.mpr ?_)
    rcases mem_evicted.mp hmem with ⟨_, hnone⟩ | hmem
    · cases hnone
    · rcases (hmem_cleaned other).mp hmem with hmem | rfl
      · exact .inr hmem
      · exact .inl ⟨[], hcleaning⟩
  · rw [errors_classify, List.mem_append]
    rcases (hmem_cleaned other).mp hmem with hmem | rfl
    · exact (h.cleaned other hmem file hfile).imp_left .inl
    · rcases h.cleaning other [] hcleaning file hfile with hmem | herror | hclean
      · cases hmem
      · exact .inl (.inr herror)
      · exact .inr hclean

/-- A call that is done with a drive without an error has forgotten it. -/
theorem TaskInv.forgotten (h : TaskInv s task) (hcleaned : letter ∈ task.cleaned) (hfailed : task.failed letter = false) :
    Absent s letter ∧ ∀ file, file.holds_index = true → Clean s letter file := by
  refine ⟨h.evicted letter (mem_evicted.mpr (.inr hcleaned)), fun file hfile => ?_⟩
  rcases h.cleaned letter hcleaned file hfile with herror | hclean
  · have hany : task.failed letter = true := List.any_eq_true.mpr ⟨_, herror, decide_eq_true rfl⟩
    rw [hfailed] at hany
    cases hany
  · exact hclean

/-- A step of the forget task gets its drive one phase further, and a drive done is gone. -/
theorem Inv.forget_step {i : Nat} {fails : Bool} (h : Inv s) (hget : s.tasks[i]? = some task)
    (hcareful : Careful s (.forget_step i fails)) : Inv (s.forget_step env i task fails) := by
  have htask := h.tasks task (List.mem_of_getElem? hget)
  have hnext := hcareful task hget
  unfold State.forget_step
  cases haction : task.next with
  | auto_hibernate letter =>
    have hkeeps : ∀ tasks other, Absent s other →
        Keeps s { s with registry := s.registry.after env (.demote letter .cold), tasks } other := fun tasks other habsent =>
      keeps_registry tasks habsent (absent_after habsent.1 nofun nofun)
    have hkept := htask.keeps (fun other hmem => hkeeps (s.tasks.set i { task with hibernate := task.hibernate.tail }) other
      (htask.evicted other hmem)) fun _ _ _ => cold_demote
    exact h.set_task (hkeeps _) (fun _ => cold_demote) rfl rfl ⟨hkept.evicted, hkept.cleaned, hkept.cleaning, hkept.waiting⟩
  | evict letter =>
    obtain ⟨rest, hwaiting, _⟩ := next_evict haction
    rw [haction] at hnext
    have hkeeps : ∀ tasks other, Absent s other → Keeps s { s with registry := s.registry.remove letter, tasks } other :=
      fun tasks other habsent => keeps_registry tasks habsent (@absent_after env _ _ (.remove letter) habsent.1 nofun nofun)
    refine h.set_task (hkeeps _) (fun _ => cold_remove) rfl rfl ?_
    rw [hwaiting, List.tail_cons]
    exact htask.evict hwaiting hnext
  | unlink letter file =>
    obtain ⟨rest, hcleaning⟩ := next_unlink haction
    rw [haction] at hnext
    have hstep_file : task.step_file.cleaning = some (letter, rest) := by
      rw [ForgetTask.step_file, hcleaning]
      rfl
    dsimp only
    cases hdisk : s.disk letter file with
    | none =>
      have hkeeps : ∀ other, Absent s other → Keeps s (s.set_task i task.step_file) other := fun _ habsent => ⟨habsent, fun _ h => h⟩
      refine h.set_task hkeeps (fun _ h => h) rfl rfl ?_
      exact htask.unlink hcleaning hkeeps rfl hstep_file rfl rfl rfl rfl (fun _ h => h) fun hfile => .inr ⟨hdisk, hnext hfile⟩
    | some size =>
      cases fails with
      | true =>
        have hkeeps : ∀ next other, Absent s other → Keeps s (s.set_task i next) other := fun _ _ habsent => ⟨habsent, fun _ h => h⟩
        refine h.set_task (hkeeps _) (fun _ h => h) rfl rfl ?_
        refine htask.unlink hcleaning (hkeeps _) rfl hstep_file rfl rfl rfl rfl (fun _ => List.mem_append_left _) fun _ => .inl ?_
        exact List.mem_append_right _ List.mem_cons_self
      | false =>
        have hkeeps : ∀ tasks other, Absent s other → Keeps s { s with disk := s.disk.put letter file none, tasks } other := by
          intro tasks other habsent
          refine ⟨habsent, fun kept hclean => ⟨?_, hclean.2⟩⟩
          change (if other = letter ∧ kept = file then none else s.disk other kept) = none
          split
          · rfl
          · exact hclean.1
        refine h.set_task (hkeeps _) (fun _ h => h) rfl rfl ?_
        refine htask.unlink hcleaning (hkeeps _) rfl hstep_file rfl rfl rfl rfl (fun _ h => h) fun hfile => .inr ⟨?_, hnext hfile⟩
        exact if_pos ⟨rfl, rfl⟩
  | classify letter =>
    refine h.set_task (fun _ habsent => ⟨habsent, fun _ h => h⟩) (fun _ h => h) rfl rfl ?_
    exact htask.classify (next_classify haction)
  | finish =>
    refine ⟨fun other hmem => ?_, fun letter hletter => ?_⟩
    · have hother := h.tasks other (List.mem_of_mem_eraseIdx hmem)
      exact ⟨hother.evicted, hother.cleaned, hother.cleaning, hother.waiting⟩
    · rcases Bool.or_eq_true_iff.mp hletter with hbefore | hdone
      · exact h.forgotten letter hbefore
      · obtain ⟨hcleaned, hfailed⟩ := Bool.and_eq_true_iff.mp hdone
        rw [Bool.not_eq_true'] at hfailed
        exact htask.forgotten (of_decide_eq_true hcleaned) hfailed

theorem Inv.step {e : Event} (h : Inv s) (hcareful : Careful s e) (hstep : s.step env e = some s') : Inv s' := by
  cases e with
  | forget_step i fails =>
    obtain ⟨task, hget, rfl⟩ := Option.map_eq_some_iff.mp hstep
    exact h.forget_step hget hcareful
  | _ => exact h.other rfl hcareful hstep

theorem Inv.forgotten_stays (h : Inv s) : Forgotten s := by
  intro letter hletter
  obtain ⟨habsent, hclean⟩ := h.forgotten letter hletter
  exact ⟨habsent.1, (hclean .compact rfl).1, (hclean .index rfl).1⟩

theorem Inv.guarded (h : Inv s) : Guarded s := by
  intro task hmem hforce letter haction
  obtain ⟨rest, hwaiting, _⟩ := next_evict haction
  refine (h.tasks task hmem).waiting hforce letter ?_
  rw [hwaiting]
  exact List.mem_cons_self

end state

/-- Whatever the daemon has, as long as nothing is being forgotten. -/
def start (registry : ShardRegistry) (disk : Disk) (loads : List Load) (patches : List Patch) (writes : List (Char × CacheFile)) :
    State :=
  { registry, disk, loads, patches, writes }

theorem inv_start (registry : ShardRegistry) (disk : Disk) (loads : List Load) (patches : List Patch)
    (writes : List (Char × CacheFile)) : Inv (start registry disk loads patches writes) := ⟨nofun, nofun⟩

/-- In every run of careful steps what is forgotten stays forgotten and only Cold drives are evicted without force; and in any
state a call that finds a drive busy does nothing. -/
theorem careful_run_forgets (env : Env) (registry : ShardRegistry) (disk : Disk) (loads : List Load) (patches : List Patch)
    (writes : List (Char × CacheFile)) {events : List Event} {s : State}
    (hmeets : Meets (State.step env) Careful (start registry disk loads patches writes) events)
    (hrun : run_events (State.step env) (start registry disk loads patches writes) events = some s) :
    Forgotten s ∧ Guarded s ∧ ∀ drives force s', s.busy drives force ≠ [] → s.step env (.forget_drives drives force) = some s' →
      s' = { s with answers := s.answers ++ [.Busy (s.busy drives force)] } := by
  have hinv : Inv s := run_invariant (fun _ _ _ h hcareful hstep => h.step hcareful hstep) (inv_start ..) hmeets hrun
  refine ⟨hinv.forgotten_stays, hinv.guarded, fun drives force s' hbusy hstep => ?_⟩
  rw [State.step] at hstep
  split at hstep
  next hnone => exact absurd hnone hbusy
  next => exact (Option.some.inj hstep).symm

/-- A drive and its files. -/
def loaded_drive : State := start Tiering.one_drive (fun _ _ => some 1) [] [] []

/-- A call with force, from the hibernate to its answer. -/
def forced : List Event := .forget_drives ['G'] true :: List.replicate 8 (.forget_step 0 false)

theorem careful_idle {s : State} (hloads : s.loads = []) (hwrites : s.writes = []) (i : Nat) (fails : Bool) :
    Careful s (.forget_step i fails) := by
  intro task _
  split
  · rw [hloads]
    nofun
  · rw [hwrites]
    nofun
  · trivial

/-- The drive is being saved and patched when it is forgotten, and another one is loaded. -/
def forced_in_flight : List Event :=
  [.forget_drives ['G'] true, .forget_step 0 false, .write 0 (some 7),
    .load_done 0 (some { ShardRegistry.empty_body with letter := 'H' })] ++
    List.replicate 5 (.forget_step 0 false) ++ .patch_done 0 (some ShardRegistry.empty_body) :: List.replicate 2 (.forget_step 0 false)

/-- The save ends before the files are unlinked, and the patch finds the drive gone. -/
theorem careful_run_forgets_in_flight : ∃ s,
    run_events (State.step sample_env)
      (start Tiering.one_drive (fun _ _ => some 1) [⟨.ensure_drives_loaded, 'H'⟩] [⟨'G', true⟩] [('G', .compact)]) forced_in_flight = some s ∧
      s.forgotten 'G' = true ∧ s.patches = [] ∧ (s.registry.shard_of 'H').isSome = true ∧ Forgotten s := by
  refine ⟨_, rfl, rfl, rfl, rfl, ?_⟩
  refine (@careful_run_forgets sample_env Tiering.one_drive (fun _ _ => some 1) [⟨.ensure_drives_loaded, 'H'⟩] [⟨'G', true⟩] [('G', .compact)]
    forced_in_flight _ ?_ rfl).1
  have hstep : ∀ {s s' : State} {events : List Event}, s.loads = [] → s.writes = [] →
      s.step sample_env (.forget_step 0 false) = some s' → Meets (State.step sample_env) Careful s' events →
      Meets (State.step sample_env) Careful s (.forget_step 0 false :: events) := fun hloads hwrites hstep =>
    Meets.cons (careful_idle hloads hwrites 0 false) hstep
  refine .cons (.inl rfl) rfl (.cons ?_ rfl (.cons trivial rfl (.cons ?_ rfl ?_)))
  · rintro task ⟨⟩
    trivial
  · rintro load -
    refine .inr fun task hmem hforce => ?_
    cases List.mem_singleton.mp hmem
    cases hforce
  -- the eviction, four files, and after the patch the classification and the answer
  refine hstep rfl rfl rfl (hstep rfl rfl rfl (hstep rfl rfl rfl (hstep rfl rfl rfl (hstep rfl rfl rfl ?_))))
  exact .cons trivial rfl (hstep rfl rfl rfl (hstep rfl rfl rfl trivial))

/-- A save that was spawned before the eviction brings the cache file back, and a load in flight the shard; and a search wakes
a drive that a call without force is about to evict. -/
theorem save_survives_forget :
    (∃ s, run_events (State.step sample_env) loaded_drive
        ([.patch_begin ⟨'G', true⟩, .patch_done 0 (some ShardRegistry.empty_body)] ++ forced ++ [.write 0 (some 1)]) = some s ∧
      s.answers = [.Ok { forgotten := ['G'], freed_bytes := 4 }] ∧ ¬ Forgotten s) ∧
    (∃ s, run_events (State.step sample_env) loaded_drive
        ([.load_begin ⟨.hot_load_drive, 'G'⟩] ++ forced ++ [.load_done 0 (some ShardRegistry.empty_body)]) = some s ∧ ¬ Forgotten s) ∧
    ∃ s, run_events (State.step sample_env) loaded_drive
        [.demote 'G' .cold, .forget_drives ['G'] false, .load_begin ⟨.ensure_warm, 'G'⟩,
          .load_done 0 (some ShardRegistry.empty_body)] = some s ∧ ¬ Guarded s := by
  refine ⟨⟨_, rfl, rfl, fun h => ?_⟩, ⟨_, rfl, fun h => ?_⟩, ⟨_, rfl, fun h => ?_⟩⟩
  · cases (h 'G' rfl).2.1
  · exact (h 'G' rfl).1 _ List.mem_cons_self rfl
  · cases h _ List.mem_cons_self rfl 'G' rfl _ List.mem_cons_self rfl

end forget_drive

end uffs.daemon
