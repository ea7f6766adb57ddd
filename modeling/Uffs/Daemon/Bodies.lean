import Uffs.Daemon.Step

open uffs.bloom uffs.compact uffs.compact_cache

namespace uffs.daemon

def Applier.bodies : Applier → List Body
  | .idle => []
  | .patched body _ _ => [body]
  | .swapped body _ => [body]
  | .refreshed body => [body]

/-- The shard's body and those on their way into it satisfy `P`, those that are saved or on disk `Q`. -/
structure Carried (P Q : Body → Prop) (s : Daemon) : Prop where
  shard : ∀ body, s.shard.body = some body → P body
  applier : ∀ body ∈ s.applier.bodies, P body
  saves : ∀ body ∈ s.saves, Q body
  loads : ∀ body ∈ s.loads, P body
  cache : ∀ body, s.disk.cache = some body → Q body
  index_cache : ∀ cached, s.disk.index_cache = some cached → Q cached.body

/-- The bodies the process can still install, patch or save, and the one on disk, are all such. -/
abbrev Held (P : Body → Prop) (s : Daemon) : Prop := Carried P P s

theorem Body.marks_read (volume : Volume) (wraps : Nat) (index : DriveCompactIndex) :
    (Body.read volume wraps index).marks = volume.usns.map (Mark.mk volume.journal_id) := List.append_nil _

theorem Body.marks_apply_usn_patch (env : Env) (body : Body) (batches : List Batch) (fold_delta : Bool) :
    (body.apply_usn_patch env batches fold_delta).marks = body.marks ++ marks_of batches := by
  simp [Body.marks, Body.apply_usn_patch]

variable {shard shard' : Shard}

theorem replace_warm_body_body {body : Body} (h : replace_warm_body shard body = some shard') :
    shard'.body = some body := by
  cases shard <;> cases h <;> rfl

theorem replace_warm_body_none {body : Body} (h : replace_warm_body shard body = none) : shard.body = none := by
  cases shard <;> first | rfl | cases h

theorem demote_letter_body {env : Env} {target : Tier} (h : demote_letter env shard target = some shard') :
    shard'.body = none := by
  cases shard <;> cases target <;> cases h <;> rfl

/-- An installed body is the shard's, or the shard keeps its own. -/
theorem install_body {body b : Body} {hot : Bool}
    (h : ((if hot then promote_letter_to_hot shard body else promote_letter shard body).getD shard).body = some b) :
    b = body ∨ shard.body = some b := by
  cases hot <;> cases shard <;> simp_all [promote_letter, promote_letter_to_hot, Shard.body]

/-- A parked body is the old one, or that of the body the shard had. -/
def ParkedFrom (env : Env) (shard shard' : Shard) : Prop :=
  ∀ parked_body, shard' = .parked parked_body →
    shard = .parked parked_body ∨ ∃ body, shard.body = some body ∧ parked_body = to_parked_body env body.index

theorem parkedFrom_replace_warm_body (env : Env) {body : Body} (h : replace_warm_body shard body = some shard') :
    ParkedFrom env shard shard' := by
  rintro parked_body rfl
  cases shard <;> cases h

theorem parkedFrom_demote_letter {env : Env} {target : Tier} (h : demote_letter env shard target = some shard') :
    ParkedFrom env shard shard' := by
  rintro parked_body rfl
  cases shard <;> cases target <;> cases h <;> exact Or.inr ⟨_, rfl, rfl⟩

theorem parkedFrom_install (env : Env) (shard : Shard) (body : Body) (hot : Bool) :
    ParkedFrom env shard ((if hot then promote_letter_to_hot shard body else promote_letter shard body).getD shard) := by
  intro parked_body h
  cases hot <;> cases shard <;> cases h

/-- The batch of the next message, and whether it is a save. -/
def next_batches : List ApplyMsg → List Batch × Bool
  | .save batches _ :: _ => (batches, true)
  | .apply batches :: rest => ((coalesce_apply_run (.apply batches :: rest)).1, false)
  | _ => ([], false)

/-- The answers an event reads the drive with. -/
def Event.reads : Event → Option Answers
  | .take reloaded => reloaded
  | .load refreshed => refreshed
  | .restart answers => some answers
  | _ => none

/-- The body that a promotion loads. -/
def loaded (s : Daemon) (refreshed : Option Answers) : Option Body :=
  match refreshed with
  | some answers => some (read_index_cached s.volume s.wraps s.disk answers).1
  | none => s.disk.cache

/-- The body that an event brings into use. -/
def brought (s : Daemon) : Event → Option Body
  | .take reloaded =>
    match reloaded, s.sink.queue with
    | some answers, .wrap :: _ => loaded s (some answers)
    | _, _ => none
  | .load refreshed => loaded s refreshed
  | .restart answers => some (load_live_drive s.volume s.disk s.wraps answers).original
  | _ => none

theorem forall_mem_concat {P : Body → Prop} {bodies : List Body} {body : Body} (hbodies : ∀ b ∈ bodies, P b) (hbody : P body) :
    ∀ b ∈ bodies ++ [body], P b := by
  intro b hb
  rcases List.mem_append.mp hb with hold | hnew
  · exact hbodies b hold
  · rw [List.mem_singleton.mp hnew]
    exact hbody

theorem forall_mem_eraseIdx {P : Body → Prop} {bodies : List Body} (hbodies : ∀ b ∈ bodies, P b) (i : Nat) :
    ∀ b ∈ bodies.eraseIdx i, P b :=
  fun b hb => hbodies b (List.mem_of_mem_eraseIdx hb)

section Carried

variable {env : Env} {s s' : Daemon} {P Q R : Body → Prop}

/-- A process starts with the body it has loaded, and nothing polled or under way. -/
theorem load_live_drive_fresh (volume : Volume) (disk : Disk) (wraps : Nat) (answers : Answers) :
    (load_live_drive volume disk wraps answers).shard = .warm (load_live_drive volume disk wraps answers).original ∧
      (load_live_drive volume disk wraps answers).polled = [] ∧ (load_live_drive volume disk wraps answers).loads = [] ∧
      (load_live_drive volume disk wraps answers).applier = .idle ∧ (load_live_drive volume disk wraps answers).sink = {} := by
  unfold load_live_drive
  split
  · split <;> exact ⟨rfl, rfl, rfl, rfl, rfl⟩
  · exact ⟨rfl, rfl, rfl, rfl, rfl⟩

/-- Whatever an event reads from the drive satisfies the predicate. -/
def Readable (P : Body → Prop) (s : Daemon) (answers : Answers) : Prop :=
  P (Body.read s.volume s.wraps answers.full) ∧
    ∀ cached, s.disk.index_cache = some cached → P (cached.body.confirmed s.volume s.wraps) ∧
      ∀ start_usn, P (cached.body.updated s.volume s.wraps answers start_usn)

/-- A drive is read: what the body it gives satisfies, the cached index satisfies too. -/
theorem Carried.reread {answers : Answers} (h : Carried P Q s) (hread : Readable Q s answers) :
    Q (read_index_cached s.volume s.wraps s.disk answers).1 ∧
      Carried P Q { s with disk := (read_index_cached s.volume s.wraps s.disk answers).2 } := by
  obtain ⟨hbody, hindex, -, hcache⟩ :=
    read_index_cached_cases hread.1 fun cached hsome => ⟨h.index_cache cached hsome, hread.2 cached hsome⟩
  exact ⟨hbody, h.shard, h.applier, h.saves, h.loads, fun cache hsome => h.cache cache (hcache cache hsome), hindex⟩

theorem Carried.apply_to_body {batches : List Batch} {cursor : Option Cursor} (h : Carried P Q s)
    (hpatch : ∀ body, s.shard.body = some body → P (body.apply_usn_patch env batches cursor.isSome)) :
    Carried P Q (apply_to_body env s batches cursor) := by
  unfold daemon.apply_to_body
  cases hbody : s.shard.body with
  | none => exact ⟨h.shard, h.applier, h.saves, h.loads, h.cache, h.index_cache⟩
  | some body =>
    refine ⟨h.shard, ?_, h.saves, h.loads, h.cache, h.index_cache⟩
    intro b hb
    rw [List.mem_singleton.mp hb]
    exact hpatch body hbody

theorem Carried.dispatch_msg {reloaded : Option Answers} (h : Carried P Q s) (hstep : dispatch_msg env s reloaded = some s')
    (hread : ∀ answers, reloaded = some answers → Readable Q s answers)
    (hbrought : ∀ body, brought s (.take reloaded) = some body → Q body → P body)
    (hpatch : ∀ body, s.shard.body = some body →
      P (body.apply_usn_patch env (next_batches s.sink.queue).1 (next_batches s.sink.queue).2)) : Carried P Q s' := by
  have hpopped : ∀ queue, Carried P Q { s with sink := { s.sink with queue } } :=
    fun _ => ⟨h.shard, h.applier, h.saves, h.loads, h.cache, h.index_cache⟩
  unfold daemon.dispatch_msg at hstep
  split at hstep
  · rename_i batches cursor rest _ hqueue
    rw [hqueue] at hpatch
    split at hstep
    · cases hstep
      exact ⟨h.shard, h.applier, h.saves, h.loads, h.cache, h.index_cache⟩
    · cases hstep
      exact (hpopped rest).apply_to_body hpatch
  · rename_i batches rest _ hqueue
    rw [hqueue] at hpatch
    cases hstep
    exact (hpopped _).apply_to_body hpatch
  · rename_i rest _ hqueue
    cases reloaded with
    | none =>
      cases hstep
      exact hpopped _
    | some answers =>
      cases hstep
      obtain ⟨hnew, hread⟩ := h.reread (hread answers rfl)
      have huse : P (read_index_cached s.volume s.wraps s.disk answers).1 := by
        refine hbrought _ ?_ hnew
        simp only [brought, hqueue, loaded]
      exact ⟨h.shard, fun b hb => List.mem_singleton.mp hb ▸ huse, forall_mem_concat h.saves hnew, h.loads, hread.cache,
        hread.index_cache⟩
  · cases hstep

/-- What a swap leaves: its body is in the shard, or the shard had none and has none. -/
inductive SwapEffect (s : Daemon) : Daemon → Prop where
  | patched {body : Body} {batches : List Batch} {cursor : Option Cursor} {shard : Shard} {applier : Applier} {saves : List Body}
      (hs : s.applier = .patched body batches cursor) (hshard : ∀ b, shard.body = some b → b = body)
      (hparked : ∀ env, ParkedFrom env s.shard shard)
      (happlier : applier = .idle ∧ saves = s.saves ∨ ∃ c, cursor = some c ∧ applier = .swapped body c ∧ saves = s.saves ++ [body]) :
      SwapEffect s { s with handled := s.handled ++ batches, shard, applier, saves }
  | refreshed {body : Body} {shard : Shard} (hs : s.applier = .refreshed body) (hshard : ∀ b, shard.body = some b → b = body)
      (hparked : ∀ env, ParkedFrom env s.shard shard) : SwapEffect s { s with shard, applier := .idle }

theorem apply_journal_body_effect (hstep : apply_journal_body s = some s') : SwapEffect s s' := by
  have hreplaced : ∀ {shard : Shard} {body : Body}, replace_warm_body s.shard body = some shard → ∀ b, shard.body = some b → b = body :=
    fun h b hb => Option.some.inj (hb.symm.trans (replace_warm_body_body h))
  have hdropped : ∀ {body : Body}, replace_warm_body s.shard body = none → ∀ b, s.shard.body = some b → b = body := by
    intro body h b hb
    cases (replace_warm_body_none h).symm.trans hb
  unfold apply_journal_body at hstep
  split at hstep
  · rename_i body batches cursor hs
    split at hstep
    · rename_i hnone
      cases hstep
      exact .patched hs (hdropped hnone) (fun _ _ => Or.inl) (Or.inl ⟨rfl, rfl⟩)
    · rename_i shard hreplace
      cases hstep
      exact .patched hs (hreplaced hreplace) (fun env => parkedFrom_replace_warm_body env hreplace) (Or.inl ⟨rfl, rfl⟩)
    · rename_i shard c hreplace
      cases hstep
      exact .patched hs (hreplaced hreplace) (fun env => parkedFrom_replace_warm_body env hreplace) (Or.inr ⟨c, rfl, rfl, rfl⟩)
  · rename_i body hs
    cases hstep
    cases hreplace : replace_warm_body s.shard body with
    | none => exact .refreshed hs (hdropped hreplace) fun _ _ => Or.inl
    | some shard => exact .refreshed hs (hreplaced hreplace) fun env => parkedFrom_replace_warm_body env hreplace
  · cases hstep

theorem Carried.apply_journal_body (h : Carried P Q s) (hsub : ∀ body, P body → Q body) (hstep : apply_journal_body s = some s') :
    Carried P Q s' := by
  cases apply_journal_body_effect hstep with
  | patched hs hshard _ happlier =>
    have hbody := h.applier _ (by rw [hs]; exact List.mem_singleton_self _)
    rcases happlier with ⟨rfl, rfl⟩ | ⟨c, _, rfl, rfl⟩
    · exact ⟨fun b hb => hshard b hb ▸ hbody, List.forall_mem_nil _, h.saves, h.loads, h.cache, h.index_cache⟩
    · exact ⟨fun b hb => hshard b hb ▸ hbody, fun b hb => List.mem_singleton.mp hb ▸ hbody, forall_mem_concat h.saves (hsub _ hbody),
        h.loads, h.cache, h.index_cache⟩
  | refreshed hs hshard _ =>
    have hbody := h.applier _ (by rw [hs]; exact List.mem_singleton_self _)
    exact ⟨fun b hb => hshard b hb ▸ hbody, List.forall_mem_nil _, h.saves, h.loads, h.cache, h.index_cache⟩

theorem Carried.load {refreshed : Option Answers} (h : Carried P Q s) (hstep : DiskBodyLoader.load s refreshed = some s')
    (hread : ∀ answers, refreshed = some answers → Readable Q s answers)
    (hbrought : ∀ body, loaded s refreshed = some body → Q body → P body) : Carried P Q s' := by
  unfold DiskBodyLoader.load at hstep
  split at hstep
  · cases hstep
  · rename_i answers _
    cases hstep
    obtain ⟨hnew, hread⟩ := h.reread (hread answers rfl)
    exact ⟨h.shard, h.applier, forall_mem_concat h.saves hnew, forall_mem_concat h.loads (hbrought _ rfl hnew), hread.cache,
      hread.index_cache⟩
  · rename_i cache _ hcache
    cases hstep
    exact ⟨h.shard, h.applier, h.saves, forall_mem_concat h.loads (hbrought cache hcache (h.cache cache hcache)), h.cache, h.index_cache⟩
  · cases hstep
    exact h

/-- After a restart only the body that was loaded is in use. -/
theorem Carried.load_live_drive {answers : Answers} (h : Carried P Q s) (hread : Readable Q s answers)
    (hown : Q (load_live_drive s.volume s.disk s.wraps answers).original → R (load_live_drive s.volume s.disk s.wraps answers).original) :
    Carried R Q (load_live_drive s.volume s.disk s.wraps answers) := by
  have hfull : (Q (full_rebuild s.volume s.disk s.wraps answers).original → R (full_rebuild s.volume s.disk s.wraps answers).original) →
      Carried R Q (full_rebuild s.volume s.disk s.wraps answers) := by
    intro hown
    obtain ⟨hnew, hread⟩ := h.reread hread
    refine ⟨?_, List.forall_mem_nil _, ?_, List.forall_mem_nil _, hread.cache, hread.index_cache⟩
    · intro b hb
      cases hb
      exact hown hnew
    · intro b hb
      rw [List.mem_singleton.mp hb]
      exact hnew
  revert hown
  unfold daemon.load_live_drive
  split
  · split
    · rename_i cache _ hsome
      intro hown
      refine ⟨?_, List.forall_mem_nil _, List.forall_mem_nil _, List.forall_mem_nil _, h.cache, h.index_cache⟩
      intro b hb
      cases hb
      exact hown (h.cache cache hsome)
    · exact hfull
  · exact hfull

theorem Carried.boot {volume : Volume} {rebuilt : DriveCompactIndex} (hread : Q (Body.read volume 0 rebuilt))
    (hown : P (Body.read volume 0 rebuilt)) : Carried P Q (boot volume rebuilt) := by
  refine ⟨?_, List.forall_mem_nil _, ?_, List.forall_mem_nil _, by rintro _ ⟨⟩, ?_⟩
  · intro b hb
    cases hb
    exact hown
  · intro b hb
    rw [List.mem_singleton.mp hb]
    exact hread
  · intro cached hcached
    cases hcached
    exact hread

/-- The events of the bodies alone. -/
def Event.moves_bodies : Event → Bool
  | .written _ | .write_failed _ | .demote _ | .load _ | .snapshot | .join _ | .install _ _ => true
  | _ => false

/-- They leave everything but the bodies and the files; a body that the shard gets was loaded, and one
that is loaded comes from the drive or from the shard. -/
theorem moved_bodies {event : Event} (hmoves : event.moves_bodies = true) (hstep : step env s event = some s') :
    ∃ (shard : Shard) (saves loads : List Body) (disk : Disk),
      s' = { s with shard, saves, loads, disk } ∧ disk.cursor = s.disk.cursor ∧ ParkedFrom env s.shard shard ∧
        (∀ body, shard.body = some body → s.shard.body = some body ∨ ∃ i hot, event = .install i hot ∧ s.loads[i]? = some body) ∧
        ∀ body ∈ loads, body ∈ s.loads ∨ (event = .snapshot ∧ s.shard.body = some body) ∨
          ∃ refreshed, event = .load refreshed ∧ loaded s refreshed = some body := by
  have hkept : ParkedFrom env s.shard s.shard := fun _ => Or.inl
  have hold : ∀ loads : List Body, (∀ body ∈ loads, body ∈ s.loads) → ∀ body ∈ loads, body ∈ s.loads ∨
      (event = .snapshot ∧ s.shard.body = some body) ∨ ∃ refreshed, event = .load refreshed ∧ loaded s refreshed = some body :=
    fun loads hsub body hbody => Or.inl (hsub body hbody)
  cases event with
  | written i =>
    obtain ⟨body, -, rfl⟩ := Option.map_eq_some_iff.mp hstep
    exact ⟨s.shard, _, s.loads, _, rfl, rfl, hkept, fun _ => Or.inl, hold _ fun _ => id⟩
  | write_failed i =>
    obtain ⟨body, -, rfl⟩ := Option.map_eq_some_iff.mp hstep
    exact ⟨s.shard, _, s.loads, s.disk, rfl, rfl, hkept, fun _ => Or.inl, hold _ fun _ => id⟩
  | demote target =>
    obtain ⟨shard, hshard, rfl⟩ := Option.map_eq_some_iff.mp hstep
    refine ⟨shard, s.saves, s.loads, s.disk, rfl, rfl, parkedFrom_demote_letter hshard, fun body hbody => ?_, hold _ fun _ => id⟩
    cases (demote_letter_body hshard).symm.trans hbody
  | load refreshed =>
    simp only [step, DiskBodyLoader.load] at hstep
    split at hstep
    · cases hstep
    · cases hstep
      exact ⟨s.shard, _, _, _, rfl, read_index_cached_cursor _ _ _ _, hkept, fun _ => Or.inl,
        forall_mem_concat (hold _ fun _ => id) (Or.inr (Or.inr ⟨_, rfl, rfl⟩))⟩
    · rename_i cache _ hcache
      cases hstep
      exact ⟨s.shard, _, _, s.disk, rfl, rfl, hkept, fun _ => Or.inl, forall_mem_concat (hold _ fun _ => id) (Or.inr (Or.inr ⟨_, rfl, hcache⟩))⟩
    · cases hstep
      exact ⟨s.shard, _, _, s.disk, rfl, rfl, hkept, fun _ => Or.inl, hold _ fun _ => id⟩
  | snapshot =>
    simp only [step] at hstep
    split at hstep
    · rename_i body hs
      cases hstep
      exact ⟨s.shard, s.saves, _, s.disk, rfl, rfl, hkept, fun _ => Or.inl,
        forall_mem_concat (hold _ fun _ => id) (Or.inr (Or.inl ⟨rfl, by rw [hs]; rfl⟩))⟩
    · cases hstep
  | join i =>
    obtain ⟨body, hbody, rfl⟩ := Option.map_eq_some_iff.mp hstep
    exact ⟨s.shard, s.saves, _, s.disk, rfl, rfl, hkept, fun _ => Or.inl, forall_mem_concat (hold _ fun _ => id) (Or.inl (List.mem_of_getElem? hbody))⟩
  | install i hot =>
    obtain ⟨body, hbody, rfl⟩ := Option.map_eq_some_iff.mp hstep
    refine ⟨_, s.saves, _, s.disk, rfl, rfl, parkedFrom_install env _ _ _, fun b hb => ?_, hold _ fun b hb => List.mem_of_mem_eraseIdx hb⟩
    rcases install_body hb with rfl | hkept
    · exact Or.inr ⟨i, hot, rfl, hbody⟩
    · exact Or.inl hkept
  | _ => cases hmoves

/-- What a step can do to the bodies: it keeps them, reads one from the volume, patches the one of the
shard, or starts over with the one on disk. -/
theorem Carried.step {event : Event} (h : Carried P Q s) (hstep : step env s event = some s') (hsub : ∀ body, P body → Q body)
    (hread : ∀ answers, event.reads = some answers → Readable Q s answers)
    (hbrought : ∀ body, brought s event = some body → Q body → P body)
    (hpatch : ∀ reloaded body, event = .take reloaded → s.shard.body = some body →
      P (body.apply_usn_patch env (next_batches s.sink.queue).1 (next_batches s.sink.queue).2)) : Carried P Q s' := by
  cases event with
  | write content =>
    cases hstep
    exact ⟨h.shard, h.applier, h.saves, h.loads, h.cache, h.index_cache⟩
  | truncate first_usn =>
    obtain ⟨_, hvolume⟩ := Option.ite_none_right_eq_some.mp hstep
    cases hvolume
    exact ⟨h.shard, h.applier, h.saves, h.loads, h.cache, h.index_cache⟩
  | recreate first_usn =>
    cases hstep
    exact ⟨h.shard, h.applier, h.saves, h.loads, h.cache, h.index_cache⟩
  | poll changes aged settled =>
    obtain ⟨_, hturn⟩ := Option.ite_none_right_eq_some.mp hstep
    cases hturn
    unfold JournalLoop.turn
    dsimp only
    split
    · exact ⟨h.shard, h.applier, h.saves, h.loads, h.cache, h.index_cache⟩
    · exact ⟨h.shard, h.applier, h.saves, h.loads, h.cache, h.index_cache⟩
  | take reloaded => exact h.dispatch_msg hstep hread hbrought fun body => hpatch reloaded body rfl
  | swap => exact h.apply_journal_body hsub hstep
  | store =>
    simp only [daemon.step] at hstep
    split at hstep <;> cases hstep
    exact ⟨h.shard, List.forall_mem_nil _, h.saves, h.loads, h.cache, h.index_cache⟩
  | written i =>
    obtain ⟨body, hbody, rfl⟩ := Option.map_eq_some_iff.mp hstep
    refine ⟨h.shard, h.applier, forall_mem_eraseIdx h.saves i, h.loads, ?_, h.index_cache⟩
    intro b hb
    cases hb
    exact h.saves body (List.mem_of_getElem? hbody)
  | write_failed i =>
    obtain ⟨body, _, rfl⟩ := Option.map_eq_some_iff.mp hstep
    exact ⟨h.shard, h.applier, forall_mem_eraseIdx h.saves i, h.loads, h.cache, h.index_cache⟩
  | demote target =>
    obtain ⟨shard, hshard, rfl⟩ := Option.map_eq_some_iff.mp hstep
    refine ⟨?_, h.applier, h.saves, h.loads, h.cache, h.index_cache⟩
    intro b hb
    cases (demote_letter_body hshard).symm.trans hb
  | load refreshed => exact h.load hstep hread hbrought
  | snapshot =>
    simp only [daemon.step] at hstep
    split at hstep
    · next body hs =>
      cases hstep
      exact ⟨h.shard, h.applier, h.saves, forall_mem_concat h.loads (h.shard body (by rw [hs]; rfl)), h.cache, h.index_cache⟩
    · cases hstep
  | join i =>
    obtain ⟨body, hbody, rfl⟩ := Option.map_eq_some_iff.mp hstep
    exact ⟨h.shard, h.applier, h.saves, forall_mem_concat h.loads (h.loads body (List.mem_of_getElem? hbody)), h.cache, h.index_cache⟩
  | install i hot =>
    obtain ⟨body, hbody, rfl⟩ := Option.map_eq_some_iff.mp hstep
    refine ⟨?_, h.applier, h.saves, forall_mem_eraseIdx h.loads i, h.cache, h.index_cache⟩
    intro b hb
    rcases install_body hb with rfl | hold
    · exact h.loads b (List.mem_of_getElem? hbody)
    · exact h.shard b hold
  | restart answers =>
    cases hstep
    exact h.load_live_drive (hread answers rfl) (hbrought _ rfl)
  | seed =>
    obtain ⟨cursor, _, rfl⟩ := Option.map_eq_some_iff.mp hstep
    exact ⟨h.shard, h.applier, h.saves, h.loads, h.cache, h.index_cache⟩

theorem Held.step {event : Event} (h : Held P s) (hstep : daemon.step env s event = some s')
    (hread : ∀ answers, event.reads = some answers → Readable P s answers)
    (hpatch : ∀ reloaded body, event = .take reloaded → s.shard.body = some body →
      P (body.apply_usn_patch env (next_batches s.sink.queue).1 (next_batches s.sink.queue).2)) : Held P s' :=
  Carried.step h hstep (fun _ => id) hread (fun _ _ => id) hpatch

end Carried

/-- The events that change what is polled, or start over. -/
def Event.polls : Event → Bool
  | .poll _ _ _ | .restart _ => true
  | _ => false

/-- What a step leaves alone: the journal of the volume is never replaced by an older one, what was
polled stays, and a parked body is an old one or that of the body in the shard. -/
theorem step_frame {env : Env} {s s' : Daemon} {event : Event} (hstep : step env s event = some s') :
    s.volume.journal_id ≤ s'.volume.journal_id ∧ (event.polls = false → s'.original = s.original ∧ s'.polled = s.polled ∧
      ParkedFrom env s.shard s'.shard) := by
  have hsame : s.volume.journal_id ≤ s.volume.journal_id ∧ (event.polls = false → s.original = s.original ∧ s.polled = s.polled ∧
      ParkedFrom env s.shard s.shard) :=
    ⟨le_refl _, fun _ => ⟨rfl, rfl, fun _ => Or.inl⟩⟩
  cases event with
  | write content =>
    cases hstep
    exact hsame
  | truncate first_usn =>
    obtain ⟨_, hvolume⟩ := Option.ite_none_right_eq_some.mp hstep
    cases hvolume
    exact hsame
  | recreate first_usn =>
    cases hstep
    exact ⟨Nat.le_succ _, hsame.2⟩
  | poll changes aged settled =>
    obtain ⟨_, hturn⟩ := Option.ite_none_right_eq_some.mp hstep
    cases hturn
    refine ⟨?_, nofun⟩
    unfold JournalLoop.turn
    dsimp only
    split <;> exact le_refl _
  | take reloaded =>
    have hpatched : ∀ (t : Daemon) (batches : List Batch) (cursor : Option Cursor), (apply_to_body env t batches cursor).volume = t.volume ∧
        (apply_to_body env t batches cursor).original = t.original ∧ (apply_to_body env t batches cursor).polled = t.polled ∧
        (apply_to_body env t batches cursor).shard = t.shard := by
      intro t batches cursor
      unfold apply_to_body
      split <;> exact ⟨rfl, rfl, rfl, rfl⟩
    simp only [step, dispatch_msg] at hstep
    split at hstep
    · split at hstep
      · cases hstep
        exact hsame
      · cases hstep
        rw [(hpatched _ _ _).1, (hpatched _ _ _).2.1, (hpatched _ _ _).2.2.1, (hpatched _ _ _).2.2.2]
        exact hsame
    · cases hstep
      rw [(hpatched _ _ _).1, (hpatched _ _ _).2.1, (hpatched _ _ _).2.2.1, (hpatched _ _ _).2.2.2]
      exact hsame
    · split at hstep <;> cases hstep <;> exact hsame
    · cases hstep
  | swap =>
    cases apply_journal_body_effect hstep with
    | patched _ _ hparked _ => exact ⟨le_refl _, fun _ => ⟨rfl, rfl, hparked env⟩⟩
    | refreshed _ _ hparked => exact ⟨le_refl _, fun _ => ⟨rfl, rfl, hparked env⟩⟩
  | store =>
    simp only [step] at hstep
    split at hstep <;> cases hstep
    exact hsame
  | restart answers =>
    cases hstep
    refine ⟨?_, nofun⟩
    simp only [load_live_drive]
    split
    · split <;> exact le_refl _
    · exact le_refl _
  | written _ | write_failed _ | demote _ | load _ | snapshot | join _ | install _ _ =>
    obtain ⟨shard, saves, loads, disk, rfl, -, hparked, -⟩ := moved_bodies rfl hstep
    exact ⟨le_refl _, fun _ => ⟨rfl, rfl, hparked⟩⟩
  | seed =>
    obtain ⟨_, _, rfl⟩ := Option.map_eq_some_iff.mp hstep
    exact hsame

end uffs.daemon
