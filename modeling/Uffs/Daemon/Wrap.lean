import Uffs.Daemon.Tiers

open uffs.lib uffs.bloom uffs.compact uffs.usn

namespace uffs.daemon

/-- The body was read from the MFT after the last wrap, on the journal the loop reads. -/
def Current (s : Daemon) (body : Body) : Prop :=
  body.wraps = s.wraps ∧ ∀ id, s.loop.last_journal_id = some id → body.journal_id = id

/-- A reload is asked for, or its body is about to be swapped in. -/
def Reloading (s : Daemon) : Prop := .wrap ∈ s.sink.queue ∨ ∃ body, s.applier = .refreshed body

/-- The cursor is the start of the journal the loop reads, or a position in it. -/
def OnJournal (s : Daemon) (cursor : Cursor) : Prop :=
  ∀ id, s.loop.last_journal_id = some id → cursor.value = 0 ∨ cursor.journal_id = id

/-- A wrap is a clean restart: the body is reloaded, a batch is only applied to a body reloaded after
the wrap before it and never after the next one, and stored cursors are of the journal in use. -/
structure CleanRestart (s : Daemon) : Prop where
  body : ∀ body, s.shard.body = some body → Current s body ∨ Reloading s
  batch : ∀ body batches cursor, s.applier = .patched body batches cursor → ∀ batch ∈ batches,
    batch.wraps = s.wraps ∧ body.wraps = s.wraps ∧ ∀ mark ∈ batch.marks, mark.journal_id = body.journal_id
  cursor : OnJournal s s.disk.cursor

/-- The steps a wrap survives. -/
def Unbroken (s : Daemon) : Event → Prop
  | .poll _ _ _ => s.volume.journal_id ≠ 0 ∧
      -- a wrap finds the channel empty
      (wrap_seen s = true → s.sink.queue = [] ∧ s.applier = .idle) ∧
      -- the cursor does not fall behind a journal that stays
      (wrap_seen s = false → s.volume.first_usn ≤ s.loop.cursor.value) ∧
      -- the first poll of a process finds the journal of its body and its cursor
      (s.loop.last_journal_id = none → (s.disk.cursor.value = 0 ∨ s.disk.cursor.journal_id = s.volume.journal_id) ∧
        ∀ body, s.shard.body = some body → body.journal_id = s.volume.journal_id)
  -- the reload succeeds and gets every change, on the journal the loop has met
  | .take reloaded => ∀ rest, s.sink.queue = .wrap :: rest → s.loop.last_journal_id = some s.volume.journal_id ∧
      ∃ answers, reloaded = some answers ∧ answers.Complete s.volume s.disk
  -- a process starts with a body that was read after the last wrap
  | .restart answers => (Resumes s.volume s.disk answers → ∀ cache, s.disk.cache = some cache → cache.wraps = s.wraps) ∧
      (¬ Resumes s.volume s.disk answers → answers.Complete s.volume s.disk)
  -- a promoted body is not older than the wrap
  | .install i _ => ∀ body, s.loads[i]? = some body → Current s body ∨ Reloading s
  | _ => True

/-- The batch was read after the last wrap, from the journal the loop reads. -/
def Batch.Fresh (s : Daemon) (batch : Batch) : Prop :=
  batch.wraps = s.wraps ∧ ∀ mark ∈ batch.marks, s.loop.last_journal_id = some mark.journal_id

def Applier.Sound (s : Daemon) : Applier → Prop
  | .idle => True
  | .patched body batches cursor => Current s body ∧ (∀ batch ∈ batches, batch.Fresh s) ∧ ∀ c, cursor = some c → OnJournal s c
  | .swapped _ cursor => OnJournal s cursor
  | .refreshed body => Current s body

structure WrapInv (s : Daemon) : Prop where
  shard : ∀ body, s.shard.body = some body → Current s body ∨ Reloading s
  disk : OnJournal s s.disk.cursor
  waiting : ∀ batch ∈ s.sink.waiting, batch.Fresh s
  saves : ∀ batches cursor, .save batches cursor ∈ s.sink.queue → OnJournal s cursor
  applier : s.applier.Sound s
  wraps : .wrap ∈ s.sink.queue → s.applier = .idle ∧ ∃ rest, s.sink.queue = .wrap :: rest ∧ .wrap ∉ rest
  unread : s.loop.last_journal_id = none → s.sink.queue = [] ∧ s.sink.pending = [] ∧ s.applier = .idle
  seed : s.seed.isSome = true → s.loop.last_journal_id = none

variable {s : Daemon}

theorem WrapInv.cleanRestart (h : WrapInv s) : CleanRestart s := by
  refine ⟨h.shard, ?_, h.disk⟩
  intro body batches cursor hs batch hbatch
  have hsound := h.applier
  rw [hs] at hsound
  obtain ⟨hcurrent, hfresh, -⟩ := hsound
  obtain ⟨hwraps, hmarks⟩ := hfresh batch hbatch
  exact ⟨hwraps, hcurrent.1, fun mark hmark => (hcurrent.2 _ (hmarks mark hmark)).symm⟩

/-- What a tick sends: nothing, a save with the loop's cursor, or an apply. -/
theorem fire_due_cadence_queue (loop : JournalLoop) (sink : RegistryPatchSink) (aged settled_clock : Bool) :
    (∃ tail, (fire_due_cadence loop sink aged settled_clock).2.queue = sink.queue ++ tail ∧
      ∀ msg ∈ tail, (∃ batches, msg = .save batches loop.cursor) ∨ ∃ batches, msg = .apply batches) ∧
      (∀ b ∈ (fire_due_cadence loop sink aged settled_clock).2.waiting, b ∈ sink.waiting) ∧
      (fire_due_cadence loop sink aged settled_clock).1.last_journal_id = loop.last_journal_id := by
  unfold fire_due_cadence
  split
  · refine ⟨⟨[.save sink.pending loop.cursor], rfl, ?_⟩, ?_, rfl⟩
    · intro msg hmsg
      exact Or.inl ⟨_, List.mem_singleton.mp hmsg⟩
    · rw [waiting_trigger_save]
      exact fun b hb => hb
  · split
    · unfold RegistryPatchSink.trigger_apply
      split
      · refine ⟨⟨[], (List.append_nil _).symm, nofun⟩, ?_, rfl⟩
        intro b hb
        rw [RegistryPatchSink.waiting, List.append_nil] at hb
        exact List.mem_append_left _ hb
      · refine ⟨⟨[.apply sink.pending], rfl, ?_⟩, ?_, rfl⟩
        · intro msg hmsg
          exact Or.inr ⟨_, List.mem_singleton.mp hmsg⟩
        · intro b hb
          simpa [RegistryPatchSink.waiting, queue_batches_append, queue_batches] using hb
    · exact ⟨⟨[], (List.append_nil _).symm, nofun⟩, fun b hb => hb, rfl⟩

theorem process_tick_queue (loop : JournalLoop) (sink : RegistryPatchSink) (batch : Batch) (aged settled_clock : Bool) :
    (∃ tail, (process_tick loop sink batch aged settled_clock).2.queue = sink.queue ++ tail ∧
      ∀ msg ∈ tail, (∃ batches, msg = .save batches loop.cursor) ∨ ∃ batches, msg = .apply batches) ∧
      (∀ b ∈ (process_tick loop sink batch aged settled_clock).2.waiting, b ∈ sink.waiting ∨ b = batch) ∧
      (process_tick loop sink batch aged settled_clock).1.last_journal_id = loop.last_journal_id := by
  unfold process_tick
  split
  · obtain ⟨hqueue, hwaiting, hlast⟩ := fire_due_cadence_queue loop sink aged settled_clock
    exact ⟨hqueue, fun b hb => Or.inl (hwaiting b hb), hlast⟩
  · obtain ⟨hqueue, hwaiting, hlast⟩ := fire_due_cadence_queue
      { loop with events_since_save := loop.events_since_save + batch.changes.length, first_change_at := true } (sink.accept batch)
      aged settled_clock
    refine ⟨hqueue, ?_, hlast⟩
    intro b hb
    have hmem := hwaiting b hb
    rw [RegistryPatchSink.waiting, RegistryPatchSink.accept, ← List.append_assoc] at hmem
    exact (List.mem_append.mp hmem).imp_right List.mem_singleton.mp

/-- Where neither the wraps nor the journal of the loop change, what is sound stays so. -/
theorem Applier.Sound.steady {s' : Daemon} (hwraps : s'.wraps = s.wraps)
    (hlast : s'.loop.last_journal_id = s.loop.last_journal_id) {applier : Applier} (h : applier.Sound s) : applier.Sound s' := by
  cases applier with
  | idle => trivial
  | patched body batches cursor => simpa only [Applier.Sound, Current, Batch.Fresh, OnJournal, hwraps, hlast] using h
  | swapped body cursor => simpa only [Applier.Sound, OnJournal, hlast] using h
  | refreshed body => simpa only [Applier.Sound, Current, hwraps, hlast] using h

section Tick

variable {loop : JournalLoop} {batch : Batch} (hlast : loop.last_journal_id = some s.volume.journal_id)
  (hcursor : loop.cursor.journal_id = s.volume.journal_id) (hwraps : batch.wraps = s.wraps)
  (hmarks : ∀ mark ∈ batch.marks, mark.journal_id = s.volume.journal_id)
include hlast hcursor hwraps hmarks

/-- The tick of a poll that meets the journal of the loop. -/
theorem WrapInv.process_tick (h : WrapInv s) (hid : s.loop.last_journal_id = some s.volume.journal_id) (polled : List Batch)
    (aged settled_clock : Bool) :
    WrapInv { s with
      loop := (process_tick loop s.sink batch aged settled_clock).1, sink := (process_tick loop s.sink batch aged settled_clock).2
      polled } := by
  obtain ⟨⟨tail, hqueue, htail⟩, hwaiting, hnext⟩ := process_tick_queue loop s.sink batch aged settled_clock
  have hsame := (hnext.trans hlast).trans hid.symm
  -- a tick sends no wrap
  have hnowrap : .wrap ∉ tail := by
    intro hmem
    rcases htail _ hmem with ⟨_, hmsg⟩ | ⟨_, hmsg⟩ <;> cases hmsg
  refine ⟨?_, ?_, ?_, ?_, Applier.Sound.steady ?_ hsame h.applier, ?_, ?_, ?_⟩
  · intro body hbody
    rcases h.shard body hbody with hold | hmem | hrefreshed
    · exact Or.inl ⟨hold.1, hsame ▸ hold.2⟩
    · refine Or.inr (Or.inl ?_)
      rw [hqueue]
      exact List.mem_append_left _ hmem
    · exact Or.inr (Or.inr hrefreshed)
  · rw [OnJournal, hsame]
    exact h.disk
  · intro b hb
    rw [Batch.Fresh, hsame]
    rcases hwaiting b hb with hold | rfl
    · exact h.waiting b hold
    · exact ⟨hwraps, fun mark hmark => by rw [hmarks mark hmark, hid]⟩
  · intro batches c hmem
    rw [OnJournal, hsame]
    rw [hqueue] at hmem
    rcases List.mem_append.mp hmem with hold | hnew
    · exact h.saves batches c hold
    · rcases htail _ hnew with ⟨_, hmsg⟩ | ⟨_, hmsg⟩
      · cases hmsg
        intro id hsome
        exact Or.inr (hcursor.trans (Option.some.inj (hid.symm.trans hsome)))
      · cases hmsg
  · rfl
  · intro hmem
    rw [hqueue] at hmem
    obtain ⟨hidle, rest, hrest, hnone⟩ := h.wraps ((List.mem_append.mp hmem).resolve_right hnowrap)
    refine ⟨hidle, rest ++ tail, ?_, ?_⟩
    · rw [hqueue, hrest]
      rfl
    · simp [hnone, hnowrap]
  · intro hnone
    cases hid.symm.trans (hsame.symm.trans hnone)
  · intro hseed
    cases hid.symm.trans (h.seed hseed)

end Tick

/-- The loop of a new process meets the journal of its body and of its stored cursor. -/
theorem WrapInv.first_poll (h : WrapInv s) (hid : s.loop.last_journal_id = none) (hseed : s.seed = none)
    (hdisk : s.disk.cursor.value = 0 ∨ s.disk.cursor.journal_id = s.volume.journal_id)
    (hbody : ∀ body, s.shard.body = some body → body.journal_id = s.volume.journal_id) :
    WrapInv { s with loop := { s.loop with last_journal_id := some s.volume.journal_id } } := by
  obtain ⟨hempty, hpending, hidle⟩ := h.unread hid
  refine ⟨?_, ?_, ?_, ?_, ?_, ?_, (by rintro ⟨⟩), ?_⟩
  · intro body hsome
    rcases h.shard body hsome with hold | hmem | ⟨_, hrefreshed⟩
    · exact Or.inl ⟨hold.1, fun id hlast => (hbody body hsome).trans (Option.some.inj hlast)⟩
    · rw [hempty] at hmem
      cases hmem
    · cases hidle.symm.trans hrefreshed
  · rintro id ⟨⟩
    exact hdisk
  · intro b hb
    rw [RegistryPatchSink.waiting, hempty, hpending] at hb
    cases hb
  · intro batches c hmem
    rw [hempty] at hmem
    cases hmem
  · dsimp only
    rw [hidle]
    trivial
  · intro hmem
    rw [hempty] at hmem
    cases hmem
  · intro hsome
    rw [hseed] at hsome
    cases hsome

theorem wrap_seen_eq_false (hid : s.volume.journal_id ≠ 0) (h : wrap_seen s = false) :
    s.loop.last_journal_id = some s.volume.journal_id ∨ s.loop.last_journal_id = none := by
  unfold wrap_seen at h
  cases hlast : s.loop.last_journal_id with
  | none => exact Or.inr rfl
  | some prev_id =>
    rw [hlast] at h
    simp only [Option.any_some, Bool.and_eq_false_iff, bne_eq_false_iff_eq] at h
    rcases h with hzero | hsame
    · exact absurd hzero hid
    · rw [hsame]
      exact Or.inl rfl

/-- A poll that meets a new journal queues the wrap with nothing before it. -/
theorem WrapInv.turn (h : WrapInv s) (hseed : s.seed = none) (changes : List FileChange) (aged settled_clock : Bool)
    (hok : Unbroken s (.poll changes aged settled_clock)) : WrapInv (JournalLoop.turn s changes aged settled_clock) := by
  obtain ⟨hnonzero, hwrap, hfall, hfirst⟩ := hok
  unfold JournalLoop.turn
  simp only [poll_journal_id]
  split
  · -- the wrap: the channel holds the reload alone, and the stored cursor starts over
    rename_i hnew
    obtain ⟨hqueue, hidle⟩ := hwrap hnew
    have hsent : s.sink.journal_wrapped.queue = [.wrap] := by
      rw [RegistryPatchSink.journal_wrapped, hqueue]
      rfl
    refine ⟨?_, fun _ _ => Or.inl rfl, ?_, ?_, ?_, ?_, (by rintro ⟨⟩), ?_⟩
    · intro body hbody
      refine Or.inr (Or.inl ?_)
      rw [hsent]
      exact List.mem_singleton_self _
    · intro batch hbatch
      rw [RegistryPatchSink.waiting, hsent] at hbatch
      cases hbatch
    · intro batches cursor hmem
      rw [hsent] at hmem
      cases List.mem_singleton.mp hmem
    · rw [hidle]
      trivial
    · exact fun _ => ⟨hidle, [], hsent, List.not_mem_nil⟩
    · intro hsome
      rw [hseed] at hsome
      cases hsome
  · rename_i hsame
    have hsame' : wrap_seen s = false := Bool.eq_false_iff.mpr hsame
    have hplace : ¬ s.loop.cursor.value < s.volume.first_usn := Nat.not_lt.mpr (hfall hsame')
    have hid := wrap_seen_eq_false hnonzero hsame'
    simp only [hplace, if_false]
    have hmarks : ∀ (read : Bool) (mark : Mark),
        mark ∈ (if read then [] else (daemon.unread s.volume s.loop.cursor.value).map (Mark.mk s.volume.journal_id)) →
          mark.journal_id = s.volume.journal_id := by
      intro read mark hmark
      split at hmark
      · cases hmark
      · obtain ⟨usn, _, rfl⟩ := List.mem_map.mp hmark
        rfl
    have hnext : (if (s.volume.journal_id != 0) = true then some s.volume.journal_id else s.loop.last_journal_id) =
        some s.volume.journal_id := if_pos (by simpa using hnonzero)
    rcases hid with hsome | hnone
    · exact h.process_tick hnext rfl rfl (hmarks _) hsome _ aged settled_clock
    · exact (h.first_poll hnone hseed (hfirst hnone).1 (hfirst hnone).2).process_tick hnext rfl rfl (hmarks _) rfl _ aged settled_clock

/-- The applier takes a batch: there is no wrap before it, so the body is current. -/
theorem WrapInv.apply_to_body (h : WrapInv s) (env : Env) (hidle : s.applier = .idle) (hnowrap : .wrap ∉ s.sink.queue)
    (hread : s.loop.last_journal_id ≠ none) {batches : List Batch} {cursor : Option Cursor} {rest : List ApplyMsg}
    (hqueue : queue_batches s.sink.queue = batches ++ queue_batches rest) (hrest : ∀ msg ∈ rest, msg ∈ s.sink.queue)
    (hcursor : ∀ c, cursor = some c → OnJournal s c) :
    WrapInv (apply_to_body env { s with sink := { s.sink with queue := rest } } batches cursor) := by
  have hshard : ∀ body, s.shard.body = some body → Current s body := by
    intro body hbody
    rcases h.shard body hbody with hcurrent | hmem | ⟨_, hrefreshed⟩
    · exact hcurrent
    · exact absurd hmem hnowrap
    · cases hidle.symm.trans hrefreshed
  have hbatches : ∀ batch ∈ batches, batch.Fresh s := by
    intro batch hbatch
    refine h.waiting batch ?_
    rw [RegistryPatchSink.waiting, hqueue]
    simp [hbatch]
  have hwaiting : ∀ batch ∈ queue_batches rest ++ s.sink.pending, batch.Fresh s := by
    intro batch hbatch
    refine h.waiting batch ?_
    rw [RegistryPatchSink.waiting, hqueue, List.append_assoc]
    exact List.mem_append_right _ hbatch
  have hsaves : ∀ batches c, .save batches c ∈ rest → OnJournal s c := fun batches c hmem => h.saves batches c (hrest _ hmem)
  unfold daemon.apply_to_body
  cases hs : s.shard.body with
  | none =>
    refine ⟨?_, h.disk, hwaiting, hsaves, h.applier, fun hmem => absurd (hrest _ hmem) hnowrap, fun hnone => absurd hnone hread, h.seed⟩
    intro body hbody
    cases hs.symm.trans hbody
  | some body =>
    refine ⟨fun body hbody => Or.inl (hshard body hbody), h.disk, hwaiting, hsaves, ?_, fun hmem => absurd (hrest _ hmem) hnowrap,
      fun hnone => absurd hnone hread, h.seed⟩
    exact ⟨hshard body hs, hbatches, hcursor⟩

theorem coalesce_apply_run_mem {queue : List ApplyMsg} : ∀ msg ∈ (coalesce_apply_run queue).2, msg ∈ queue := by
  induction queue with
  | nil => exact nofun
  | cons head rest ih =>
    cases head with
    | save batches cursor => exact fun msg hmsg => hmsg
    | wrap => exact fun msg hmsg => hmsg
    | apply batches => exact fun msg hmsg => List.mem_cons_of_mem _ (ih msg hmsg)

theorem WrapInv.dispatch_msg {env : Env} {s' : Daemon} (h : WrapInv s) {reloaded : Option Answers}
    (hok : Unbroken s (.take reloaded)) (hstep : dispatch_msg env s reloaded = some s') : WrapInv s' := by
  -- behind a message that is no wrap there is none
  have hnowrap : ∀ msg rest, s.sink.queue = msg :: rest → msg ≠ .wrap → .wrap ∉ s.sink.queue := by
    intro msg rest hqueue hne hmem
    obtain ⟨-, rest', hrest', -⟩ := h.wraps hmem
    cases hqueue.symm.trans hrest'
    exact hne rfl
  have hread : ∀ msg rest, s.sink.queue = msg :: rest → s.loop.last_journal_id ≠ none := by
    intro msg rest hqueue hnone
    cases hqueue.symm.trans (h.unread hnone).1
  unfold daemon.dispatch_msg at hstep
  split at hstep
  · rename_i batches cursor rest hidle hqueue
    have hno := hnowrap _ _ hqueue (by rintro ⟨⟩)
    have hcursor : OnJournal s cursor := h.saves batches cursor (by rw [hqueue]; exact List.mem_cons_self)
    have hrest : ∀ msg ∈ rest, msg ∈ s.sink.queue := by
      rw [hqueue]
      exact fun msg hmsg => List.mem_cons_of_mem _ hmsg
    split at hstep
    · cases hstep
      refine ⟨?_, hcursor, ?_, fun b c hmem => h.saves b c (hrest _ hmem), h.applier, fun hmem => absurd (hrest _ hmem) hno,
        fun hnone => absurd hnone (hread _ _ hqueue), h.seed⟩
      · intro body hbody
        rcases h.shard body hbody with hcurrent | hmem | hrefreshed
        · exact Or.inl hcurrent
        · exact absurd hmem hno
        · exact Or.inr (Or.inr hrefreshed)
      · intro batch hbatch
        refine h.waiting batch ?_
        rw [RegistryPatchSink.waiting, hqueue, queue_batches, List.append_assoc]
        exact List.mem_append_right _ hbatch
    · cases hstep
      refine h.apply_to_body env hidle hno (hread _ _ hqueue) (by rw [hqueue, queue_batches]) hrest ?_
      intro c hc
      cases hc
      exact hcursor
  · rename_i batches rest hidle hqueue
    rw [← hqueue] at hstep
    cases hstep
    exact h.apply_to_body env hidle (hnowrap _ _ hqueue (by rintro ⟨⟩)) (hread _ _ hqueue) (coalesce_apply_run_batches _)
      coalesce_apply_run_mem (by rintro _ ⟨⟩)
  · rename_i rest hidle hqueue
    obtain ⟨hlast, answers, rfl, hcomplete⟩ := hok rest hqueue
    obtain ⟨-, rest', hrest', hno⟩ := h.wraps (by rw [hqueue]; exact List.mem_cons_self)
    cases hqueue.symm.trans hrest'
    cases hstep
    obtain ⟨-, hid, hwraps⟩ := @Answers.Complete.read _ s.wraps _ _ hcomplete
    refine ⟨fun _ _ => Or.inr (Or.inr ⟨_, rfl⟩), ?_, ?_, ?_, ⟨hwraps, ?_⟩, fun hmem => absurd hmem hno,
      fun hnone => absurd hnone (hread _ _ hqueue), h.seed⟩
    · dsimp only
      rw [read_index_cached_cursor]
      exact h.disk
    · intro batch hbatch
      refine h.waiting batch ?_
      rw [RegistryPatchSink.waiting, hqueue]
      exact hbatch
    · intro batches c hmem
      refine h.saves batches c ?_
      rw [hqueue]
      exact List.mem_cons_of_mem _ hmem
    · intro id hsome
      exact hid.trans (Option.some.inj (hlast.symm.trans hsome))
  · cases hstep

theorem WrapInv.apply_journal_body {s' : Daemon} (h : WrapInv s) (hstep : apply_journal_body s = some s') : WrapInv s' := by
  have hsound := h.applier
  -- with a body in hand there is no wrap in the channel
  have hnowrap : s.applier ≠ .idle → .wrap ∉ s.sink.queue := fun hbusy hmem => hbusy (h.wraps hmem).1
  have hread : s.applier ≠ .idle → s.loop.last_journal_id ≠ none := fun hbusy hnone => hbusy (h.unread hnone).2.2
  cases apply_journal_body_effect hstep with
  | patched hs hshard _ happlier =>
    have hbusy : s.applier ≠ .idle := by
      rw [hs]
      exact nofun
    rw [hs] at hsound
    obtain ⟨hbody, -, hcursor⟩ := hsound
    rcases happlier with ⟨rfl, rfl⟩ | ⟨c, hc, rfl, rfl⟩
    · exact ⟨fun b hb => Or.inl (hshard b hb ▸ hbody), h.disk, h.waiting, h.saves, trivial, fun hmem => absurd hmem (hnowrap hbusy),
        fun hn => absurd hn (hread hbusy), h.seed⟩
    · exact ⟨fun b hb => Or.inl (hshard b hb ▸ hbody), h.disk, h.waiting, h.saves, hcursor c hc, fun hmem => absurd hmem (hnowrap hbusy),
        fun hn => absurd hn (hread hbusy), h.seed⟩
  | refreshed hs hshard _ =>
    have hbusy : s.applier ≠ .idle := by
      rw [hs]
      exact nofun
    rw [hs] at hsound
    exact ⟨fun b hb => Or.inl (hshard b hb ▸ hsound), h.disk, h.waiting, h.saves, trivial, fun hmem => absurd hmem (hnowrap hbusy),
      fun hn => absurd hn (hread hbusy), h.seed⟩

theorem WrapInv.hold (h : WrapInv s) (shard : Shard) (saves loads : List Body) (disk : Disk)
    (hshard : ∀ body, shard.body = some body → Current s body ∨ Reloading s) (hcursor : disk.cursor = s.disk.cursor) :
    WrapInv { s with shard, saves, loads, disk } := by
  refine ⟨hshard, ?_, h.waiting, h.saves, h.applier, h.wraps, h.unread, h.seed⟩
  dsimp only
  rw [hcursor]
  exact h.disk

/-- A process starts with a body that no wrap has come after, and with a cursor only of its own journal. -/
theorem WrapInv.start (hlast : s.loop.last_journal_id = none) (hsink : s.sink = {}) (hidle : s.applier = .idle)
    (hshard : ∀ body, s.shard.body = some body → body.wraps = s.wraps) : WrapInv s := by
  have hnone : ∀ id, s.loop.last_journal_id ≠ some id := by
    rw [hlast]
    exact nofun
  refine ⟨fun body hbody => Or.inl ⟨hshard body hbody, fun id hid => absurd hid (hnone id)⟩, fun id hid => absurd hid (hnone id),
    ?_, ?_, ?_, ?_, fun _ => ⟨by rw [hsink], by rw [hsink], hidle⟩, fun _ => hlast⟩
  · rw [hsink]
    exact nofun
  · rw [hsink]
    exact nofun
  · rw [hidle]
    trivial
  · rw [hsink]
    exact nofun

/-- The body of a new process was read after the last wrap. -/
theorem load_live_drive_wraps {volume : Volume} {disk : Disk} {wraps : Nat} {answers : Answers}
    (hresumes : Resumes volume disk answers → ∀ cache, disk.cache = some cache → cache.wraps = wraps)
    (hrebuilds : ¬ Resumes volume disk answers → answers.Complete volume disk) :
    (load_live_drive volume disk wraps answers).original.wraps = (load_live_drive volume disk wraps answers).wraps := by
  unfold load_live_drive
  split
  · rename_i hjournal
    split
    · rename_i cache hfast hcache
      exact hresumes ⟨hjournal, hfast, by rw [hcache]; exact Option.some_ne_none _⟩ cache hcache
    · rename_i hother
      refine ((hrebuilds fun ⟨_, hfast, hsome⟩ => ?_).read).2.2
      obtain ⟨cache, hcache⟩ := Option.ne_none_iff_exists'.mp hsome
      exact hother cache hfast hcache
  · rename_i hnone
    exact ((hrebuilds fun hresumes => hnone hresumes.1).read).2.2

/-- No step of an unbroken run puts a batch of the old journal behind a wrap. -/
theorem WrapInv.step {env : Env} {s' : Daemon} {event : Event} (h : WrapInv s) (hok : Unbroken s event)
    (hstep : step env s event = some s') : WrapInv s' := by
  cases event with
  | write content =>
    cases hstep
    exact ⟨h.shard, h.disk, h.waiting, h.saves, h.applier, h.wraps, h.unread, h.seed⟩
  | truncate first_usn =>
    obtain ⟨_, hvolume⟩ := Option.ite_none_right_eq_some.mp hstep
    cases hvolume
    exact ⟨h.shard, h.disk, h.waiting, h.saves, h.applier, h.wraps, h.unread, h.seed⟩
  | recreate first_usn =>
    cases hstep
    exact ⟨h.shard, h.disk, h.waiting, h.saves, h.applier, h.wraps, h.unread, h.seed⟩
  | poll changes aged settled_clock =>
    obtain ⟨hready, hturn⟩ := Option.ite_none_right_eq_some.mp hstep
    rw [Bool.and_eq_true, Option.isNone_iff_eq_none] at hready
    cases hturn
    exact h.turn hready.1 changes aged settled_clock hok
  | take reloaded => exact h.dispatch_msg hok hstep
  | swap => exact h.apply_journal_body hstep
  | store =>
    simp only [daemon.step] at hstep
    split at hstep
    · next hs =>
      cases hstep
      have hsound := h.applier
      rw [hs] at hsound
      refine ⟨?_, hsound, h.waiting, h.saves, trivial, ?_, ?_, h.seed⟩
      · intro b hb
        rcases h.shard b hb with hcurrent | hmem | ⟨_, hrefreshed⟩
        · exact Or.inl hcurrent
        · exact Or.inr (Or.inl hmem)
        · cases hs.symm.trans hrefreshed
      · intro hmem
        cases hs.symm.trans (h.wraps hmem).1
      · intro hnone
        cases hs.symm.trans (h.unread hnone).2.2
    · cases hstep
  | written _ | write_failed _ | demote _ | load _ | snapshot | join _ =>
    obtain ⟨shard, saves, loads, disk, rfl, hcursor, -, hkept, -⟩ := moved_bodies rfl hstep
    refine h.hold shard saves loads disk (fun body hbody => ?_) hcursor
    rcases hkept body hbody with hold | ⟨_, _, heq, _⟩
    · exact h.shard body hold
    · cases heq
  | install i hot =>
    obtain ⟨shard, saves, loads, disk, rfl, hcursor, -, hkept, -⟩ := moved_bodies rfl hstep
    refine h.hold shard saves loads disk (fun body hbody => ?_) hcursor
    rcases hkept body hbody with hold | ⟨_, _, heq, hloaded⟩
    · exact h.shard body hold
    · cases heq
      exact hok body hloaded
  | restart answers =>
    cases hstep
    obtain ⟨hshard, -, -, hidle, hsink⟩ := load_live_drive_fresh s.volume s.disk s.wraps answers
    have hlast : (load_live_drive s.volume s.disk s.wraps answers).loop.last_journal_id = none := by
      unfold load_live_drive
      split
      · split <;> rfl
      · rfl
    refine .start hlast hsink hidle ?_
    rw [hshard]
    rintro body ⟨⟩
    exact load_live_drive_wraps hok.1 hok.2
  | seed =>
    obtain ⟨cursor, hcursor, rfl⟩ := Option.map_eq_some_iff.mp hstep
    have hnone : s.loop.last_journal_id = none := h.seed (by rw [hcursor]; rfl)
    refine ⟨h.shard, ?_, h.waiting, h.saves, h.applier, h.wraps, h.unread, (by rintro ⟨⟩)⟩
    intro id hsome
    cases hnone.symm.trans hsome

/-- In every run whose wraps survive, every wrap is a clean restart: the body is of the new journal or
about to be reloaded, no batch meets a body of another journal, and the stored cursor starts over. -/
theorem unbroken_run_clean_restart (env : Env) (volume : Volume) (rebuilt : DriveCompactIndex) (events : List Event) {s : Daemon}
    (hmeets : Meets (step env) Unbroken (boot volume rebuilt) events)
    (hrun : run_events (step env) (boot volume rebuilt) events = some s) : CleanRestart s := by
  have hboot : WrapInv (boot volume rebuilt) := by
    refine .start rfl rfl rfl ?_
    rintro body ⟨⟩
    rfl
  exact (run_invariant (fun _ _ _ h hok hstep => WrapInv.step h hok hstep) hboot hmeets hrun).cleanRestart

/-- The journal is replaced, the body reloaded, and a change of the new journal applied. -/
def survived_wrap : List Event :=
  start ++ [.write fun _ => none, .poll [parent_created] false true, .take none, .swap, .recreate 0, .poll [] false false,
    .take (some { full := root_body, updated := root_body }), .swap, .write fun _ => none, .poll [parent_created] false true, .take none]

theorem survived_wrap_meets : Meets (step sample_env) Unbroken (boot empty_volume root_body) survived_wrap := by
  refine .cons trivial rfl ?_
  refine .cons trivial rfl ?_
  refine .cons trivial rfl ?_
  refine .cons ⟨by decide, nofun, fun _ => Nat.zero_le _, fun _ => ⟨Or.inl rfl, ?_⟩⟩ rfl ?_
  · intro body hbody
    cases hbody
    rfl
  refine .cons nofun rfl ?_
  refine .cons trivial rfl ?_
  refine .cons trivial rfl ?_
  refine .cons ⟨by decide, fun _ => ⟨rfl, rfl⟩, nofun, nofun⟩ rfl ?_
  refine .cons (fun _ _ => ⟨rfl, _, rfl, ?_⟩) rfl ?_
  · -- the cached index is of the old journal, so the drive is read whole
    intro cached hcached
    cases hcached
    exact ⟨rfl, fun _ => ⟨nofun, fun _ hne => absurd rfl hne⟩⟩
  refine .cons trivial rfl ?_
  refine .cons trivial rfl ?_
  refine .cons ⟨by decide, nofun, fun _ => Nat.zero_le _, nofun⟩ rfl ?_
  exact .cons nofun rfl trivial

theorem unbroken_run_clean_restart_wrap :
    ∃ s, run_events (step sample_env) (boot empty_volume root_body) survived_wrap = some s ∧ s.wraps = 1 ∧ s.applier.applying = true ∧
      CleanRestart s :=
  ⟨_, rfl, rfl, rfl, unbroken_run_clean_restart sample_env empty_volume root_body survived_wrap survived_wrap_meets rfl⟩

/-- The batch of a change of the old journal is in the channel when the wrap is seen, and the applier
takes it afterwards. -/
theorem queued_batch_outlives_wrap :
    ∃ s, run_events (step sample_env) (boot empty_volume root_body)
        (start ++ [.write fun _ => none, .poll [parent_created] false true, .recreate 0, .poll [] false false, .take none]) = some s ∧
      ¬ CleanRestart s := by
  refine ⟨_, rfl, ?_⟩
  intro h
  exact absurd (h.batch _ _ _ rfl _ (List.mem_singleton_self _)).1 (by decide)

end uffs.daemon
