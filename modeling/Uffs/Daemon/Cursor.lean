import Uffs.Daemon.Bodies
import Uffs.Usn.Coalesce

open uffs.lib uffs.bloom uffs.compact uffs.usn

namespace uffs.daemon

/-- Every change below the cursor on disk is reflected in the compact cache on disk. -/
def CursorBehind (env : Env) (s : Daemon) : Prop :=
  ∀ usn ∈ s.volume.usns, usn < s.disk.cursor.value →
    ∃ cache, s.disk.cache = some cache ∧ cache.Reflects env ⟨s.volume.journal_id, usn⟩

/-- Every change of the volume below the cursor is among those of the cache. -/
def Behind (volume : Volume) (disk : Disk) : Prop :=
  ∀ usn ∈ volume.usns, usn < disk.cursor.value → ∃ cache, disk.cache = some cache ∧ ⟨volume.journal_id, usn⟩ ∈ cache.marks

/-- The changes this process has taken in: those of the body it has loaded, and those handled since. -/
def taken (s : Daemon) : List Mark := s.original.marks ++ marks_of s.handled

/-- The body reflects every change of the volume's journal that the process has taken in. -/
def UpToDate (s : Daemon) (body : Body) : Prop :=
  ∀ mark ∈ taken s, mark.journal_id = s.volume.journal_id → mark ∈ body.marks

/-- A read that removes the compact cache finds no change below the stored cursor. -/
def Spares (s : Daemon) (answers : Answers) : Prop :=
  (∀ usn ∈ s.volume.usns, s.disk.cursor.value ≤ usn) ∨
    (read_index_cached s.volume s.wraps s.disk answers).2.cache = s.disk.cache

/-- A restart serves the compact cache and resumes at the stored cursor. -/
def Resumes (volume : Volume) (disk : Disk) (answers : Answers) : Prop :=
  answers.journal = true ∧ decide_strategy disk.cursor.value volume.first_usn volume.next_usn = .FastFromCompactCache ∧
    disk.cache ≠ none

/-- The steps that keep the cursor behind the cache. -/
def Lockstep (s : Daemon) : Event → Prop
  -- no change is written below a stored cursor of an older journal
  | .write _ => s.disk.cursor.journal_id = s.volume.journal_id ∨ s.disk.cursor.value ≤ s.volume.next_usn
  -- a journal is not read from the position of an older one
  | .poll _ _ _ => s.loop.cursor.journal_id = s.volume.journal_id ∨ s.loop.cursor.value = 0 ∨
      ∃ prev_id, s.loop.last_journal_id = some prev_id ∧ s.volume.journal_id ≠ 0 ∧ s.volume.journal_id ≠ prev_id
  -- a save finds changes in its buffer
  | .take reloaded => (∀ batches cursor rest, s.sink.queue = .save batches cursor :: rest → changes_of batches ≠ []) ∧
      ∀ rest answers, s.sink.queue = .wrap :: rest → reloaded = some answers → Spares s answers
  | .load refreshed => ∀ answers, refreshed = some answers → Spares s answers
  -- a rebuild gets every change
  | .restart answers => ¬ Resumes s.volume s.disk answers → answers.Complete s.volume s.disk ∧ Spares s answers
  -- a reloaded or promoted body is up to date
  | .swap => ∀ body, s.applier = .refreshed body → UpToDate s body
  | .install i _ => ∀ body, s.loads[i]? = some body → UpToDate s body
  -- the patched body is on disk before its cursor, and belongs to the journal of the volume
  | .store => ∀ body cursor, s.applier = .swapped body cursor → cursor.journal_id = s.volume.journal_id ∧
      ∃ cache, s.disk.cache = some cache ∧ ∀ mark ∈ body.marks, mark ∈ cache.marks
  | .seed => ∀ cursor, s.seed = some cursor → cursor.journal_id = s.volume.journal_id ∧
      ∃ cache, s.disk.cache = some cache ∧ ∀ mark ∈ s.original.marks, mark ∈ cache.marks
  -- an older save does not end after a newer one
  | .written i => ∀ body cache, s.saves[i]? = some body → s.disk.cache = some cache → ∀ mark ∈ cache.marks, mark ∈ body.marks
  | _ => True

/-- The cursor is not ahead of the journal it was read from. -/
def Dated (volume : Volume) (cursor : Cursor) : Prop :=
  cursor.journal_id ≤ volume.journal_id ∧ (cursor.journal_id = volume.journal_id → cursor.value ≤ volume.next_usn)

/-- The changes below a cursor of the volume's journal are among the marks. -/
def Covered (volume : Volume) (marks : List Mark) (cursor : Cursor) : Prop :=
  cursor.journal_id = volume.journal_id → ∀ usn ∈ volume.usns, usn < cursor.value → ⟨volume.journal_id, usn⟩ ∈ marks

/-- The changes of the messages in the channel. -/
def queue_marks : List ApplyMsg → List Mark
  | [] => []
  | .save batches _ :: rest => marks_of batches ++ queue_marks rest
  | .apply batches :: rest => marks_of batches ++ queue_marks rest
  | .wrap :: rest => queue_marks rest

/-- When the messages are handled in turn, each save has the changes below its cursor taken in. -/
def Backed (volume : Volume) : List Mark → List ApplyMsg → Prop
  | _, [] => True
  | base, .save batches cursor :: rest =>
    (Dated volume cursor ∧ Covered volume (base ++ marks_of batches) cursor) ∧ Backed volume (base ++ marks_of batches) rest
  | base, .apply batches :: rest => Backed volume (base ++ marks_of batches) rest
  | base, .wrap :: rest => Backed volume base rest

/-- The batch the applier has in hand. -/
def Applier.batches : Applier → List Batch
  | .patched _ batches _ => batches
  | _ => []

/-- What the applier has in hand fits what has been taken in. -/
def Applier.Fits (s : Daemon) : Applier → Prop
  | .patched body batches cursor =>
    (∀ mark ∈ taken s ++ marks_of batches, mark.journal_id = s.volume.journal_id → mark ∈ body.marks) ∧
      ∀ c, cursor = some c → Dated s.volume c ∧ Covered s.volume (taken s ++ marks_of batches) c
  | .swapped body cursor => Dated s.volume cursor ∧ Covered s.volume body.marks cursor
  | _ => True

/-- Everything polled: taken in, in hand, queued or buffered. -/
def known (s : Daemon) : List Mark :=
  taken s ++ marks_of s.applier.batches ++ queue_marks s.sink.queue ++ marks_of s.sink.pending

/-- No mark is of a journal the volume has not had yet. -/
def Known (volume : Volume) (marks : List Mark) : Prop := ∀ mark ∈ marks, mark.journal_id ≤ volume.journal_id

structure CursorInv (s : Daemon) : Prop where
  behind : Behind s.volume s.disk
  disk : Dated s.volume s.disk.cursor
  marks : Known s.volume (known s)
  full : ∀ batch ∈ s.sink.pending, batch.changes ≠ []
  body : ∀ body, s.shard.body = some body → UpToDate s body
  applier : s.applier.Fits s
  queue : Backed s.volume (taken s ++ marks_of s.applier.batches) s.sink.queue
  loop : Dated s.volume s.loop.cursor ∧ Covered s.volume (known s) s.loop.cursor
  seed : ∀ cursor, s.seed = some cursor → Dated s.volume cursor ∧ Covered s.volume s.original.marks cursor

/-- How a volume changes: its journal grows at the end, or is replaced by one with a new identifier. -/
def Grows (volume volume' : Volume) : Prop :=
  volume.journal_id ≤ volume'.journal_id ∧ (volume.journal_id = volume'.journal_id → volume.next_usn ≤ volume'.next_usn ∧
    ∀ usn ∈ volume'.usns, usn ∈ volume.usns ∨ volume.next_usn ≤ usn)

variable {cursor : Cursor} {volume : Volume} {queue : List ApplyMsg} {s : Daemon} {volume volume' : Volume}

theorem Dated.grows (h : Dated volume cursor) (hgrows : Grows volume volume') :
    Dated volume' cursor := by
  refine ⟨h.1.trans hgrows.1, ?_⟩
  intro hid
  have hle := hgrows.1
  have hsame : cursor.journal_id = volume.journal_id := le_antisymm h.1 (hid ▸ hle)
  exact (h.2 hsame).trans (hgrows.2 (hsame.symm.trans hid)).1

theorem Covered.grows {marks : List Mark} (hdated : Dated volume cursor)
    (h : Covered volume marks cursor) (hgrows : Grows volume volume') : Covered volume' marks cursor := by
  intro hid usn husn hlt
  have hle := hgrows.1
  have hsame : cursor.journal_id = volume.journal_id := le_antisymm hdated.1 (hid ▸ hle)
  rw [← hid, hsame]
  rcases (hgrows.2 (hsame.symm.trans hid)).2 usn husn with hold | hnew
  · exact h hsame usn hold hlt
  · have := hdated.2 hsame
    omega

theorem Covered.mono {marks marks' : List Mark} (h : Covered volume marks cursor)
    (hsub : ∀ mark ∈ marks, mark.journal_id = volume.journal_id → mark ∈ marks') : Covered volume marks' cursor :=
  fun hid usn husn hlt => hsub _ (h hid usn husn hlt) rfl

theorem Backed.mono {base base' : List Mark} (h : Backed volume base queue) (hsub : ∀ mark ∈ base, mark ∈ base') :
    Backed volume base' queue := by
  have hgrow : ∀ (batches : List Batch) (base base' : List Mark), (∀ mark ∈ base, mark ∈ base') →
      ∀ mark ∈ base ++ marks_of batches, mark ∈ base' ++ marks_of batches := by
    intro batches base base' hsub mark hmark
    rw [List.mem_append] at hmark ⊢
    exact hmark.imp_left (hsub mark)
  induction queue generalizing base base' with
  | nil => trivial
  | cons msg rest ih =>
    cases msg with
    | save batches cursor =>
      exact ⟨⟨h.1.1, h.1.2.mono fun mark hmark _ => hgrow batches base base' hsub mark hmark⟩,
        ih h.2 (hgrow batches base base' hsub)⟩
    | apply batches => exact ih h (hgrow batches base base' hsub)
    | wrap => exact ih h hsub

theorem Backed.append {base : List Mark} {msg : ApplyMsg} (h : Backed volume base queue)
    (hmsg : Backed volume (base ++ queue_marks queue) [msg]) : Backed volume base (queue ++ [msg]) := by
  induction queue generalizing base with
  | nil => simpa [queue_marks] using hmsg
  | cons head rest ih =>
    cases head with
    | save batches cursor => exact ⟨h.1, ih h.2 (by simpa [queue_marks] using hmsg)⟩
    | apply batches => exact ih h (by simpa [queue_marks] using hmsg)
    | wrap => exact ih h hmsg

theorem queue_marks_append (queue queue' : List ApplyMsg) : queue_marks (queue ++ queue') = queue_marks queue ++ queue_marks queue' := by
  induction queue with
  | nil => rfl
  | cons msg rest ih => cases msg <;> simp [queue_marks, ih]

theorem marks_of_append (batches batches' : List Batch) : marks_of (batches ++ batches') = marks_of batches ++ marks_of batches' :=
  List.flatMap_append

/-- The merged run and what is left hold the changes of the messages. -/
theorem coalesce_apply_run_marks (queue : List ApplyMsg) :
    queue_marks queue = marks_of (coalesce_apply_run queue).1 ++ queue_marks (coalesce_apply_run queue).2 := by
  induction queue with
  | nil => rfl
  | cons msg rest ih =>
    cases msg with
    | save batches cursor => rfl
    | wrap => rfl
    | apply batches => rw [coalesce_apply_run, marks_of_append, queue_marks, ih, List.append_assoc]

theorem coalesce_apply_run_backed {base : List Mark} (h : Backed volume base queue) :
    Backed volume (base ++ marks_of (coalesce_apply_run queue).1) (coalesce_apply_run queue).2 := by
  induction queue generalizing base with
  | nil => trivial
  | cons msg rest ih =>
    cases msg with
    | save batches cursor =>
      rw [coalesce_apply_run, marks_of, List.flatMap_nil, List.append_nil]
      exact h
      exact nofun
    | apply batches =>
      rw [coalesce_apply_run, marks_of_append, ← List.append_assoc]
      exact ih h
    | wrap =>
      rw [coalesce_apply_run, marks_of, List.flatMap_nil, List.append_nil]
      exact h
      exact nofun

theorem Backed.grows {base : List Mark} (h : Backed volume base queue)
    (hgrows : Grows volume volume') : Backed volume' base queue := by
  induction queue generalizing base with
  | nil => trivial
  | cons msg rest ih =>
    cases msg with
    | save batches cursor => exact ⟨⟨h.1.1.grows hgrows, h.1.2.grows h.1.1 hgrows⟩, ih h.2⟩
    | apply batches => exact ih h
    | wrap => exact ih h

theorem taken_subset_known {mark : Mark} (h : mark ∈ taken s) : mark ∈ known s := by
  simp [known, h]

/-- The volume may change under the daemon, as long as the cursor on disk stays behind the cache. -/
theorem CursorInv.grows (h : CursorInv s) (hgrows : Grows s.volume volume) (hbehind : Behind volume s.disk) :
    CursorInv { s with volume } := by
  have hknown : ∀ marks, Known s.volume marks → Known volume marks :=
    fun marks hmarks mark hmark => (hmarks mark hmark).trans hgrows.1
  -- a mark of the new journal is one of the old journal
  have hsame : ∀ mark ∈ known s, mark.journal_id = volume.journal_id → mark.journal_id = s.volume.journal_id :=
    fun mark hmark hid => le_antisymm (h.marks mark hmark) (hid ▸ hgrows.1)
  refine ⟨hbehind, h.disk.grows hgrows, hknown _ h.marks, h.full, ?_, ?_,
    h.queue.grows hgrows, ⟨h.loop.1.grows hgrows, h.loop.2.grows h.loop.1 hgrows⟩, ?_⟩
  · intro body hbody mark hmark hid
    exact h.body body hbody mark hmark (hsame mark (taken_subset_known hmark) hid)
  · have happlier := h.applier
    cases hs : s.applier with
    | idle => trivial
    | refreshed body => trivial
    | swapped body cursor =>
      rw [hs] at happlier
      exact ⟨happlier.1.grows hgrows, happlier.2.grows happlier.1 hgrows⟩
    | patched body batches cursor =>
      rw [hs] at happlier
      refine ⟨?_, ?_⟩
      · intro mark hmark hid
        refine happlier.1 mark hmark (hsame mark ?_ hid)
        rw [known, hs]
        simp only [List.mem_append] at hmark ⊢
        exact Or.inl (Or.inl hmark)
      · intro c hc
        have hcursor := happlier.2 c hc
        exact ⟨hcursor.1.grows hgrows, hcursor.2.grows hcursor.1 hgrows⟩
  · intro cursor hcursor
    have hseed := h.seed cursor hcursor
    exact ⟨hseed.1.grows hgrows, hseed.2.grows hseed.1 hgrows⟩

theorem CursorInv.write (h : CursorInv s) (content : UInt64 → Option (UInt64 × Option Seen))
    (hcursor : s.disk.cursor.journal_id = s.volume.journal_id ∨ s.disk.cursor.value ≤ s.volume.next_usn) :
    CursorInv { s with volume := s.volume.write content } := by
  have hbound : s.disk.cursor.value ≤ s.volume.next_usn := hcursor.elim h.disk.2 id
  refine h.grows ⟨le_refl _, fun _ => ⟨Nat.le_succ _, ?_⟩⟩ ?_
  · intro usn husn
    rcases List.mem_append.mp husn with hold | hnew
    · exact Or.inl hold
    · exact Or.inr (List.mem_singleton.mp hnew).ge
  · intro usn husn hlt
    rcases List.mem_append.mp husn with hold | hnew
    · exact h.behind usn hold hlt
    · rw [List.mem_singleton.mp hnew] at hlt
      exact absurd hlt (by simpa using hbound)

theorem CursorInv.truncate (h : CursorInv s) (first_usn : Nat) :
    CursorInv { s with volume := { s.volume with first_usn } } :=
  h.grows ⟨le_refl _, fun _ => ⟨le_refl _, fun _ husn => Or.inl husn⟩⟩ h.behind

theorem CursorInv.recreate (h : CursorInv s) (first_usn : Nat) :
    CursorInv { s with volume := s.volume.recreate first_usn } := by
  refine h.grows ⟨Nat.le_succ _, fun hid => absurd hid (Nat.lt_succ_self _).ne⟩ ?_
  intro usn husn
  exact absurd husn List.not_mem_nil

theorem CursorInv.turn_loop (h : CursorInv s) (loop : JournalLoop)
    (hloop : Dated s.volume loop.cursor ∧ Covered s.volume (known s) loop.cursor) (polled : List Batch) (wraps : Nat) :
    CursorInv { s with loop, polled, wraps } :=
  ⟨h.behind, h.disk, h.marks, h.full, h.body, h.applier, h.queue, hloop, h.seed⟩

theorem known_accept (s : Daemon) (batch : Batch) :
    known { s with sink := s.sink.accept batch } = known s ++ batch.marks := by
  simp [known, taken, RegistryPatchSink.accept, marks_of]

theorem CursorInv.accept (h : CursorInv s) {batch : Batch} (hfull : batch.changes ≠ []) (hmarks : Known s.volume batch.marks) :
    CursorInv { s with sink := s.sink.accept batch } := by
  refine ⟨h.behind, h.disk, ?_, ?_, h.body, h.applier, h.queue, ⟨h.loop.1, ?_⟩, h.seed⟩
  · intro mark hmark
    rw [known_accept] at hmark
    exact (List.mem_append.mp hmark).elim (h.marks mark) (hmarks mark)
  · intro b hb
    rcases List.mem_append.mp hb with hold | hnew
    · exact h.full b hold
    · rw [List.mem_singleton.mp hnew]
      exact hfull
  · rw [known_accept]
    exact h.loop.2.mono fun mark hmark _ => List.mem_append_left _ hmark

theorem known_trigger_save (s : Daemon) (cursor : Cursor) :
    known { s with sink := s.sink.trigger_save cursor } = known s := by
  simp [known, taken, RegistryPatchSink.trigger_save, queue_marks_append, queue_marks, marks_of]

section

variable (h : CursorInv s)

include h

theorem CursorInv.trigger_save : CursorInv { s with sink := s.sink.trigger_save s.loop.cursor } := by
  refine ⟨h.behind, h.disk, ?_, nofun, h.body, h.applier, h.queue.append ⟨⟨h.loop.1, h.loop.2⟩, trivial⟩, ⟨h.loop.1, ?_⟩, h.seed⟩
  · rw [known_trigger_save]
    exact h.marks
  · rw [known_trigger_save]
    exact h.loop.2

/-- A buffer without changes is empty. -/
theorem CursorInv.pending_eq_nil (hempty : changes_of s.sink.pending = []) : s.sink.pending = [] := by
  refine List.eq_nil_iff_forall_not_mem.mpr ?_
  intro batch hbatch
  exact h.full batch hbatch (List.flatMap_eq_nil_iff.mp hempty batch hbatch)

theorem CursorInv.trigger_apply : CursorInv { s with sink := s.sink.trigger_apply } := by
  unfold RegistryPatchSink.trigger_apply
  split
  · rename_i hempty
    have hnil := h.pending_eq_nil (List.isEmpty_iff.mp hempty)
    rw [← hnil]
    exact h
  · have hknown : known { s with sink := { pending := [], queue := s.sink.queue ++ [.apply s.sink.pending] } } = known s := by
      simp [known, taken, queue_marks_append, queue_marks, marks_of]
    refine ⟨h.behind, h.disk, ?_, nofun, h.body, h.applier, h.queue.append trivial, ⟨h.loop.1, ?_⟩, h.seed⟩
    · rw [hknown]
      exact h.marks
    · rw [hknown]
      exact h.loop.2

theorem CursorInv.fire_due_cadence (aged settled : Bool) :
    CursorInv { s with loop := (fire_due_cadence s.loop s.sink aged settled).1, sink := (fire_due_cadence s.loop s.sink aged settled).2 } := by
  unfold daemon.fire_due_cadence
  split
  · exact h.trigger_save.turn_loop { s.loop with events_since_save := 0, first_change_at := false } h.trigger_save.loop s.polled s.wraps
  · split
    · exact h.trigger_apply.turn_loop { s.loop with first_change_at := false } h.trigger_apply.loop s.polled s.wraps
    · exact h

theorem CursorInv.journal_wrapped (loop : JournalLoop) (wraps : Nat) (hcursor : loop.cursor = ⟨0, s.volume.journal_id⟩) :
    CursorInv { s with sink := s.sink.journal_wrapped, loop, wraps, disk := { s.disk with cursor := ⟨0, s.volume.journal_id⟩ } } := by
  have hdated : Dated s.volume ⟨0, s.volume.journal_id⟩ := ⟨le_refl _, fun _ => Nat.zero_le _⟩
  refine ⟨fun _ _ hlt => absurd hlt (Nat.not_lt_zero _), hdated, ?_, nofun, h.body, h.applier, h.queue.append trivial, ?_, h.seed⟩
  · intro mark hmark
    have hknown : mark ∈ taken s ++ marks_of s.applier.batches ++ queue_marks s.sink.queue := by
      simpa [known, taken, RegistryPatchSink.journal_wrapped, queue_marks_append, queue_marks, marks_of] using hmark
    exact h.marks mark (List.mem_append_left _ hknown)
  · rw [hcursor]
    exact ⟨hdated, fun _ _ _ hlt => absurd hlt (Nat.not_lt_zero _)⟩

/-- The changes below the cursor a poll leaves have been polled. -/
theorem CursorInv.poll_covered {changes : List FileChange}
    (hread : changes.isEmpty = (unread s.volume s.loop.cursor.value).isEmpty)
    (hcursor : s.loop.cursor.journal_id = s.volume.journal_id ∨ s.loop.cursor.value = 0) :
    Covered s.volume (known s ++ (if changes.isEmpty then [] else (unread s.volume s.loop.cursor.value).map (Mark.mk s.volume.journal_id)))
      ⟨s.volume.next_usn, s.volume.journal_id⟩ := by
  intro _ usn husn _
  rw [List.mem_append]
  by_cases hlt : usn < s.loop.cursor.value
  · refine Or.inl ?_
    rcases hcursor with hid | hzero
    · exact h.loop.2 hid usn husn hlt
    · omega
  · have hmem : usn ∈ unread s.volume s.loop.cursor.value := by
      simp only [unread, List.mem_filter, decide_eq_true_eq]
      exact ⟨husn, by omega⟩
    refine Or.inr ?_
    rw [hread, if_neg (by simpa using List.ne_nil_of_mem hmem)]
    exact List.mem_map_of_mem hmem

theorem CursorInv.process_tick (loop : JournalLoop) {batch : Batch} (hmarks : Known s.volume batch.marks)
    (hempty : batch.changes = [] → batch.marks = [])
    (hloop : Dated s.volume loop.cursor ∧ Covered s.volume (known s ++ batch.marks) loop.cursor) (polled : List Batch)
    (wraps : Nat) (aged settled : Bool) :
    CursorInv { s with
      loop := (process_tick loop s.sink batch aged settled).1, sink := (process_tick loop s.sink batch aged settled).2, polled, wraps } := by
  unfold daemon.process_tick
  split
  · rename_i hchanges
    have hcovered : Covered s.volume (known s) loop.cursor := by
      simpa [hempty (List.isEmpty_iff.mp hchanges)] using hloop.2
    exact (h.turn_loop loop ⟨hloop.1, hcovered⟩ polled wraps).fire_due_cadence aged settled
  · rename_i hchanges
    have haccept := h.accept (by simpa using hchanges) hmarks
    have hcovered : Covered s.volume (known { s with sink := s.sink.accept batch }) loop.cursor := by
      rw [known_accept]
      exact hloop.2
    have hturned := haccept.turn_loop
      { loop with events_since_save := loop.events_since_save + batch.changes.length, first_change_at := true } ⟨hloop.1, hcovered⟩ polled wraps
    exact hturned.fire_due_cadence aged settled

end

theorem poll_journal_id (volume : Volume) (changes : List FileChange) (cursor : Nat) :
    (WindowsJournalSource.poll volume changes cursor).journal_id = volume.journal_id := by
  unfold WindowsJournalSource.poll
  split <;> rfl

/-- A poll moves the cursor over what it read, and what it read is pending or queued. -/
theorem CursorInv.turn (h : CursorInv s) {changes : List FileChange}
    (hread : changes.isEmpty = (unread s.volume s.loop.cursor.value).isEmpty) (aged settled : Bool)
    (hok : Lockstep s (.poll changes aged settled)) : CursorInv (JournalLoop.turn s changes aged settled) := by
  unfold JournalLoop.turn
  simp only [poll_journal_id]
  split
  · exact h.journal_wrapped _ _ rfl
  · rename_i hsame
    have hcursor : s.loop.cursor.journal_id = s.volume.journal_id ∨ s.loop.cursor.value = 0 := by
      rcases hok with hid | hzero | ⟨prev_id, hprev, hnonzero, hne⟩
      · exact Or.inl hid
      · exact Or.inr hzero
      · rw [hprev] at hsame
        simp [hnonzero, hne] at hsame
    have hmarks : ∀ read : List Nat, Known s.volume (read.map (Mark.mk s.volume.journal_id)) := by
      intro read mark hmark
      obtain ⟨usn, _, rfl⟩ := List.mem_map.mp hmark
      exact le_refl _
    unfold WindowsJournalSource.poll
    split
    · -- the cursor is before the journal: nothing is read and the loop starts over
      refine h.process_tick _ (fun _ hmark => absurd hmark List.not_mem_nil) (fun _ => rfl) ⟨⟨le_refl _, fun _ => Nat.zero_le _⟩, ?_⟩ _ _ aged settled
      exact fun _ _ _ hlt => absurd hlt (Nat.not_lt_zero _)
    · refine h.process_tick _ ?_ ?_ ⟨⟨le_refl _, fun _ => le_refl _⟩, h.poll_covered hread hcursor⟩ _ _ aged settled
      · dsimp only
        split
        · exact nofun
        · exact hmarks _
      · intro hempty
        exact if_pos (List.isEmpty_iff.mpr hempty)

theorem Known.append {marks marks' : List Mark} (h : Known volume marks) (h' : Known volume marks') :
    Known volume (marks ++ marks') :=
  fun mark hmark => (List.mem_append.mp hmark).elim (h mark) (h' mark)

theorem known_usns (volume : Volume) (usns : List Nat) : Known volume (usns.map (Mark.mk volume.journal_id)) := by
  intro mark hmark
  obtain ⟨usn, _, rfl⟩ := List.mem_map.mp hmark
  exact le_refl _

theorem known_read (volume : Volume) (wraps : Nat) (index : DriveCompactIndex) : Known volume (Body.read volume wraps index).marks := by
  rw [Body.marks_read]
  exact known_usns volume volume.usns

/-- What a read gives has no change that is not on the volume or in the cached index. -/
theorem readable_known (h : Held (fun body => Known s.volume body.marks) s) (answers : Answers) :
    Readable (fun body => Known s.volume body.marks) s answers := by
  refine ⟨known_read _ _ _, fun cached hcached => ⟨h.index_cache cached hcached, fun start_usn => ?_⟩⟩
  dsimp only
  rw [Body.marks_updated]
  exact (h.index_cache cached hcached).append (known_usns _ _)

/-- The idle applier takes a batch off the channel, whose messages hold it and what is left. -/
theorem CursorInv.apply_to_body (h : CursorInv s) (env : Env) (hidle : s.applier = .idle) {batches : List Batch}
    {cursor : Option Cursor} {rest : List ApplyMsg}
    (hmarks : queue_marks s.sink.queue = marks_of batches ++ queue_marks rest)
    (hcursor : ∀ c, cursor = some c → Dated s.volume c ∧ Covered s.volume (taken s ++ marks_of batches) c)
    (hrest : Backed s.volume (taken s ++ marks_of batches) rest) :
    CursorInv (apply_to_body env { s with sink := { s.sink with queue := rest } } batches cursor) := by
  have hknown : known s = taken s ++ marks_of batches ++ queue_marks rest ++ marks_of s.sink.pending := by
    rw [known, hidle, hmarks]
    simp [Applier.batches, marks_of]
  unfold daemon.apply_to_body
  cases hbody : s.shard.body with
  | none =>
    have hsame : known { s with sink := { s.sink with queue := rest }, handled := s.handled ++ batches } = known s := by
      rw [hknown]
      simp [known, taken, hidle, Applier.batches, marks_of]
    refine ⟨h.behind, h.disk, ?_, h.full, ?_, ?_, ?_, ⟨h.loop.1, ?_⟩, h.seed⟩
    · rw [hsame]
      exact h.marks
    · intro body hsome
      cases hbody.symm.trans hsome
    · rw [hidle]
      trivial
    · simpa [taken, hidle, Applier.batches, marks_of] using hrest
    · rw [hsame]
      exact h.loop.2
  | some body =>
    dsimp only
    have hbody' := h.body body hbody
    have hsame : known { s with
        sink := { s.sink with queue := rest }
        applier := .patched (body.apply_usn_patch env batches cursor.isSome) batches cursor } = known s := by
      rw [hknown]
      simp [known, taken, Applier.batches, marks_of]
    refine ⟨h.behind, h.disk, ?_, h.full, h.body, ⟨?_, hcursor⟩, hrest, ⟨h.loop.1, ?_⟩, h.seed⟩
    · rw [hsame]
      exact h.marks
    · intro mark hmark hid
      rw [Body.marks_apply_usn_patch]
      rcases List.mem_append.mp hmark with hold | hnew
      · exact List.mem_append_left _ (hbody' mark hold hid)
      · exact List.mem_append_right _ hnew
    · rw [hsame]
      exact h.loop.2

/-- The cached index may be written over, while the cursor on disk stays behind the cache. -/
theorem CursorInv.reread (h : CursorInv s) {answers : Answers} (hok : Spares s answers) :
    CursorInv { s with disk := (read_index_cached s.volume s.wraps s.disk answers).2 } := by
  have hcursor := (read_index_cached_cursor s.volume s.wraps s.disk answers)
  refine ⟨?_, ?_, h.marks, h.full, h.body, h.applier, h.queue, h.loop, h.seed⟩
  · intro usn husn hlt
    rw [hcursor] at hlt
    rcases hok with hnone | hkept
    · exact absurd hlt (Nat.not_lt.mpr (hnone usn husn))
    · rw [hkept]
      exact h.behind usn husn hlt
  · rw [hcursor]
    exact h.disk

variable {s s' : Daemon} {env : Env}

/-- Taking a message off the queue moves its marks to the body, or the body is reloaded. -/
theorem CursorInv.dispatch_msg (h : CursorInv s) {reloaded : Option Answers}
    (hok : Lockstep s (.take reloaded)) (hstep : dispatch_msg env s reloaded = some s') : CursorInv s' := by
  have hqueue := h.queue
  unfold daemon.dispatch_msg at hstep
  split at hstep
  · rename_i batches cursor rest hidle hsave
    rw [hsave, hidle] at hqueue
    rw [if_neg (by simpa using hok.1 batches cursor rest hsave)] at hstep
    cases hstep
    have hbase : taken s ++ marks_of Applier.idle.batches = taken s := List.append_nil _
    rw [hbase] at hqueue
    refine h.apply_to_body env hidle ?_ ?_ hqueue.2
    · rw [hsave, queue_marks]
    · intro c hc
      cases hc
      exact hqueue.1
  · rename_i batches rest hidle happly
    rw [← happly] at hstep
    cases hstep
    have hbase : taken s ++ marks_of s.applier.batches = taken s := by
      rw [hidle]
      exact List.append_nil _
    rw [hbase] at hqueue
    exact h.apply_to_body env hidle (coalesce_apply_run_marks _) nofun (coalesce_apply_run_backed hqueue)
  · rename_i rest hidle hwrap
    rw [hwrap] at hqueue
    have hknown : known { s with sink := { s.sink with queue := rest } } = known s := by
      simp [known, taken, hwrap, queue_marks]
    have hpopped : CursorInv { s with sink := { s.sink with queue := rest } } := by
      refine ⟨h.behind, h.disk, ?_, h.full, h.body, h.applier, hqueue, ⟨h.loop.1, ?_⟩, h.seed⟩
      · rw [hknown]
        exact h.marks
      · rw [hknown]
        exact h.loop.2
    cases reloaded with
    | none =>
      cases hstep
      exact hpopped
    | some answers =>
      cases hstep
      have hread := hpopped.reread (hok.2 rest answers hwrap rfl)
      have hbatches : s.applier.batches =
          Applier.batches (.refreshed (read_index_cached s.volume s.wraps s.disk answers).1) := by rw [hidle]; rfl
      have hloop := hpopped.loop.2
      have hmarks := hpopped.marks
      have hqueue' := hpopped.queue
      simp only [known, hbatches] at hloop hmarks hqueue'
      exact ⟨hread.behind, hread.disk, hmarks, h.full, h.body, trivial, hqueue', ⟨h.loop.1, hloop⟩, h.seed⟩
  · cases hstep

/-- The shard, the saves and the loads in flight may change, when the body of the shard is up to date. -/
theorem CursorInv.hold (h : CursorInv s) (shard : Shard) (saves loads : List Body)
    (hbody : ∀ body, shard.body = some body → UpToDate s body) : CursorInv { s with shard, saves, loads } :=
  ⟨h.behind, h.disk, h.marks, h.full, hbody, h.applier, h.queue, h.loop, h.seed⟩

/-- The applier swaps in the body it has patched. -/
theorem CursorInv.swap_patched (h : CursorInv s) {body : Body} {batches : List Batch} {cursor : Option Cursor}
    (hs : s.applier = .patched body batches cursor) {shard : Shard} {applier : Applier} {saves : List Body}
    (hshard : ∀ b, shard.body = some b → b = body)
    (happlier : applier = .idle ∨ ∃ c, cursor = some c ∧ applier = .swapped body c) :
    CursorInv { s with handled := s.handled ++ batches, shard, applier, saves } := by
  have hfits := h.applier
  have hqueue := h.queue
  rw [hs] at hfits hqueue
  have hnone : applier.batches = [] := by
    rcases happlier with rfl | ⟨c, _, rfl⟩ <;> rfl
  have htaken : taken { s with handled := s.handled ++ batches, shard, applier, saves } = taken s ++ marks_of batches := by
    simp [taken, marks_of]
  have hknown : known { s with handled := s.handled ++ batches, shard, applier, saves } = known s := by
    rw [known, known, htaken, hnone, hs]
    simp [Applier.batches, marks_of]
  refine ⟨h.behind, h.disk, ?_, h.full, ?_, ?_, ?_, ⟨h.loop.1, ?_⟩, h.seed⟩
  · rw [hknown]
    exact h.marks
  · intro other hother mark hmark hid
    rw [hshard other hother]
    rw [htaken] at hmark
    exact hfits.1 mark hmark hid
  · rcases happlier with rfl | ⟨c, hc, rfl⟩
    · trivial
    · have hcursor := hfits.2 c hc
      exact ⟨hcursor.1, hcursor.2.mono hfits.1⟩
  · rw [htaken, hnone]
    exact hqueue.mono fun mark hmark => List.mem_append_left _ hmark
  · rw [hknown]
    exact h.loop.2

/-- The patched body has the marks that were taken off the queue for it. -/
theorem CursorInv.apply_journal_body (h : CursorInv s) (hok : Lockstep s .swap) (hstep : apply_journal_body s = some s') :
    CursorInv s' := by
  cases apply_journal_body_effect hstep with
  | patched hs hshard _ happlier =>
    exact h.swap_patched hs hshard (happlier.imp And.left fun ⟨c, hc, hswapped, _⟩ => ⟨c, hc, hswapped⟩)
  | @refreshed body shard hs hshard _ =>
    have hidle : Applier.batches .idle = s.applier.batches := by
      rw [hs]
      rfl
    have hheld := h.hold shard s.saves s.loads fun b hb => hshard b hb ▸ hok body hs
    refine ⟨h.behind, h.disk, ?_, h.full, hheld.body, trivial, ?_, ⟨h.loop.1, ?_⟩, h.seed⟩
    · simpa only [known, taken, hidle] using h.marks
    · simpa only [taken, hidle] using h.queue
    · simpa only [known, taken, hidle] using h.loop.2

theorem CursorInv.store (h : CursorInv s) {body : Body} (hs : s.applier = .swapped body cursor) (hok : Lockstep s .store) :
    CursorInv { s with applier := .idle, disk := { s.disk with cursor } } := by
  have hfits := h.applier
  rw [hs] at hfits
  obtain ⟨hid, cache, hcache, hsub⟩ := hok body cursor hs
  have hidle : Applier.batches .idle = s.applier.batches := by
    rw [hs]
    rfl
  refine ⟨?_, hfits.1, ?_, h.full, h.body, trivial, ?_, ⟨h.loop.1, ?_⟩, h.seed⟩
  · intro usn husn hlt
    exact ⟨cache, hcache, hsub _ (hfits.2 hid usn husn hlt)⟩
  · simpa only [known, taken, hidle] using h.marks
  · simpa only [taken, hidle] using h.queue
  · simpa only [known, taken, hidle] using h.loop.2

theorem CursorInv.written (h : CursorInv s) {i : Nat} {body : Body} (hbody : s.saves[i]? = some body)
    (hok : Lockstep s (.written i)) :
    CursorInv { s with saves := s.saves.eraseIdx i, disk := { s.disk with cache := some body } } := by
  refine ⟨?_, h.disk, h.marks, h.full, h.body, h.applier, h.queue, h.loop, h.seed⟩
  intro usn husn hlt
  obtain ⟨cache, hcache, hmark⟩ := h.behind usn husn hlt
  exact ⟨body, rfl, hok body cache hbody hcache _ hmark⟩

theorem CursorInv.load (h : CursorInv s) {refreshed : Option Answers} (hok : Lockstep s (.load refreshed))
    (hstep : DiskBodyLoader.load s refreshed = some s') : CursorInv s' := by
  unfold DiskBodyLoader.load at hstep
  split at hstep
  · cases hstep
  · cases hstep
    exact (h.reread (hok _ rfl)).hold s.shard _ _ h.body
  · cases hstep
    exact h.hold s.shard s.saves _ h.body
  · cases hstep
    exact h

section Load

variable {disk : Disk} {wraps : Nat} {answers : Answers}
  (hread : ∀ usn ∈ volume.usns, ⟨volume.journal_id, usn⟩ ∈ (read_index_cached volume wraps disk answers).1.marks)
  (hbehind : Behind volume (read_index_cached volume wraps disk answers).2) (hdisk : Dated volume disk.cursor)
  (hknown : Known volume (read_index_cached volume wraps disk answers).1.marks)

include hread hbehind hdisk hknown

theorem CursorInv.full_rebuild : CursorInv (full_rebuild volume disk wraps answers) := by
  have hcursor := read_index_cached_cursor volume wraps disk answers
  have htaken : ∀ mark, mark ∈ known (daemon.full_rebuild volume disk wraps answers) ↔
      mark ∈ (read_index_cached volume wraps disk answers).1.marks := by
    simp [known, taken, daemon.full_rebuild, Applier.batches, queue_marks, marks_of]
  have hcovered : ∀ cursor, Covered volume (read_index_cached volume wraps disk answers).1.marks cursor :=
    fun _ _ usn husn _ => hread usn husn
  refine ⟨hbehind, ?_, fun mark hmark => hknown mark ((htaken mark).mp hmark), nofun, ?_, trivial, trivial, ⟨?_, ?_⟩, ?_⟩
  · rw [show (daemon.full_rebuild volume disk wraps answers).disk.cursor = disk.cursor from hcursor]
    exact hdisk
  · intro body hbody mark hmark _
    cases hbody
    exact (htaken mark).mp (taken_subset_known hmark)
  · exact hdisk
  · exact fun _ usn husn _ => (htaken _).mpr (hread usn husn)
  · intro cursor hseed
    refine ⟨?_, hcovered cursor⟩
    unfold daemon.full_rebuild at hseed
    dsimp only at hseed
    split_ifs at hseed with _ hle
    · cases hseed
      exact ⟨le_refl _, fun _ => le_refl _⟩
    · cases hseed
      exact hdisk

end Load

theorem CursorInv.load_live_drive {disk : Disk} {wraps : Nat} {answers : Answers} (hbehind : Behind volume disk)
    (hdisk : Dated volume disk.cursor) (hcache : ∀ cache, disk.cache = some cache → Known volume cache.marks)
    (hrebuild : ¬ Resumes volume disk answers → CursorInv (daemon.full_rebuild volume disk wraps answers)) :
    CursorInv (load_live_drive volume disk wraps answers) := by
  unfold daemon.load_live_drive
  split
  · split
    · rename_i cache _ hsome
      have hknown : ∀ mark, mark ∈ known
          { volume, disk, wraps, loop := { cursor := disk.cursor }, shard := .warm cache, original := cache } ↔ mark ∈ cache.marks := by
        simp [known, taken, Applier.batches, queue_marks, marks_of]
      refine ⟨hbehind, hdisk, ?_, nofun, ?_, trivial, trivial, ⟨hdisk, ?_⟩, nofun⟩
      · exact fun mark hmark => hcache cache hsome mark ((hknown mark).mp hmark)
      · intro body hbody mark hmark _
        cases hbody
        exact (hknown mark).mp (taken_subset_known hmark)
      · intro _ usn husn hlt
        obtain ⟨cache', hcache', hmark⟩ := hbehind usn husn hlt
        cases hsome.symm.trans hcache'
        exact (hknown _).mpr hmark
    · rename_i hother
      refine hrebuild fun ⟨_, hfast, hsome⟩ => ?_
      obtain ⟨cache, hcache⟩ := Option.ne_none_iff_exists'.mp hsome
      exact hother cache hfast hcache
  · rename_i hnone
    exact hrebuild fun hresumes => hnone hresumes.1

theorem CursorInv.seed_stored (h : CursorInv s) (hs : s.seed = some cursor) (hok : Lockstep s .seed) :
    CursorInv { s with seed := none, disk := { s.disk with cursor }, loop := { s.loop with cursor } } := by
  obtain ⟨hid, cache, hcache, hsub⟩ := hok cursor hs
  obtain ⟨hdated, hcovered⟩ := h.seed cursor hs
  refine ⟨?_, hdated, h.marks, h.full, h.body, h.applier, h.queue, ⟨hdated, hcovered.mono ?_⟩, nofun⟩
  · intro usn husn hlt
    exact ⟨cache, hcache, hsub _ (hcovered hid usn husn hlt)⟩
  · intro mark hmark _
    exact taken_subset_known (List.mem_append_left _ hmark)

/-- In lockstep every step keeps the saved cursor behind what the body holds. -/
theorem CursorInv.step {event : Event} (h : CursorInv s)
    (hheld : Held (fun body => Known s.volume body.marks) s) (hok : Lockstep s event)
    (hstep : step env s event = some s') : CursorInv s' := by
  cases event with
  | write content =>
    cases hstep
    exact h.write content hok
  | truncate first_usn =>
    obtain ⟨_, hvolume⟩ := Option.ite_none_right_eq_some.mp hstep
    cases hvolume
    exact h.truncate _
  | recreate first_usn =>
    cases hstep
    exact h.recreate first_usn
  | poll changes aged settled =>
    obtain ⟨hready, hturn⟩ := Option.ite_none_right_eq_some.mp hstep
    rw [Bool.and_eq_true, beq_iff_eq] at hready
    cases hturn
    exact h.turn hready.2 aged settled hok
  | take reloaded => exact h.dispatch_msg hok hstep
  | swap => exact h.apply_journal_body hok hstep
  | store =>
    simp only [daemon.step] at hstep
    split at hstep
    · next hs =>
      cases hstep
      exact h.store hs hok
    · cases hstep
  | written i =>
    obtain ⟨body, hbody, rfl⟩ := Option.map_eq_some_iff.mp hstep
    exact h.written hbody hok
  | write_failed i =>
    obtain ⟨body, hbody, rfl⟩ := Option.map_eq_some_iff.mp hstep
    exact h.hold s.shard _ s.loads h.body
  | demote target =>
    obtain ⟨shard, hshard, rfl⟩ := Option.map_eq_some_iff.mp hstep
    refine h.hold shard s.saves s.loads ?_
    intro body hbody
    cases (demote_letter_body hshard).symm.trans hbody
  | load refreshed => exact h.load hok hstep
  | snapshot =>
    simp only [daemon.step] at hstep
    split at hstep <;> cases hstep
    exact h.hold s.shard s.saves _ h.body
  | join i =>
    obtain ⟨body, hbody, rfl⟩ := Option.map_eq_some_iff.mp hstep
    exact h.hold s.shard s.saves _ h.body
  | install i hot =>
    obtain ⟨body, hbody, rfl⟩ := Option.map_eq_some_iff.mp hstep
    refine h.hold _ s.saves _ ?_
    intro b hb
    rcases install_body hb with rfl | hold
    · exact hok b hbody
    · exact h.body b hold
  | restart answers =>
    cases hstep
    refine .load_live_drive h.behind h.disk hheld.cache fun hrebuilds => ?_
    obtain ⟨hcomplete, hspares⟩ := hok hrebuilds
    have hknown := (hheld.reread (readable_known hheld answers)).1
    exact .full_rebuild hcomplete.read.1 (h.reread hspares).behind h.disk hknown
  | seed =>
    obtain ⟨cursor, hcursor, rfl⟩ := Option.map_eq_some_iff.mp hstep
    exact h.seed_stored hcursor hok

theorem next_batches_marks (queue : List ApplyMsg) : ∀ mark ∈ marks_of (next_batches queue).1, mark ∈ queue_marks queue := by
  intro mark hmark
  cases queue with
  | nil => cases hmark
  | cons msg rest =>
    cases msg with
    | save batches cursor => exact List.mem_append_left _ hmark
    | apply batches =>
      rw [coalesce_apply_run_marks (.apply batches :: rest)]
      exact List.mem_append_left _ hmark
    | wrap => cases hmark

/-- Every body on its way to the shard has marks of the journal only. -/
theorem CursorInv.held_step {event : Event} (h : CursorInv s)
    (hheld : Held (fun body => Known s.volume body.marks) s) (hstep : daemon.step env s event = some s') :
    Held (fun body => Known s'.volume body.marks) s' := by
  have hnext : Held (fun body => Known s.volume body.marks) s' := by
    refine hheld.step hstep (fun answers _ => readable_known hheld answers) ?_
    intro _ body _ hbody
    rw [Body.marks_apply_usn_patch]
    refine (hheld.shard body hbody).append ?_
    intro mark hmark
    refine h.marks mark ?_
    simp [known, next_batches_marks s.sink.queue mark hmark]
  have hgrow : ∀ body : Body, Known s.volume body.marks → Known s'.volume body.marks :=
    fun body hbody mark hmark => (hbody mark hmark).trans (step_frame hstep).1
  exact ⟨fun b hb => hgrow b (hnext.shard b hb), fun b hb => hgrow b (hnext.applier b hb), fun b hb => hgrow b (hnext.saves b hb),
    fun b hb => hgrow b (hnext.loads b hb), fun b hb => hgrow b (hnext.cache b hb), fun b hb => hgrow _ (hnext.index_cache b hb)⟩

/-- The index of a body is the one that was read, with its patches. -/
def Body.Traced (env : Env) (body : Body) : Prop := body.index = body.patches.foldl (patch_index env) body.read_index

theorem Body.Traced.reflects {body : Body} (h : body.Traced env) {mark : Mark} (hmark : mark ∈ body.marks) :
    body.Reflects env mark := by
  refine ⟨h, ?_⟩
  simpa [Body.marks, marks_of] using hmark

theorem readable_traced (h : Held (Body.Traced env) s) (answers : Answers) : Readable (Body.Traced env) s answers :=
  ⟨rfl, fun cached hcached => ⟨h.index_cache cached hcached, fun _ => rfl⟩⟩

theorem held_traced_step {event : Event} (h : Held (Body.Traced env) s)
    (hstep : step env s event = some s') : Held (Body.Traced env) s' := by
  refine h.step hstep (fun answers _ => readable_traced h answers) fun _ body _ hbody => ?_
  have hold : body.index = body.patches.foldl (patch_index env) body.read_index := h.shard body hbody
  simp only [Body.Traced, Body.apply_usn_patch, List.foldl_append, ← hold, List.foldl_cons, List.foldl_nil]

/-- A restart that resumes at the stored cursor, or rebuilds from a read that gets every change, misses
none: each is in the body that is loaded, or the loop still reads it. -/
def RestartMissesNone (env : Env) (s : Daemon) : Prop :=
  ∀ answers, (¬ Resumes s.volume s.disk answers → answers.Complete s.volume s.disk) → ∀ usn ∈ s.volume.usns,
    (load_live_drive s.volume s.disk s.wraps answers).original.Reflects env ⟨s.volume.journal_id, usn⟩ ∨
      (load_live_drive s.volume s.disk s.wraps answers).loop.cursor.value ≤ usn

theorem restart_misses_none (h : Behind s.volume s.disk) (htraced : Held (Body.Traced env) s) : RestartMissesNone env s := by
  intro answers hcomplete usn husn
  have hloaded := htraced.load_live_drive (readable_traced htraced answers) id
  have htrace : (load_live_drive s.volume s.disk s.wraps answers).original.Traced env :=
    hloaded.shard _ (by rw [(load_live_drive_fresh _ _ _ _).1]; rfl)
  by_cases hresumes : Resumes s.volume s.disk answers
  · obtain ⟨hjournal, hfast, hsome⟩ := hresumes
    obtain ⟨cache, hcache⟩ := Option.ne_none_iff_exists'.mp hsome
    by_cases hlt : usn < s.disk.cursor.value
    · obtain ⟨cache', hcache', hmark⟩ := h usn husn hlt
      cases hcache.symm.trans hcache'
      refine Or.inl (htrace.reflects ?_)
      rw [load_live_drive, if_pos hjournal, hfast, hcache]
      exact hmark
    · refine Or.inr ?_
      rw [load_live_drive, if_pos hjournal, hfast, hcache]
      exact Nat.not_lt.mp hlt
  · refine Or.inl (htrace.reflects ?_)
    have hread := (@Answers.Complete.read _ s.wraps _ _ (hcomplete hresumes)).1 usn husn
    unfold load_live_drive
    split
    · rename_i hjournal
      split
      · rename_i cache hfast hcache
        exact absurd ⟨hjournal, hfast, by rw [hcache]; exact Option.some_ne_none _⟩ hresumes
      · exact hread
    · exact hread

/-- The root directory alone, on a volume with an empty journal. -/
def root_body : DriveCompactIndex := build_compact_index sample_env 'C' ⟨[]⟩ root_mft

def empty_volume : Volume := { journal_id := 1 }

/-- The rebuilt body is on disk before its cursor. -/
def start : List Event := [.written 0, .seed]

/-- A directory is created, and the change is saved in lockstep. -/
def saved_create : List Event :=
  start ++ [.write fun _ => none, .poll [parent_created] true false, .take none, .swap, .written 0, .store]

theorem saved_create_meets : Meets (step sample_env) Lockstep (boot empty_volume root_body) saved_create := by
  refine .cons ?_ rfl ?_
  · intro body cache _ hcache
    cases hcache
  refine .cons ?_ rfl ?_
  · intro cursor hcursor
    cases hcursor
    exact ⟨rfl, _, rfl, fun _ hmark => hmark⟩
  refine .cons (Or.inl rfl) rfl ?_
  refine .cons (Or.inl rfl) rfl ?_
  refine .cons ⟨?_, by rintro _ _ ⟨⟩⟩ rfl ?_
  · intro batches cursor rest hqueue
    cases hqueue
    exact List.cons_ne_nil _ _
  refine .cons ?_ rfl ?_
  · intro body hbody
    cases hbody
  refine .cons ?_ rfl ?_
  · intro body cache hbody hcache
    cases hbody
    cases hcache
    exact fun mark hmark => List.mem_append_left _ hmark
  refine .cons ?_ rfl trivial
  intro body cursor hbody
  cases hbody
  exact ⟨rfl, _, rfl, fun _ hmark => hmark⟩

end uffs.daemon
