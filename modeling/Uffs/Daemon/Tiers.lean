import Uffs.Daemon.Cursor

open uffs.lib uffs.mft uffs.text uffs.bloom uffs.compact uffs.usn

namespace uffs.daemon

/-- The index after the batches, one after the other. -/
def replayed (env : Env) (drive : DriveCompactIndex) (batches : List Batch) : DriveCompactIndex :=
  batches.foldl (fun drive batch => (usn.apply_usn_patch env drive batch.changes).1) drive

def Applier.applying : Applier → Bool
  | .patched _ _ _ => true
  | _ => false

/-- A shard with a body and nothing left to apply shows the body first loaded with every change polled. -/
def NoneLost (env : Env) (s : Daemon) : Prop :=
  ∀ body, s.shard.body = some body → s.sink.pending = [] → s.sink.queue = [] → s.applier.applying = false →
    ∀ f, view body.index f = view (replayed env s.original.index s.polled) f

/-- The batches on the cells alone. -/
def settled (cells : Cells) (batches : List Batch) : Cells :=
  batches.foldl (fun cells batch => replay cells (order_parent_first batch.changes)) cells

/-- The record number of each slot and what its row shows. -/
def faces (cells : Cells) : UInt64 → Option (UInt64 × Option Seen) := fun f => (cells f).map fun c => (c.frs, c.seen)

theorem labels_of_faces (cells : Cells) (f : UInt64) : (cells f).map Cell.frs = (faces cells f).map Prod.fst := by
  rw [faces, Option.map_map]
  rfl

theorem view_faces (drive : DriveCompactIndex) (f : UInt64) : view drive f = (faces (cell drive) f).bind Prod.snd := by
  rw [view_eq_cell, faces, Option.bind_map]
  rfl

/-- What a change writes is seen the same wherever the same was seen before. -/
theorem faces_rewrite (change : FileChange) (parent : Option UInt64) {entry entry' : Option Cell}
    (h : (entry.map fun c => (c.frs, c.seen)) = entry'.map fun c => (c.frs, c.seen)) :
    ((rewrite change parent entry).map fun c => (c.frs, c.seen)) = (rewrite change parent entry').map fun c => (c.frs, c.seen) := by
  have hfrs : entry.map Cell.frs = entry'.map Cell.frs := by
    have hfst := congrArg (Option.map Prod.fst) h
    rw [Option.map_map, Option.map_map] at hfst
    exact hfst
  unfold rewrite
  split_ifs with hdeleted hname hcreated hrenamed
  · rfl
  · exact h
  · simp only [hfrs, Option.map_some]
  · simp only [Option.map_map]
    have hmap := congrArg (Option.map fun frs => (frs, some (stored_name change.filename, parent))) hfrs
    rw [Option.map_map, Option.map_map] at hmap
    exact hmap
  · exact h

variable {changes : List FileChange} {env : Env} {s : Daemon}

theorem faces_replay {cells cells' : Cells} (h : faces cells = faces cells') :
    faces (replay cells changes) = faces (replay cells' changes) := by
  induction changes generalizing cells cells' with
  | nil => exact h
  | cons change rest ih =>
    refine ih ?_
    funext f
    unfold faces replay_step
    split_ifs with hf
    · rw [labels_of_faces, labels_of_faces, h]
      exact faces_rewrite change _ (congrFun h f)
    · exact congrFun h f

theorem faces_settled {batches : List Batch} {cells cells' : Cells} (h : faces cells = faces cells') :
    faces (settled cells batches) = faces (settled cells' batches) := by
  induction batches generalizing cells cells' with
  | nil => exact h
  | cons batch rest ih => exact ih (faces_replay h)

theorem settled_append (cells : Cells) (batches batches' : List Batch) :
    settled cells (batches ++ batches') = settled (settled cells batches) batches' := List.foldl_append

/-- Batches without changes do nothing. -/
theorem settled_of_no_changes {cells : Cells} {batches : List Batch} (h : changes_of batches = []) : settled cells batches = cells := by
  induction batches generalizing cells with
  | nil => rfl
  | cons batch rest ih =>
    obtain ⟨hbatch, hrest⟩ := List.append_eq_nil_iff.mp h
    have hfirst : replay cells (order_parent_first batch.changes) = cells := by
      rw [hbatch]
      rfl
    rw [settled, List.foldl_cons, hfirst]
    exact ih hrest

/-- The batches of the messages in the channel. -/
def queue_batches : List ApplyMsg → List Batch
  | [] => []
  | .save batches _ :: rest => batches ++ queue_batches rest
  | .apply batches :: rest => batches ++ queue_batches rest
  | .wrap :: rest => queue_batches rest

/-- The batches the applier has not taken yet. -/
def RegistryPatchSink.waiting (self : RegistryPatchSink) : List Batch := queue_batches self.queue ++ self.pending

/-- With what is still waiting, the body will show every change polled. -/
def Converges (s : Daemon) (body : Body) : Prop :=
  faces (settled (cell body.index) s.sink.waiting) = faces (settled (cell s.original.index) s.polled)

/-- The body is on its way into the shard: it is loaded for a promotion, or read after a wrap. -/
def Loading (s : Daemon) (body : Body) : Prop := s.applier = .refreshed body ∨ body ∈ s.loads

variable {body : Body} {s s' : Daemon}

theorem not_loading (hidle : s.applier = .idle) (hloads : s.loads = []) : ¬ Loading s body := by
  rintro (happlier | hmem)
  · cases hidle.symm.trans happlier
  · rw [hloads] at hmem
    cases hmem

/-- The body was read with a change that the loop has not polled yet. -/
def Ahead (s : Daemon) (body : Body) : Prop :=
  ∃ usn ∈ unread s.volume s.loop.cursor.value, ⟨s.volume.journal_id, usn⟩ ∈ body.marks

/-- The changes lead from these records to those of the volume. -/
def Leads (s : Daemon) (cells : Cells) (changes : List FileChange) : Prop :=
  faces (replay cells (order_parent_first changes)) = s.volume.content

/-- The body shows the records of the volume, to which the changes polled lead, and what still waits
changes nothing in it. -/
def UpToPolls (s : Daemon) (body : Body) : Prop :=
  faces (cell body.index) = s.volume.content ∧ faces (settled (cell s.original.index) s.polled) = s.volume.content ∧
    faces (settled (cell body.index) s.sink.waiting) = faces (cell body.index)

/-- The poll meets a journal with a new identifier. -/
def wrap_seen (s : Daemon) : Bool := s.loop.last_journal_id.any fun prev_id => s.volume.journal_id != 0 && s.volume.journal_id != prev_id

/-- What is read from the volume is an index the builder builds. -/
def Answers.Placed (self : Answers) : Prop := usn.Placed self.full ∧ usn.Placed self.updated

/-- The steps that lose nothing. -/
def Retained (env : Env) (s : Daemon) : Event → Prop
  -- a wrap discards no change, the changes fit into the index, and they lead to the volume's records,
  -- also from a body that was read ahead of them
  | .poll changes _ _ => (wrap_seen s = true → s.sink.pending = []) ∧
      Fits (usn.apply_usn_patch env (replayed env s.original.index s.polled) changes).1 ∧
      ∀ body, Loading s body → Ahead s body →
        Leads s (settled (cell body.index) s.sink.waiting) changes ∧ Leads s (settled (cell s.original.index) s.polled) changes
  -- a body that was read ahead is not left behind: its changes are polled before the journal ends
  | .recreate _ => ∀ body, Loading s body → ¬ Ahead s body
  | .seed => ∀ body, Loading s body → ¬ Ahead s body
  -- a batch fits into the body, and does in one patch what its polls do one after the other; a body on
  -- its way into the shard has its changes already
  | .take reloaded => (∀ body, s.shard.body = some body →
        Fits (usn.apply_usn_patch env body.index (changes_of (next_batches s.sink.queue).1)).1 ∧
          faces (replay (cell body.index) (order_parent_first (changes_of (next_batches s.sink.queue).1))) =
            faces (settled (cell body.index) (next_batches s.sink.queue).1)) ∧
      (∀ body ∈ s.loads, ¬ Ahead s body → faces (settled (cell body.index) (next_batches s.sink.queue).1) = faces (cell body.index)) ∧
      ∀ answers, reloaded = some answers → answers.Placed ∧
        (s.sink.queue.head? = some .wrap → ∀ body, loaded s reloaded = some body → Ahead s body ∨ UpToPolls s body)
  -- a body is loaded up to the polls, or ahead of them
  | .load refreshed => (∀ answers, refreshed = some answers → answers.Placed) ∧
      ∀ body, loaded s refreshed = some body → Ahead s body ∨ UpToPolls s body
  -- a body is not cloned while a newer one is about to replace it
  | .snapshot => s.applier.applying = false
  -- a body gets into the shard when the changes it was read with are polled
  | .swap => ∀ body, s.applier = .refreshed body → ¬ Ahead s body
  | .install i _ => ∀ body, s.loads[i]? = some body → ¬ Ahead s body
  | .restart answers => answers.Placed
  | _ => True

structure TierInv (env : Env) (s : Daemon) : Prop where
  replayed : Placed (replayed env s.original.index s.polled) ∧
    cell (replayed env s.original.index s.polled) = settled (cell s.original.index) s.polled
  shard : s.applier.applying = false → ∀ body, s.shard.body = some body → Converges s body
  applier : ∀ body batches cursor, s.applier = .patched body batches cursor → Converges s body
  loading : ∀ body, Loading s body → Ahead s body ∨ Converges s body

theorem UpToPolls.converges (h : UpToPolls s body) : Converges s body :=
  h.2.2.trans (h.1.trans h.2.1.symm)

/-- What is ahead stays so while the loop does not advance and the journal only grows. -/
theorem Ahead.mono (h : Ahead s body) (hid : s'.volume.journal_id = s.volume.journal_id)
    (hread : ∀ usn ∈ unread s.volume s.loop.cursor.value, usn ∈ unread s'.volume s'.loop.cursor.value) : Ahead s' body := by
  obtain ⟨usn, husn, hmark⟩ := h
  exact ⟨usn, hread usn husn, hid ▸ hmark⟩

theorem TierInv.noneLost (h : TierInv env s) : NoneLost env s := by
  intro body hbody hpending hqueue hidle f
  have hconverges := h.shard hidle body hbody
  rw [Converges, RegistryPatchSink.waiting, hqueue, hpending] at hconverges
  rw [view_faces, view_faces, h.replayed.2, ← hconverges]
  rfl

theorem cell_fold_delta_for_save (drive : DriveCompactIndex) : cell drive.fold_delta_for_save = cell drive := by
  rcases fold_delta_for_save_eq drive with h | h <;> rw [h]
  rfl

theorem placed_fold_delta_for_save {drive : DriveCompactIndex} (h : Placed drive) : Placed drive.fold_delta_for_save := by
  rcases fold_delta_for_save_eq drive with heq | heq <;> rw [heq]
  · exact h
  · exact ⟨h.linked, h.distinct, h.fits⟩

theorem Body.index_apply_usn_patch (body : Body) (batches : List Batch) (fold_delta : Bool) :
    (body.apply_usn_patch env batches fold_delta).index =
      if fold_delta then (usn.apply_usn_patch env body.index (changes_of batches)).1.fold_delta_for_save
      else (usn.apply_usn_patch env body.index (changes_of batches)).1 := rfl

/-- The patched body is placed and has the changes of the batch. -/
theorem Body.apply_usn_patch_cells (h : Placed body.index) {batches : List Batch}
    (hfits : Fits (usn.apply_usn_patch env body.index (changes_of batches)).1) (fold_delta : Bool) :
    Placed (body.apply_usn_patch env batches fold_delta).index ∧
      cell (body.apply_usn_patch env batches fold_delta).index = replay (cell body.index) (order_parent_first (changes_of batches)) := by
  obtain ⟨hplaced, hcells⟩ := h.patch_cells hfits
  rw [Body.index_apply_usn_patch]
  cases fold_delta with
  | false =>
    rw [if_neg (by decide)]
    exact ⟨hplaced, hcells⟩
  | true =>
    rw [if_pos rfl, cell_fold_delta_for_save]
    exact ⟨placed_fold_delta_for_save hplaced, hcells⟩

theorem queue_batches_append (queue queue' : List ApplyMsg) :
    queue_batches (queue ++ queue') = queue_batches queue ++ queue_batches queue' := by
  induction queue with
  | nil => rfl
  | cons msg rest ih => cases msg <;> simp [queue_batches, ih]

section Sink

variable (cells : Cells) (sink : RegistryPatchSink)

theorem waiting_trigger_save (cursor : Cursor) : (sink.trigger_save cursor).waiting = sink.waiting := by
  simp [RegistryPatchSink.waiting, RegistryPatchSink.trigger_save, queue_batches_append, queue_batches]

theorem settled_trigger_apply : settled cells sink.trigger_apply.waiting = settled cells sink.waiting := by
  unfold RegistryPatchSink.trigger_apply
  split
  · rename_i hempty
    simp only [RegistryPatchSink.waiting, settled_append]
    rw [settled_of_no_changes (List.isEmpty_iff.mp hempty)]
    rfl
  · simp [RegistryPatchSink.waiting, queue_batches_append, queue_batches]

theorem settled_fire_due_cadence (loop : JournalLoop) (aged settled_clock : Bool) :
    settled cells (fire_due_cadence loop sink aged settled_clock).2.waiting = settled cells sink.waiting := by
  unfold fire_due_cadence
  split
  · rw [waiting_trigger_save]
  · split
    · exact settled_trigger_apply cells sink
    · rfl

theorem settled_process_tick (loop : JournalLoop) (batch : Batch) (aged settled_clock : Bool) :
    settled cells (process_tick loop sink batch aged settled_clock).2.waiting = settled (settled cells sink.waiting) [batch] := by
  unfold process_tick
  split
  · rename_i hempty
    have hnone : changes_of [batch] = [] := by simpa [changes_of] using hempty
    rw [settled_fire_due_cadence, settled_of_no_changes hnone]
  · rw [settled_fire_due_cadence, ← settled_append, RegistryPatchSink.waiting, RegistryPatchSink.waiting, RegistryPatchSink.accept,
      List.append_assoc]

end Sink

theorem coalesce_apply_run_batches (queue : List ApplyMsg) :
    queue_batches queue = (coalesce_apply_run queue).1 ++ queue_batches (coalesce_apply_run queue).2 := by
  induction queue with
  | nil => rfl
  | cons msg rest ih =>
    cases msg with
    | save batches cursor => rfl
    | wrap => rfl
    | apply batches => rw [coalesce_apply_run, queue_batches, ih, List.append_assoc]

theorem settled_polled (cells : Cells) (polled : List Batch) (batch : Batch) :
    settled cells (if batch.changes.isEmpty then polled else polled ++ [batch]) = settled (settled cells polled) [batch] := by
  split
  · rename_i hempty
    have hnone : changes_of [batch] = [] := by simpa [changes_of] using hempty
    rw [@settled_of_no_changes _ [batch] hnone]
  · exact settled_append _ _ _

/-- A poll adds its changes on both sides. -/
theorem Converges.process_tick (h : Converges s body) (loop : JournalLoop) (batch : Batch) (aged settled_clock : Bool) :
    faces (settled (cell body.index) (process_tick loop s.sink batch aged settled_clock).2.waiting) =
      faces (settled (cell s.original.index) (if batch.changes.isEmpty then s.polled else s.polled ++ [batch])) := by
  rw [settled_process_tick, settled_polled]
  exact faces_settled h

theorem TierInv.process_tick (h : TierInv env s) (loop : JournalLoop) {batch : Batch} (wraps : Nat) (aged settled_clock : Bool)
    (hs' : s' = { s with
      loop := (process_tick loop s.sink batch aged settled_clock).1, sink := (process_tick loop s.sink batch aged settled_clock).2
      polled := if batch.changes.isEmpty then s.polled else s.polled ++ [batch], wraps })
    (hfits : batch.changes ≠ [] → Fits (usn.apply_usn_patch env (daemon.replayed env s.original.index s.polled) batch.changes).1)
    (hloading : ∀ body, Loading s body → Ahead s body → Ahead s' body ∨ Converges s' body) : TierInv env s' := by
  subst hs'
  refine ⟨?_, fun hidle body hbody => (h.shard hidle body hbody).process_tick loop batch aged settled_clock,
    fun body batches cursor hs => (h.applier body batches cursor hs).process_tick loop batch aged settled_clock, ?_⟩
  · rw [settled_polled]
    cases hbatch : batch.changes with
    | nil =>
      have hnone : changes_of [batch] = [] := by simp [changes_of, hbatch]
      rw [@settled_of_no_changes _ [batch] hnone]
      exact h.replayed
    | cons change rest =>
      rw [← hbatch, if_neg (by simp [hbatch])]
      obtain ⟨hplaced, hcells⟩ := h.replayed.1.patch_cells (hfits (by simp [hbatch]))
      have hreplayed : daemon.replayed env s.original.index (s.polled ++ [batch]) =
          (usn.apply_usn_patch env (daemon.replayed env s.original.index s.polled) batch.changes).1 := List.foldl_append
      rw [hreplayed, hcells, h.replayed.2]
      exact ⟨hplaced, rfl⟩
  · intro body hbody
    rcases h.loading body hbody with hahead | hconverges
    · exact hloading body hbody hahead
    · exact Or.inr (hconverges.process_tick loop batch aged settled_clock)

theorem unread_zero (volume : Volume) (cursor usn : Nat) (h : usn ∈ unread volume cursor) : usn ∈ unread volume 0 := by
  simp only [unread, List.mem_filter, Nat.zero_le, decide_true, and_true] at h ⊢
  exact h.1

theorem fire_due_cadence_cursor (loop : JournalLoop) (sink : RegistryPatchSink) (aged settled_clock : Bool) :
    (fire_due_cadence loop sink aged settled_clock).1.cursor = loop.cursor := by
  unfold fire_due_cadence
  split
  · rfl
  · split <;> rfl

theorem process_tick_cursor (loop : JournalLoop) (sink : RegistryPatchSink) (batch : Batch) (aged settled_clock : Bool) :
    (process_tick loop sink batch aged settled_clock).1.cursor = loop.cursor := by
  unfold process_tick
  split
  · exact fire_due_cadence_cursor _ _ _ _
  · exact fire_due_cadence_cursor _ _ _ _

/-- A poll makes what the body has to catch up with longer by what it read. -/
theorem TierInv.turn (h : TierInv env s) (hread : changes.isEmpty = (unread s.volume s.loop.cursor.value).isEmpty)
    (aged settled_clock : Bool) (hok : Retained env s (.poll changes aged settled_clock)) :
    TierInv env (JournalLoop.turn s changes aged settled_clock) := by
  obtain ⟨hwrap, hfits, hled⟩ := hok
  unfold JournalLoop.turn
  simp only [poll_journal_id]
  split
  · -- the journal is new: the buffer was empty, and the loop starts over
    rename_i hnew
    have hpending := hwrap hnew
    have hwaiting : s.sink.journal_wrapped.waiting = s.sink.waiting := by
      simp [RegistryPatchSink.waiting, RegistryPatchSink.journal_wrapped, queue_batches_append, queue_batches, hpending]
    have hconverges : ∀ body, Converges s body → faces (settled (cell body.index) s.sink.journal_wrapped.waiting) =
        faces (settled (cell s.original.index) s.polled) := by
      intro body hbody
      rw [hwaiting]
      exact hbody
    refine ⟨h.replayed, fun hidle body hbody => hconverges body (h.shard hidle body hbody),
      fun body batches cursor hs => hconverges body (h.applier body batches cursor hs), ?_⟩
    intro body hbody
    exact (h.loading body hbody).imp (fun hahead => hahead.mono rfl fun usn => unread_zero _ _ usn) (hconverges body)
  · unfold WindowsJournalSource.poll
    split
    · -- nothing is read, and the loop starts over
      refine h.process_tick _ _ aged settled_clock rfl (fun hnone => absurd rfl hnone) fun body _ hahead => Or.inl ?_
      refine hahead.mono rfl fun usn husn => ?_
      rw [process_tick_cursor]
      exact unread_zero _ _ usn husn
    · refine h.process_tick _ _ aged settled_clock rfl (fun _ => hfits) ?_
      intro body hbody hahead
      refine Or.inr ?_
      have hfull : changes.isEmpty = false := by
        obtain ⟨usn, husn, -⟩ := hahead
        rw [hread]
        cases hlist : unread s.volume s.loop.cursor.value with
        | nil =>
          rw [hlist] at husn
          cases husn
        | cons _ _ => rfl
      rw [Converges]
      dsimp only
      simp only [settled_process_tick, hfull, Bool.false_eq_true, if_false, settled_append]
      obtain ⟨hbody, hpolls⟩ := hled body hbody hahead
      exact hbody.trans hpolls.symm

/-- The idle applier takes a batch: a body on its way into the shard has its changes already. -/
theorem Converges.taken {batches : List Batch} {sink : RegistryPatchSink} (h : Converges s body)
    (hwaiting : s.sink.waiting = batches ++ sink.waiting) (hknown : faces (settled (cell body.index) batches) = faces (cell body.index)) :
    faces (settled (cell body.index) sink.waiting) = faces (settled (cell s.original.index) s.polled) := by
  rw [Converges, hwaiting, settled_append] at h
  rw [← h]
  exact (faces_settled hknown).symm

theorem TierInv.apply_to_body (h : TierInv env s) (hidle : s.applier = .idle) {batches : List Batch} {cursor : Option Cursor}
    {rest : List ApplyMsg} (hqueue : queue_batches s.sink.queue = batches ++ queue_batches rest)
    (hbody : ∀ body, s.shard.body = some body → Placed body.index ∧
      Fits (usn.apply_usn_patch env body.index (changes_of batches)).1 ∧
        faces (replay (cell body.index) (order_parent_first (changes_of batches))) = faces (settled (cell body.index) batches))
    (hloads : ∀ body ∈ s.loads, ¬ Ahead s body → faces (settled (cell body.index) batches) = faces (cell body.index)) :
    TierInv env (apply_to_body env { s with sink := { s.sink with queue := rest } } batches cursor) := by
  have hwaiting : s.sink.waiting = batches ++ ({ s.sink with queue := rest } : RegistryPatchSink).waiting := by
    simp [RegistryPatchSink.waiting, hqueue]
  have hloading : ∀ body ∈ s.loads, Ahead s body ∨ Converges { s with sink := { s.sink with queue := rest } } body := by
    intro body hmem
    by_cases hahead : Ahead s body
    · exact Or.inl hahead
    · exact Or.inr (((h.loading body (Or.inr hmem)).resolve_left hahead).taken hwaiting (hloads body hmem hahead))
  unfold daemon.apply_to_body
  cases hs : s.shard.body with
  | none =>
    refine ⟨h.replayed, ?_, ?_, ?_⟩
    · intro _ body hsome
      cases hs.symm.trans hsome
    · intro body batches cursor happlier
      cases hidle.symm.trans happlier
    · rintro body (happlier | hmem)
      · cases hidle.symm.trans happlier
      · exact hloading body hmem
  | some body =>
    obtain ⟨hplaced, hfits, hsame⟩ := hbody body hs
    have hold : Converges s body := h.shard (by rw [hidle]; rfl) body hs
    refine ⟨h.replayed, nofun, ?_, fun b hb => hloading b (hb.resolve_left (by rintro ⟨⟩))⟩
    intro patched batches' cursor' happlier
    cases happlier
    -- the patch does what the batches do one after the other, and what waits is the rest
    rw [Converges, hwaiting, settled_append] at hold
    rw [Converges, (Body.apply_usn_patch_cells hplaced hfits _).2, ← hold]
    exact faces_settled hsame

/-- A batch taken off the queue brings the body closer to what was polled, and a new body starts level
or ahead. -/
theorem TierInv.dispatch_msg (h : TierInv env s) (hheld : Held (fun body => Placed body.index) s)
    {reloaded : Option Answers} (hok : Retained env s (.take reloaded))
    (hstep : dispatch_msg env s reloaded = some s') : TierInv env s' := by
  obtain ⟨hpatch, hloads, hreload⟩ := hok
  have hbody : ∀ body, s.shard.body = some body → Placed body.index ∧ _ :=
    fun body hsome => ⟨hheld.shard body hsome, hpatch body hsome⟩
  -- a message without changes changes nothing
  have hpopped : ∀ rest, s.applier = .idle →
      (∀ cells, settled cells s.sink.waiting = settled cells ({ s.sink with queue := rest } : RegistryPatchSink).waiting) →
      ∀ disk saves, TierInv env { s with sink := { s.sink with queue := rest }, disk, saves } := by
    intro rest hidle hwaiting disk saves
    have hconverges : ∀ body, Converges s body → faces (settled (cell body.index) ({ s.sink with queue := rest } : RegistryPatchSink).waiting) =
        faces (settled (cell s.original.index) s.polled) := by
      intro body hbody
      rw [← hwaiting]
      exact hbody
    refine ⟨h.replayed, fun happlying body hsome => hconverges body (h.shard happlying body hsome), ?_,
      fun body hmem => (h.loading body hmem).imp id (hconverges body)⟩
    intro body batches cursor happlier
    cases hidle.symm.trans happlier
  unfold daemon.dispatch_msg at hstep
  split at hstep
  · rename_i batches cursor rest hidle hqueue
    rw [hqueue] at hbody hloads
    split at hstep
    · rename_i hempty
      cases hstep
      refine hpopped rest hidle ?_ _ s.saves
      intro cells
      rw [RegistryPatchSink.waiting, RegistryPatchSink.waiting, hqueue, queue_batches, List.append_assoc, settled_append,
        settled_of_no_changes (List.isEmpty_iff.mp hempty)]
    · cases hstep
      exact h.apply_to_body hidle (by rw [hqueue, queue_batches]) hbody hloads
  · rename_i batches rest hidle hqueue
    rw [hqueue] at hbody hloads
    rw [← hqueue] at hstep
    cases hstep
    refine h.apply_to_body hidle (coalesce_apply_run_batches _) ?_ ?_
    · rw [hqueue]
      exact hbody
    · rw [hqueue]
      exact hloads
  · rename_i rest hidle hqueue
    have hwaiting : s.sink.waiting = ({ s.sink with queue := rest } : RegistryPatchSink).waiting := by
      simp [RegistryPatchSink.waiting, hqueue, queue_batches]
    cases reloaded with
    | none =>
      cases hstep
      exact hpopped rest hidle (fun _ => by rw [hwaiting]) s.disk s.saves
    | some answers =>
      cases hstep
      have hold := hpopped rest hidle (fun _ => by rw [hwaiting]) s.disk s.saves
      refine ⟨h.replayed, fun _ => hold.shard (congrArg Applier.applying hidle), by rintro _ _ _ ⟨⟩, ?_⟩
      rintro body (happlier | hmem)
      · cases happlier
        refine ((hreload answers rfl).2 (by rw [hqueue]; rfl) _ rfl).imp id fun hread => ?_
        rw [Converges, ← hwaiting]
        exact hread.converges
      · exact hold.loading body (Or.inr hmem)
  · cases hstep

theorem TierInv.apply_journal_body (h : TierInv env s) (hok : Retained env s .swap)
    (hstep : apply_journal_body s = some s') : TierInv env s' := by
  cases apply_journal_body_effect hstep with
  | patched hs hshard _ happlier =>
    have hbody := h.applier _ _ _ hs
    rcases happlier with ⟨rfl, rfl⟩ | ⟨c, _, rfl, rfl⟩
    all_goals
      refine ⟨h.replayed, fun _ b hb => ?_, by rintro _ _ _ ⟨⟩, fun b hmem => h.loading b (Or.inr (hmem.resolve_left (by rintro ⟨⟩)))⟩
      rw [hshard b hb]
      exact hbody
  | refreshed hs hshard _ =>
    refine ⟨h.replayed, fun _ b hb => ?_, by rintro _ _ _ ⟨⟩, fun b hmem => h.loading b (Or.inr (hmem.resolve_left (by rintro ⟨⟩)))⟩
    rw [hshard b hb]
    exact (h.loading _ (Or.inl hs)).resolve_left (hok _ hs)

/-- The shard and the bodies on their way may change, when each has every change polled. -/
theorem TierInv.hold (h : TierInv env s) (shard : Shard) (saves loads : List Body) (disk : Disk)
    (hshard : s.applier.applying = false → ∀ body, shard.body = some body → Converges s body)
    (hloads : ∀ body ∈ loads, Ahead s body ∨ Converges s body) : TierInv env { s with shard, saves, loads, disk } := by
  refine ⟨h.replayed, hshard, h.applier, ?_⟩
  rintro body (happlier | hmem)
  · exact h.loading body (Or.inl happlier)
  · exact hloads body hmem

/-- A body gets into the shard when it has every change polled. -/
theorem TierInv.moved {event : Event} (h : TierInv env s) (hmoves : event.moves_bodies = true)
    (hok : Retained env s event) (hstep : step env s event = some s') : TierInv env s' := by
  obtain ⟨shard, saves, loads, disk, rfl, -, -, hkept, hloaded⟩ := moved_bodies hmoves hstep
  have hloads : ∀ body ∈ s.loads, Ahead s body ∨ Converges s body := fun body hmem => h.loading body (Or.inr hmem)
  refine h.hold shard saves loads disk (fun hidle body hbody => ?_) fun body hbody => ?_
  · rcases hkept body hbody with hold | ⟨i, hot, rfl, hsome⟩
    · exact h.shard hidle body hold
    · exact (hloads body (List.mem_of_getElem? hsome)).resolve_left (hok body hsome)
  · rcases hloaded body hbody with hold | ⟨rfl, hsome⟩ | ⟨refreshed, rfl, hsome⟩
    · exact hloads body hold
    · exact Or.inr (h.shard hok body hsome)
    · exact (hok.2 body hsome).imp id UpToPolls.converges

/-- A process starts with the body it has loaded and nothing polled. -/
theorem TierInv.start (hplaced : Placed s.original.index) (hshard : s.shard = .warm s.original) (hpolled : s.polled = [])
    (hwaiting : s.sink.waiting = []) (hloads : s.loads = []) (hidle : s.applier = .idle) : TierInv env s := by
  refine ⟨by rw [hpolled]; exact ⟨hplaced, rfl⟩, ?_, by rw [hidle]; exact nofun, ?_⟩
  · intro _ body hbody
    rw [hshard] at hbody
    cases hbody
    rw [Converges, hwaiting, hpolled]
  · exact fun body hbody => absurd hbody (not_loading hidle hloads)

theorem readable_placed {answers : Answers} (h : Held (fun body => Placed body.index) s) (hread : answers.Placed) :
    Readable (fun body => Placed body.index) s answers :=
  ⟨hread.1, fun cached hcached => ⟨h.index_cache cached hcached, fun _ => hread.2⟩⟩

theorem TierInv.held_step {event : Event} (hheld : Held (fun body => Placed body.index) s)
    (hok : Retained env s event) (hstep : daemon.step env s event = some s') : Held (fun body => Placed body.index) s' := by
  refine hheld.step hstep (fun answers hreads => readable_placed hheld ?_) ?_
  · cases event with
    | take reloaded => exact (hok.2.2 answers hreads).1
    | load refreshed => exact hok.1 answers hreads
    | restart answers =>
      cases hreads
      exact hok
    | _ => cases hreads
  · rintro reloaded body rfl hbody
    exact (Body.apply_usn_patch_cells (hheld.shard body hbody) (hok.1 body hbody).1 _).1

/-- Every step at which nothing polled is lost keeps the body on its way to the replayed index. -/
theorem TierInv.step {env : Env} {event : Event} (h : TierInv env s) (hheld : Held (fun body => Placed body.index) s)
    (hok : Retained env s event) (hstep : step env s event = some s') : TierInv env s' := by
  cases event with
  | write content =>
    cases hstep
    refine ⟨h.replayed, h.shard, h.applier, fun body hbody => (h.loading body hbody).imp (fun hahead => hahead.mono rfl ?_) id⟩
    intro usn husn
    simp only [unread, List.mem_filter, Volume.write] at husn ⊢
    exact ⟨List.mem_append_left _ husn.1, husn.2⟩
  | truncate first_usn =>
    obtain ⟨_, hvolume⟩ := Option.ite_none_right_eq_some.mp hstep
    cases hvolume
    exact ⟨h.replayed, h.shard, h.applier, h.loading⟩
  | recreate first_usn =>
    cases hstep
    exact ⟨h.replayed, h.shard, h.applier, fun body hbody => Or.inr ((h.loading body hbody).resolve_left (hok body hbody))⟩
  | poll changes aged settled_clock =>
    obtain ⟨hready, hturn⟩ := Option.ite_none_right_eq_some.mp hstep
    rw [Bool.and_eq_true, beq_iff_eq] at hready
    cases hturn
    exact h.turn hready.2 aged settled_clock hok
  | take reloaded => exact h.dispatch_msg hheld hok hstep
  | swap => exact h.apply_journal_body hok hstep
  | store =>
    simp only [daemon.step] at hstep
    split at hstep
    · next hs =>
      cases hstep
      exact ⟨h.replayed, fun _ => h.shard (by rw [hs]; rfl), by rintro _ _ _ ⟨⟩, fun body hmem => h.loading body (Or.inr (hmem.resolve_left (by rintro ⟨⟩)))⟩
    · cases hstep
  | written _ | write_failed _ | demote _ | load _ | snapshot | join _ | install _ _ =>
    exact h.moved rfl hok hstep
  | restart answers =>
    cases hstep
    obtain ⟨hshard, hpolled, hloads, hidle, hsink⟩ := load_live_drive_fresh s.volume s.disk s.wraps answers
    exact .start ((TierInv.held_step hheld hok rfl).shard _ (by rw [hshard]; rfl)) hshard hpolled (by rw [hsink]; rfl) hloads hidle
  | seed =>
    obtain ⟨cursor, _, rfl⟩ := Option.map_eq_some_iff.mp hstep
    exact ⟨h.replayed, h.shard, h.applier, fun body hbody => Or.inr ((h.loading body hbody).resolve_left (hok body hbody))⟩

/-- In every run of steps that lose nothing, a shard with a body and nothing left to apply shows the
body first loaded with every change polled since. -/
theorem retained_run_none_lost {env : Env} {letter : Char} {fold : CaseFold} {index : MftIndex} (hwf : WellFormed index)
    (hroomy : Roomy (build_compact_index env letter fold index)) (volume : Volume) (events : List Event) {s : Daemon}
    (hmeets : Meets (step env) (Retained env) (boot volume (build_compact_index env letter fold index)) events)
    (hrun : run_events (step env) (boot volume (build_compact_index env letter fold index)) events = some s) : NoneLost env s := by
  have hplaced : Placed (build_compact_index env letter fold index) := Reachable.placed hwf (.start hroomy)
  have hinv : TierInv env s ∧ Held (fun body => Placed body.index) s := by
    refine @run_invariant _ _ _ _ (fun s => TierInv env s ∧ Held (fun body => Placed body.index) s) ?_ _ _ _ ⟨?_, ?_⟩ hmeets hrun
    · intro s event s' h hok hstep
      exact ⟨h.1.step h.2 hok hstep, TierInv.held_step h.2 hok hstep⟩
    · exact .start hplaced rfl rfl rfl rfl rfl
    · exact .boot hplaced hplaced
  exact hinv.1.noneLost

/-- The volume after a directory was created. -/
def created_body : DriveCompactIndex := (usn.apply_usn_patch sample_env root_body [parent_created]).1

/-- A directory is created, polled and applied; the drive is parked, read again and promoted. -/
def promoted_create : List Event :=
  start ++ [.write (faces (cell created_body)), .poll [parent_created] false true, .take none, .swap, .demote .parked,
    .load (some { full := created_body, updated := created_body }), .install 0 false]

theorem root_body_fits (hlength : changes.length ≤ 3) (hbytes : ∀ change ∈ changes, (as_bytes change.filename).length ≤ 1) :
    Fits (usn.apply_usn_patch sample_env root_body changes).1 :=
  root_mft_fits (apply_usn_patch_rebuilt _ _ _) (by omega) hbytes

theorem promoted_create_meets : Meets (step sample_env) (Retained sample_env) (boot empty_volume root_body) promoted_create := by
  have hroot : Placed root_body := Reachable.placed root_mft_wellFormed (.start (roomy_build (by decide) sample_env 'C' ⟨[]⟩))
  obtain ⟨hplaced, hcells⟩ := hroot.patch_cells (@root_body_fits [parent_created] (by decide) (by decide))
  refine .cons trivial rfl ?_
  refine .cons (fun body hbody => absurd hbody (not_loading rfl rfl)) rfl ?_
  refine .cons trivial rfl ?_
  refine .cons ⟨by rintro ⟨⟩, root_body_fits (by decide) (by decide), fun body hbody => absurd hbody (not_loading rfl rfl)⟩ rfl ?_
  refine .cons ⟨?_, fun body hbody => absurd hbody List.not_mem_nil, fun _ hnone => absurd hnone (by rintro ⟨⟩)⟩ rfl ?_
  · intro body hbody
    cases hbody
    exact ⟨root_body_fits (by decide) (by decide), rfl⟩
  refine .cons (fun body hbody => absurd hbody (by rintro ⟨⟩)) rfl ?_
  refine .cons trivial rfl ?_
  refine .cons ⟨?_, ?_⟩ rfl ?_
  · intro answers hanswers
    cases hanswers
    exact ⟨hplaced, hplaced⟩
  · intro body hbody
    cases hbody
    exact Or.inr ⟨rfl, congrArg faces hcells.symm, rfl⟩
  refine .cons ?_ rfl trivial
  rintro body - ⟨usn, husn, -⟩
  exact List.not_mem_nil (show usn ∈ [] from husn)

/-- The body that is read and promoted shows the directory. -/
theorem retained_run_none_lost_promoted :
    ∃ s, run_events (step sample_env) (boot empty_volume root_body) promoted_create = some s ∧ s.polled.length = 1 ∧
      s.shard.body.isSome = true ∧ s.sink.pending = [] ∧ s.sink.queue = [] ∧ s.applier.applying = false ∧ NoneLost sample_env s := by
  refine ⟨_, rfl, rfl, rfl, rfl, rfl, rfl, ?_⟩
  exact retained_run_none_lost root_mft_wellFormed (roomy_build (by decide) sample_env 'C' ⟨[]⟩) empty_volume promoted_create
    promoted_create_meets rfl

def preloaded_create : List Event :=
  start ++ [.snapshot, .write fun _ => none, .poll [parent_created] false true, .take none, .swap, .install 0 true]

/-- A preload clones the Warm body, the create is applied to the shard, and the preload installs its
older clone over it. -/
theorem preload_drops_applied_create :
    ∃ s, run_events (step sample_env) (boot empty_volume root_body) preloaded_create = some s ∧ ¬ NoneLost sample_env s := by
  refine ⟨_, rfl, ?_⟩
  intro h
  have hview : view root_body 30 = view (usn.apply_usn_patch sample_env root_body [parent_created]).1 30 := h _ rfl rfl rfl rfl 30
  exact absurd hview (by decide)

end uffs.daemon
