import Uffs.Search.BloomSkip
import Uffs.Usn.View

open uffs.bloom uffs.compact uffs.usn uffs.compact_cache

namespace uffs.daemon

/-- A change in a USN journal: the journal it was written to and its number there. -/
structure Mark where
  journal_id : Nat
  usn : Nat
deriving DecidableEq

/-- A read position in a journal. `journal_id` says which journal it was read from; the file on disk
and the save message hold the number alone. -/
structure Cursor where
  value : Nat := 0
  journal_id : Nat := 0
deriving DecidableEq

/-- The aggregated changes of one poll, with the journal changes they were made of and the number of
journal wraps before it. -/
structure Batch where
  changes : List FileChange
  marks : List Mark
  wraps : Nat

/-- The change vector the sink has put together from several polls. -/
def changes_of (batches : List Batch) : List FileChange := batches.flatMap Batch.changes

def marks_of (batches : List Batch) : List Mark := batches.flatMap Batch.marks

/-- The body of a shard. How it came about is not stored with it: what was read from the volume and
the journal changes that were in it, the patches applied since, and the journal and the number of wraps
when it was last brought up to the volume. -/
structure Body where
  index : DriveCompactIndex
  read_index : DriveCompactIndex
  read_marks : List Mark
  patches : List (List Batch × Bool) := []
  journal_id : Nat
  wraps : Nat

/-- The journal changes the body reflects. -/
def Body.marks (self : Body) : List Mark := self.read_marks ++ self.patches.flatMap fun patch => marks_of patch.1

/-- The volume behind a shard: its USN journal, with the numbers of all changes written to it, and what
its records show. -/
structure Volume where
  journal_id : Nat
  first_usn : Nat := 0
  next_usn : Nat := 0
  usns : List Nat := []
  content : UInt64 → Option (UInt64 × Option Seen) := fun _ => none
  below : ∀ usn ∈ usns, usn < next_usn := by simp

/-- A body read from the MFT now. -/
def Body.read (volume : Volume) (wraps : Nat) (index : DriveCompactIndex) : Body where
  index := index
  read_index := index
  read_marks := volume.usns.map (Mark.mk volume.journal_id)
  journal_id := volume.journal_id
  wraps := wraps

/-- Patch an index with a batch; a save folds the overlay. -/
def patch_index (env : Env) (index : DriveCompactIndex) (patch : List Batch × Bool) : DriveCompactIndex :=
  let patched := (usn.apply_usn_patch env index (changes_of patch.1)).1
  if patch.2 then patched.fold_delta_for_save else patched

/-- Clone the body and patch the clone. -/
def Body.apply_usn_patch (env : Env) (body : Body) (batches : List Batch) (fold_delta : Bool) : Body :=
  { body with
    index := patch_index env body.index (batches, fold_delta)
    patches := body.patches ++ [(batches, fold_delta)] }

/-- The index of the body reflects the change: it is an index read when the volume had the change, or
one patched since with a batch that has it. -/
def Body.Reflects (env : Env) (body : Body) (mark : Mark) : Prop :=
  body.index = body.patches.foldl (patch_index env) body.read_index ∧
    (mark ∈ body.read_marks ∨ ∃ patch ∈ body.patches, ∃ batch ∈ patch.1, mark ∈ batch.marks)

/-- A shard in its tier. Only Warm and Hot shards have a body, a Parked one keeps the filters. -/
inductive Shard where
  | warm (body : Body)
  | hot (body : Body)
  | parked (parked_body : ParkedBody)
  | cold

def Shard.body : Shard → Option Body
  | .warm body => some body
  | .hot body => some body
  | .parked _ => none
  | .cold => none

inductive Tier where
  | parked
  | cold
deriving DecidableEq

/-- Hot and Warm go to Parked or Cold, Parked goes to Cold. -/
def demote_letter (env : Env) (shard : Shard) (target : Tier) : Option Shard :=
  match shard, target with
  | .warm body, .parked => some (.parked (to_parked_body env body.index))
  | .hot body, .parked => some (.parked (to_parked_body env body.index))
  | .cold, _ => none
  | .parked _, .parked => none
  | _, .cold => some .cold

def promote_letter (shard : Shard) (body : Body) : Option Shard :=
  match shard with
  | .parked _ => some (.warm body)
  | .cold => some (.warm body)
  | _ => none

def promote_letter_to_hot (shard : Shard) (body : Body) : Option Shard :=
  match shard with
  | .hot _ => none
  | _ => some (.hot body)

/-- Swap in a patched or reloaded body; a Hot shard becomes Warm. -/
def replace_warm_body (shard : Shard) (body : Body) : Option Shard :=
  match shard with
  | .warm _ => some (.warm body)
  | .hot _ => some (.warm body)
  | _ => none

inductive ApplyMsg where
  | save (batches : List Batch) (cursor : Cursor)
  | apply (batches : List Batch)
  | wrap

/-- The sink of one drive: the pending buffer and the channel into the applier task. -/
structure RegistryPatchSink where
  pending : List Batch := []
  queue : List ApplyMsg := []

def RegistryPatchSink.accept (self : RegistryPatchSink) (batch : Batch) : RegistryPatchSink :=
  { self with pending := self.pending ++ [batch] }

def RegistryPatchSink.trigger_save (self : RegistryPatchSink) (cursor : Cursor) : RegistryPatchSink where
  pending := []
  queue := self.queue ++ [.save self.pending cursor]

def RegistryPatchSink.trigger_apply (self : RegistryPatchSink) : RegistryPatchSink :=
  if (changes_of self.pending).isEmpty then { self with pending := [] }
  else { pending := [], queue := self.queue ++ [.apply self.pending] }

def RegistryPatchSink.journal_wrapped (self : RegistryPatchSink) : RegistryPatchSink where
  pending := []
  queue := self.queue ++ [.wrap]

structure JournalPollResult where
  changes : List FileChange
  next_cursor : Nat
  journal_id : Nat

/-- The poll of a live journal: a cursor before the first record of the journal is answered with an
empty result and the cursor 0. `changes` is the aggregate of the records that are read otherwise. -/
def WindowsJournalSource.poll (volume : Volume) (changes : List FileChange) (cursor : Nat) : JournalPollResult :=
  if cursor < volume.first_usn then { changes := [], next_cursor := 0, journal_id := volume.journal_id }
  else { changes := changes, next_cursor := volume.next_usn, journal_id := volume.journal_id }

/-- The changes a poll from `cursor` reads. -/
def unread (volume : Volume) (cursor : Nat) : List Nat := volume.usns.filter fun usn => cursor ≤ usn

/-- The journal loop's own state: its cursor, the journal it has seen last, the number of changes
since the last save, and whether a change waits for an apply tick. -/
structure JournalLoop where
  cursor : Cursor := {}
  last_journal_id : Option Nat := none
  events_since_save : Nat := 0
  first_change_at : Bool := false

def DEFAULT_SAVE_THRESHOLD_EVENTS : Nat := 50000

/-- A save is due with enough changes, or with any change once the last save is old. -/
def save_due (events_since_save : Nat) (aged : Bool) : Bool :=
  events_since_save != 0 && (decide (DEFAULT_SAVE_THRESHOLD_EVENTS ≤ events_since_save) || aged)

/-- At most one of save and apply is fired in a tick. `aged` and `settled` are the clocks' answers. -/
def fire_due_cadence (loop : JournalLoop) (sink : RegistryPatchSink) (aged settled : Bool) : JournalLoop × RegistryPatchSink :=
  if save_due loop.events_since_save aged then
    ({ loop with events_since_save := 0, first_change_at := false }, sink.trigger_save loop.cursor)
  else if loop.first_change_at && settled then ({ loop with first_change_at := false }, sink.trigger_apply)
  else (loop, sink)

/-- Buffer the changes of a poll, then fire what is due. -/
def process_tick (loop : JournalLoop) (sink : RegistryPatchSink) (batch : Batch) (aged settled : Bool) :
    JournalLoop × RegistryPatchSink :=
  if batch.changes.isEmpty then fire_due_cadence loop sink aged settled
  else
    fire_due_cadence { loop with events_since_save := loop.events_since_save + batch.changes.length, first_change_at := true }
      (sink.accept batch) aged settled

inductive WarmLoadStrategy where
  | FastFromCompactCache
  | FullRebuild
deriving DecidableEq

def decide_strategy (cursor first_usn next_usn : Nat) : WarmLoadStrategy :=
  if cursor = 0 then .FullRebuild
  else if cursor < first_usn ∨ next_usn < cursor then .FullRebuild
  else .FastFromCompactCache

end uffs.daemon
