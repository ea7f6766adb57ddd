import Uffs.Daemon.Refresh
import Uffs.Lib.Machine

open uffs.bloom uffs.compact uffs.usn

namespace uffs.daemon

/-- Where the applier task stands in the message it handles. -/
inductive Applier where
  | idle
  /-- The clone is patched, outside the lock; the swap is next. -/
  | patched (body : Body) (batches : List Batch) (cursor : Option Cursor)
  /-- The body is swapped in and its cache save is spawned; the cursor is stored next. -/
  | swapped (body : Body) (cursor : Cursor)
  /-- The body is reloaded after a wrap; the swap is next. -/
  | refreshed (body : Body)

/-- The daemon, as far as one drive sees it. -/
structure Daemon where
  volume : Volume
  loop : JournalLoop := {}
  sink : RegistryPatchSink := {}
  applier : Applier := .idle
  shard : Shard := .cold
  /-- Cache saves that are not finished. -/
  saves : List Body := []
  /-- Bodies loaded or cloned for a promotion that are not swapped in. -/
  loads : List Body := []
  /-- The cursor a full rebuild is about to store. -/
  seed : Option Cursor := none
  disk : Disk := {}
  /-- The body this process has loaded first. -/
  original : Body
  /-- Every batch polled since then, and those whose message the applier is done with. -/
  polled : List Batch := []
  handled : List Batch := []
  /-- How often the journal loop has lost its place: a new journal, or a cursor before its start. -/
  wraps : Nat := 0

inductive Event where
  /-- The volume writes a change to its journal, drops the oldest ones, or gets a new journal. -/
  | write (content : UInt64 → Option (UInt64 × Option Seen))
  | truncate (first_usn : Nat)
  | recreate (first_usn : Nat)
  /-- A poll of the journal loop: the aggregate of what is read, and the two clocks. -/
  | poll (changes : List FileChange) (aged settled : Bool)
  /-- The applier takes a message. A wrap reloads the body, or fails to. -/
  | take (reloaded : Option Answers)
  | swap
  | store
  /-- A background cache save ends. -/
  | written (i : Nat)
  | write_failed (i : Nat)
  | demote (target : Tier)
  /-- The body loader reads the refreshed body, or falls back to the cache. -/
  | load (refreshed : Option Answers)
  /-- A preload clones the Warm body. -/
  | snapshot
  /-- Another promotion joins a load in flight. -/
  | join (i : Nat)
  | install (i : Nat) (hot : Bool)
  | restart (answers : Answers)
  | seed

def Volume.write (self : Volume) (content : UInt64 → Option (UInt64 × Option Seen)) : Volume :=
  { self with
    content
    usns := self.usns ++ [self.next_usn]
    next_usn := self.next_usn + 1
    below := by
      intro usn husn
      rcases List.mem_append.mp husn with h | h
      · have := self.below usn h
        omega
      · rw [List.mem_singleton.mp h]
        omega }

/-- A new journal has an identifier no journal of the volume has had. -/
def Volume.recreate (self : Volume) (first_usn : Nat) : Volume where
  journal_id := self.journal_id + 1
  first_usn := first_usn
  next_usn := first_usn
  content := self.content

/-- Read the drive; with a journal, a cursor is stored after it. -/
def full_rebuild (volume : Volume) (disk : Disk) (wraps : Nat) (answers : Answers) : Daemon :=
  let read := read_index_cached volume wraps disk answers
  { volume, wraps
    disk := read.2
    loop := { cursor := disk.cursor }
    shard := .warm read.1
    original := read.1
    saves := [read.1]
    seed := if answers.journal then
        some (if disk.cursor.value ≤ volume.next_usn then ⟨volume.next_usn, volume.journal_id⟩ else disk.cursor)
      else none }

/-- Load the drive at the start of the process: the compact cache while the stored cursor is in the
journal, else a rebuild. -/
def load_live_drive (volume : Volume) (disk : Disk) (wraps : Nat) (answers : Answers) : Daemon :=
  if answers.journal then
    match decide_strategy disk.cursor.value volume.first_usn volume.next_usn, disk.cache with
    | .FastFromCompactCache, some cache =>
      { volume, disk, wraps, loop := { cursor := disk.cursor }, shard := .warm cache, original := cache }
    | _, _ => full_rebuild volume disk wraps answers
  else full_rebuild volume disk wraps answers

/-- One turn of the loop after a successful poll. -/
def JournalLoop.turn (s : Daemon) (changes : List FileChange) (aged settled : Bool) : Daemon :=
  let result := WindowsJournalSource.poll s.volume changes s.loop.cursor.value
  if s.loop.last_journal_id.any fun prev_id => result.journal_id != 0 && result.journal_id != prev_id then
    -- the journal is a new one: discard, ask for a reload, start over
    { s with
      wraps := s.wraps + 1
      sink := s.sink.journal_wrapped
      loop := { s.loop with cursor := ⟨0, result.journal_id⟩, last_journal_id := some result.journal_id }
      disk := { s.disk with cursor := ⟨0, result.journal_id⟩ } }
  else
    let last_journal_id := if result.journal_id != 0 then some result.journal_id else s.loop.last_journal_id
    let wraps := if s.loop.cursor.value < s.volume.first_usn then s.wraps + 1 else s.wraps
    let batch : Batch :=
      { wraps
        changes := result.changes
        marks := if result.changes.isEmpty then [] else (unread s.volume s.loop.cursor.value).map (Mark.mk result.journal_id) }
    let (loop, sink) := process_tick { s.loop with cursor := ⟨result.next_cursor, result.journal_id⟩, last_journal_id }
      s.sink batch aged settled
    { s with loop, sink, wraps, polled := if batch.changes.isEmpty then s.polled else s.polled ++ [batch] }

/-- The run of apply messages at the head of the channel, merged. -/
def coalesce_apply_run : List ApplyMsg → List Batch × List ApplyMsg
  | .apply batches :: rest => (batches ++ (coalesce_apply_run rest).1, (coalesce_apply_run rest).2)
  | queue => ([], queue)

/-- Clone and patch the body for a batch, which is dropped when the shard has none. -/
def apply_to_body (env : Env) (s : Daemon) (batches : List Batch) (cursor : Option Cursor) : Daemon :=
  match s.shard.body with
  | none => { s with handled := s.handled ++ batches }
  | some body => { s with applier := .patched (body.apply_usn_patch env batches cursor.isSome) batches cursor }

/-- The applier takes the next message off the channel. -/
def dispatch_msg (env : Env) (s : Daemon) (reloaded : Option Answers) : Option Daemon :=
  match s.applier, s.sink.queue with
  | .idle, .save batches cursor :: rest =>
    let s' := { s with sink := { s.sink with queue := rest } }
    -- an empty batch is a success without a save
    if (changes_of batches).isEmpty then some { s' with disk := { s.disk with cursor } }
    else some (apply_to_body env s' batches (some cursor))
  | .idle, .apply batches :: rest =>
    let (merged, left) := coalesce_apply_run (.apply batches :: rest)
    some (apply_to_body env { s with sink := { s.sink with queue := left } } merged none)
  | .idle, .wrap :: rest =>
    let s' := { s with sink := { s.sink with queue := rest } }
    match reloaded with
    | none => some s'
    | some answers =>
      let read := read_index_cached s.volume s.wraps s.disk answers
      some { s' with applier := .refreshed read.1, saves := s.saves ++ [read.1], disk := read.2 }
  | _, _ => none

/-- The applier swaps the new body in; in a shard without a body it is dropped. -/
def apply_journal_body (s : Daemon) : Option Daemon :=
  match s.applier with
  | .patched body batches cursor =>
    let s' := { s with handled := s.handled ++ batches }
    match replace_warm_body s.shard body, cursor with
    | none, _ => some { s' with applier := .idle }
    | some shard, none => some { s' with shard, applier := .idle }
    | some shard, some cursor => some { s' with shard, applier := .swapped body cursor, saves := s.saves ++ [body] }
  | .refreshed body => some { s with shard := (replace_warm_body s.shard body).getD s.shard, applier := .idle }
  | _ => none

/-- A Parked or Cold shard gets a body: refreshed from the volume, or the bare cache. -/
def DiskBodyLoader.load (s : Daemon) (refreshed : Option Answers) : Option Daemon :=
  match s.shard.body, refreshed, s.disk.cache with
  | some _, _, _ => none
  | none, some answers, _ =>
    let read := read_index_cached s.volume s.wraps s.disk answers
    some { s with loads := s.loads ++ [read.1], saves := s.saves ++ [read.1], disk := read.2 }
  | none, none, some cache => some { s with loads := s.loads ++ [cache] }
  | none, none, none => some s

def step (env : Env) (s : Daemon) : Event → Option Daemon
  | .write content => some { s with volume := s.volume.write content }
  | .truncate first_usn =>
    if first_usn ≤ s.volume.next_usn then some { s with volume := { s.volume with first_usn := max s.volume.first_usn first_usn } }
    else none
  | .recreate first_usn => some { s with volume := s.volume.recreate first_usn }
  | .poll changes aged settled =>
    -- there are changes exactly when there are records to read
    if s.seed.isNone && changes.isEmpty == (unread s.volume s.loop.cursor.value).isEmpty then some (JournalLoop.turn s changes aged settled)
    else none
  | .take reloaded => dispatch_msg env s reloaded
  | .swap => apply_journal_body s
  | .store =>
    match s.applier with
    | .swapped _ cursor => some { s with applier := .idle, disk := { s.disk with cursor } }
    | _ => none
  | .written i => s.saves[i]?.map fun body => { s with saves := s.saves.eraseIdx i, disk := { s.disk with cache := some body } }
  | .write_failed i => s.saves[i]?.map fun _ => { s with saves := s.saves.eraseIdx i }
  | .demote target => (demote_letter env s.shard target).map fun shard => { s with shard }
  | .load refreshed => DiskBodyLoader.load s refreshed
  | .snapshot =>
    match s.shard with
    | .warm body => some { s with loads := s.loads ++ [body] }
    | _ => none
  | .join i => s.loads[i]?.map fun body => { s with loads := s.loads ++ [body] }
  | .install i hot => s.loads[i]?.map fun body =>
    { s with
      loads := s.loads.eraseIdx i
      shard := (if hot then promote_letter_to_hot s.shard body else promote_letter s.shard body).getD s.shard }
  | .restart answers => some (load_live_drive s.volume s.disk s.wraps answers)
  | .seed => s.seed.map fun cursor =>
    { s with seed := none, disk := { s.disk with cursor }, loop := { s.loop with cursor } }

/-- The first start on a volume without cache files. -/
def boot (volume : Volume) (rebuilt : DriveCompactIndex) : Daemon :=
  load_live_drive volume {} 0 { full := rebuilt, updated := rebuilt }

end uffs.daemon
