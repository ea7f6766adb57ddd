import Uffs.Daemon.Tiering

open uffs.bloom uffs.compact

namespace uffs.daemon.forget_drive

/-! Forgetting drives while searches promote them, the journal patches and saves them, and loads bring them back. -/

/-- What the daemon keeps of a drive on disk. -/
inductive CacheFile where
  | compact
  | usn_cursor
  | index
  | lock
deriving DecidableEq

/-- In the order in which they are unlinked. -/
def drive_cache_paths : List CacheFile := [.compact, .usn_cursor, .index, .lock]

/-- The files that hold what is in an index. -/
def CacheFile.holds_index (self : CacheFile) : Bool := self == .compact || self == .index

abbrev Disk : Type := Char → CacheFile → Option Nat

def Disk.put (disk : Disk) (letter : Char) (file : CacheFile) (size : Option Nat) : Disk := fun other other_file =>
  if other = letter ∧ other_file = file then size else disk other other_file

/-- Who reads a drive again. -/
inductive Loader where
  /-- A search that found it Parked or Cold. -/
  | ensure_warm
  /-- The operator, to have it Hot. -/
  | preload
  /-- The journal loop, after a wrap. It does not look at the registry. -/
  | journal_refresh
  /-- A refresh of the drives that are searched. -/
  | refresh
  /-- The operator loads the drive. -/
  | hot_load_drive
  /-- The operator loads a capture of the drive. -/
  | load_single_mft_file
  /-- A search for a drive that has no shard. -/
  | ensure_drives_loaded
deriving DecidableEq

namespace Loader

/-- An explicit load. -/
def explicit (self : Loader) : Bool := self == .hot_load_drive || self == .load_single_mft_file

/-- A load of a drive that need not be registered and that nobody asked for. -/
def unasked (self : Loader) : Bool := self == .journal_refresh || self == .ensure_drives_loaded

/-- Loads of a drive that need not be registered. -/
def any_drive (self : Loader) : Bool := self.explicit || self.unasked

/-- What is done with the body. -/
def op (self : Loader) (letter : Char) (body : DriveCompactIndex) : RegistryOp :=
  match self with
  | .ensure_warm => .promote letter body
  | .preload => .promote_to_hot letter body
  | .journal_refresh => .replace_warm_body letter body
  | .refresh => .replace letter body
  | .hot_load_drive => .replace letter body
  | .load_single_mft_file | .ensure_drives_loaded => .add body

end Loader

/-- A load in flight. -/
structure Load where
  loader : Loader
  letter : Char
deriving DecidableEq

/-- A batch of changes that is being applied to a snapshot of a shard, to be saved or not. -/
structure Patch where
  letter : Char
  save : Bool
deriving DecidableEq

structure ForgetOutcome where
  forgotten : List Char := []
  already_absent : List Char := []
  freed_bytes : Nat := 0
  errors : List (Char × CacheFile) := []
deriving DecidableEq

inductive ForgetOutcomeOrBusy where
  | Ok (outcome : ForgetOutcome)
  | Busy (busy : List (Char × ShardState))
deriving DecidableEq

def saturating_add_u64 (a b : Nat) : Nat := min (a + b) (2 ^ 64 - 1)

/-- A call that found no drive busy. -/
structure ForgetTask where
  force : Bool
  /-- What is still to be hibernated. -/
  hibernate : List Char
  /-- What is still to be evicted. -/
  waiting : List Char
  /-- The drive that has been evicted last, with the files still to be unlinked. -/
  cleaning : Option (Char × List CacheFile) := none
  /-- What its files had, and which of them are still there. -/
  freed : Nat := 0
  errors : List (Char × CacheFile) := []
  /-- What is done with. -/
  cleaned : List Char := []
  outcome : ForgetOutcome := {}
deriving DecidableEq

/-- What a call does next. -/
inductive Action where
  | auto_hibernate (letter : Char)
  | evict (letter : Char)
  | unlink (letter : Char) (file : CacheFile)
  | classify (letter : Char)
  | finish
deriving DecidableEq

namespace ForgetTask

def next (self : ForgetTask) : Action :=
  match self.hibernate, self.cleaning, self.waiting with
  | letter :: _, _, _ => .auto_hibernate letter
  | [], some (letter, file :: _), _ => .unlink letter file
  | [], some (letter, []), _ => .classify letter
  | [], none, letter :: _ => .evict letter
  | [], none, [] => .finish

/-- One file on. -/
def step_file (self : ForgetTask) : ForgetTask :=
  { self with cleaning := self.cleaning.map fun (letter, files) => (letter, files.tail) }

def classify (self : ForgetTask) (letter : Char) : ForgetTask :=
  let errors := self.outcome.errors ++ self.errors
  let outcome := { self.outcome with freed_bytes := saturating_add_u64 self.outcome.freed_bytes self.freed, errors }
  let had_errors := errors.getLast?.any fun error => error.1 = letter
  { self with
    cleaning := none
    cleaned := self.cleaned ++ [letter]
    outcome :=
      if 0 < self.freed then { outcome with forgotten := outcome.forgotten ++ [letter] }
      else if had_errors then outcome else { outcome with already_absent := outcome.already_absent ++ [letter] } }

/-- The drives that are out of the registry on account of this call. -/
def evicted (self : ForgetTask) : List Char := (self.cleaning.map Prod.fst).toList ++ self.cleaned

/-- There is an error entry for the drive. -/
def failed (self : ForgetTask) (letter : Char) : Bool := self.outcome.errors.any fun error => error.1 = letter

end ForgetTask

structure State where
  registry : ShardRegistry
  disk : Disk
  loads : List Load := []
  patches : List Patch := []
  /-- Cache files that background tasks are going to write. -/
  writes : List (Char × CacheFile) := []
  tasks : List ForgetTask := []
  answers : List ForgetOutcomeOrBusy := []
  /-- Drives forgotten without an error, and not loaded again since. -/
  forgotten : Char → Bool := fun _ => false

inductive Event where
  | load_begin (load : Load)
  /-- A load has something to save. -/
  | load_write (i : Nat) (file : CacheFile)
  /-- A load ends, with a body unless it fails. -/
  | load_done (i : Nat) (body : Option DriveCompactIndex)
  | patch_begin (patch : Patch)
  | patch_done (i : Nat) (body : Option DriveCompactIndex)
  /-- A background write ends, with a file unless it fails. -/
  | write (i : Nat) (size : Option Nat)
  /-- A controller or a hibernate demotes a shard. -/
  | demote (letter : Char) (target : ShardState)
  | forget_drives (drives : List Char) (force : Bool)
  /-- A call goes on; `fails` says whether a file that it unlinks stays. -/
  | forget_step (i : Nat) (fails : Bool)

namespace State

/-- The drives that keep a call from being done. -/
def busy (self : State) (drives : List Char) (force : Bool) : List (Char × ShardState) :=
  drives.filterMap fun letter => do
    let shard ← self.registry.shard_of letter
    if !force && shard.state ≠ .cold then some (letter, shard.state) else none

/-- Drives that were found above Cold. -/
def to_hibernate (self : State) (drives : List Char) : List Char :=
  drives.filter fun letter => (self.registry.shard_of letter).any fun shard => shard.state ≠ .cold

/-- The shard that a load of the kind looks for. -/
def loadable (self : State) (load : Load) : Bool :=
  load.loader.any_drive || (self.registry.shard_of load.letter).any fun shard =>
    match load.loader with
    | .ensure_warm => shard.state = .parked || shard.state = .cold
    | .preload => shard.state = .parked || shard.state = .cold || shard.state = .warm
    | _ => shard.resident

def set_task (self : State) (i : Nat) (task : ForgetTask) : State := { self with tasks := self.tasks.set i task }

def forget_step (env : Env) (self : State) (i : Nat) (task : ForgetTask) (fails : Bool) : State :=
  match task.next with
  | .auto_hibernate letter =>
    { self with registry := self.registry.after env (.demote letter .cold) }.set_task i { task with hibernate := task.hibernate.tail }
  | .evict letter =>
    { self with registry := self.registry.remove letter }.set_task i
      { task with waiting := task.waiting.tail, cleaning := some (letter, drive_cache_paths), freed := 0, errors := [] }
  | .unlink letter file =>
    match self.disk letter file with
    | none => self.set_task i task.step_file
    | some size =>
      if fails then self.set_task i { task.step_file with errors := task.errors ++ [(letter, file)] }
      else { self with disk := self.disk.put letter file none }.set_task i
        { task.step_file with freed := saturating_add_u64 task.freed size }
  | .classify letter => self.set_task i (task.classify letter)
  | .finish =>
    { self with
      tasks := self.tasks.eraseIdx i
      answers := self.answers ++ [.Ok task.outcome]
      forgotten := fun letter => self.forgotten letter || (decide (letter ∈ task.cleaned) && !task.failed letter) }

def step (env : Env) (self : State) : Event → Option State
  | .load_begin load =>
    if self.loadable load then
      some { self with
        loads := self.loads ++ [load]
        forgotten := fun letter => self.forgotten letter && !(load.loader.explicit && letter = load.letter) }
    else none
  | .load_write i file => self.loads[i]?.map fun load => { self with writes := self.writes ++ [(load.letter, file)] }
  | .load_done i none => self.loads[i]?.map fun _ => { self with loads := self.loads.eraseIdx i }
  | .load_done i (some body) => do
    let load ← self.loads[i]?
    if body.letter = load.letter then
      some { self with registry := self.registry.after env (load.loader.op load.letter body), loads := self.loads.eraseIdx i }
    else none
  | .patch_begin patch =>
    if (self.registry.shard_of patch.letter).any ShardEntry.resident then some { self with patches := self.patches ++ [patch] } else none
  | .patch_done i none => self.patches[i]?.map fun _ => { self with patches := self.patches.eraseIdx i }
  | .patch_done i (some body) => do
    let patch ← self.patches[i]?
    match self.registry.replace_warm_body patch.letter body with
    -- demoted or gone in the meantime
    | none => some { self with patches := self.patches.eraseIdx i }
    | some registry =>
      some { self with
        registry, patches := self.patches.eraseIdx i
        writes := if patch.save then self.writes ++ [(patch.letter, .compact)] else self.writes }
  | .write i none => self.writes[i]?.map fun _ => { self with writes := self.writes.eraseIdx i }
  | .write i (some size) => do
    let (letter, file) ← self.writes[i]?
    some { self with disk := self.disk.put letter file (some size), writes := self.writes.eraseIdx i }
  | .demote letter target => some { self with registry := self.registry.after env (.demote letter target) }
  | .forget_drives drives force =>
    match self.busy drives force with
    | [] =>
      some { self with
        tasks := self.tasks ++ [{ force, hibernate := if force then self.to_hibernate drives else [], waiting := drives }] }
    | busy => some { self with answers := self.answers ++ [.Busy busy] }
  | .forget_step i fails => self.tasks[i]?.map fun task => self.forget_step env i task fails

end State

/-- A forgotten drive stays so: no shard, and nothing on disk to have one again. -/
def Forgotten (s : State) : Prop := ∀ letter, s.forgotten letter = true →
  (∀ shard ∈ s.registry.shards, shard.drive ≠ letter) ∧ s.disk letter .compact = none ∧ s.disk letter .index = none

/-- What a call that is not to use force evicts next is Cold. -/
def Guarded (s : State) : Prop := ∀ task ∈ s.tasks, task.force = false → ∀ letter, task.next = .evict letter →
  ∀ shard ∈ s.registry.shards, shard.drive = letter → shard.state = .cold

/-- Steps that do not bring back what is being forgotten, nor wake what a call has found Cold. -/
def Careful (s : State) : Event → Prop
  | .load_begin load =>
    (load.loader.any_drive = true → ∀ task ∈ s.tasks, load.letter ∉ task.evicted) ∧
      (load.loader.unasked = true → s.forgotten load.letter = false)
  | .load_done i (some _) => ∀ load, s.loads[i]? = some load → load.loader = .journal_refresh ∨
      ∀ task ∈ s.tasks, task.force = false → load.letter ∉ task.waiting
  -- the first shard of a letter is the one that is found
  | .forget_drives drives force => force = true ∨ ∀ letter ∈ drives, ∀ shard ∈ s.registry.shards, shard.drive = letter →
      s.registry.shard_of letter = some shard
  | .forget_step i _ => ∀ task, s.tasks[i]? = some task →
    match task.next with
    | .evict letter => ∀ load ∈ s.loads, load.letter ≠ letter
    | .unlink letter file => file.holds_index = true → (letter, file) ∉ s.writes
    | _ => True
  | _ => True

end uffs.daemon.forget_drive
