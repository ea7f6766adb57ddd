import Uffs.Lib.Crash
import Uffs.Text.Utf8

open uffs.lib uffs.text

namespace uffs.update

/-! The self-updater: its journal, the steps on the install, and the runs of `apply` and `recover`. -/

/-- A file by its directory and its name. -/
structure Path where
  dir : Str
  file : Str
deriving DecidableEq

inductive UpdateState where
  | init
  | preflight_ok
  | acquired
  | quiesced
  | swapping
  | swapped
  | smoke_ok
  | restored
  | verified
  | done
  | rolling_back
  | rolled_back
  | aborted
deriving DecidableEq

def UpdateState.is_terminal : UpdateState → Bool
  | .done | .aborted => true
  | _ => false

inductive BinaryStatus where
  | pending
  | backed_up
  | swapped
  | smoke_ok
  | rolled_back
deriving DecidableEq

structure BinaryEntry where
  name : Str
  status : BinaryStatus := .pending
  /-- No file of this name existed; rollback deletes what was placed. -/
  added : Bool := false
deriving DecidableEq

structure TargetEntry where
  root : Str
  binaries : List BinaryEntry
deriving DecidableEq

structure Journal where
  snapshot_ref : Option Str := none
  state : UpdateState := .init
  commit_point_passed : Bool := false
  targets : List TargetEntry := []
  services_stopped : List Str := []
  delegated_winget : List Str := []
deriving DecidableEq

namespace Journal

/-- Write to the entries of a binary, none when it is not tracked. -/
def set_binary (self : Journal) (root name : Str) (f : BinaryEntry → BinaryEntry) : Journal :=
  { self with targets := self.targets.map fun target =>
      if target.root = root then
        { target with binaries := target.binaries.map fun binary => if binary.name = name then f binary else binary }
      else target }

def set_binary_status (self : Journal) (root name : Str) (status : BinaryStatus) : Journal :=
  self.set_binary root name fun binary => { binary with status }

def set_binary_added (self : Journal) (root name : Str) : Journal :=
  self.set_binary root name fun binary => { binary with added := true }

def needs_recovery (self : Journal) (owner_alive : Bool) : Bool := !self.state.is_terminal && !owner_alive

end Journal

section disk

variable {Image : Type}

/-- The files, and the live journal of the update directory. -/
structure Disk (Image : Type) where
  files : Path → Option Image
  journal : Option Journal

namespace Disk

def write (self : Disk Image) (path : Path) (image : Option Image) : Disk Image :=
  { self with files := Function.update self.files path image }

/-- A rename replaces its destination; without a source it fails and does nothing. -/
def rename (self : Disk Image) (source dest : Path) : Disk Image :=
  match self.files source with
  | some image => (self.write source none).write dest (some image)
  | none => self

end Disk

abbrev Program (Image α : Type) := Prog (Disk Image) α

def exists_ (path : Path) : Program Image Bool := .read fun disk => (disk.files path).isSome

/-- True when there was something to rename. -/
def rename (source dest : Path) : Program Image Bool :=
  .act (fun disk => disk.rename source dest) fun disk => .ret (disk.files source).isSome

def remove_file (path : Path) : Program Image Unit := .write fun disk => disk.write path none

def Journal.load : Program Image (Option Journal) := .read Disk.journal

def Journal.save (self : Journal) : Program Image Unit := .write fun disk => { disk with journal := some self }

def Journal.transition (self : Journal) (state : UpdateState) : Program Image Journal := do
  let self := { self with state }
  self.save
  pure self

def Journal.commit (self : Journal) : Program Image Journal :=
  { self with commit_point_passed := true }.transition .smoke_ok

/-- The live journal is moved away. -/
def Journal.archive : Program Image Unit := .write fun disk => { disk with journal := none }

def bak : Str := ".bak".toList

def backup_path (binary : Path) : Path := { binary with file := binary.file ++ bak }

/-- Nothing happens when there is a backup already. -/
def backup (binary : Path) : Program Image (Option Path) := do
  let backup := backup_path binary
  if ← exists_ backup then pure (some backup)
  else if ← rename binary backup then pure (some backup)
  else pure none

def swap_in (staged target : Path) : Program Image Bool := rename staged target

/-- The name of the live file whose backup has this name. -/
def live_name (name : Str) : Option Str :=
  let live := name.take (name.length - bak.length)
  if name = live ++ bak ∧ live ≠ [] then some live else none

/-- Remove the listed backups in a directory whose live file exists. -/
def sweep_stale_backups (dir : Str) : List Str → Program Image Unit
  | [] => pure ()
  | name :: names => do
    match live_name name with
    | none => sweep_stale_backups dir names
    | some live =>
      if ← exists_ ⟨dir, live⟩ then remove_file ⟨dir, name⟩
      sweep_stale_backups dir names

def restore (binary : Path) : Program Image Bool := do
  let backup := backup_path binary
  if ← exists_ backup then
    if ← exists_ binary then remove_file binary
    rename backup binary
  else pure true

def prune_backup (binary : Path) : Program Image Unit := do
  let backup := backup_path binary
  if ← exists_ backup then remove_file backup

/-- What a placement has done, none when it has failed. -/
inductive Placed where
  | replaced (backup : Path)
  | added
deriving DecidableEq

def backup_and_swap (staged target : Path) : Program Image (Option Placed) := do
  if !(← exists_ staged) then pure none
  else if ← exists_ target then
    match ← backup target with
    | none => pure none
    | some backup => if ← swap_in staged target then pure (some (.replaced backup)) else pure none
  else if ← swap_in staged target then pure (some .added)
  else pure none

def remove_added (target : Path) : Program Image Unit := do
  if ← exists_ target then remove_file target

end disk

/-! The snapshot, and the plan it gives. -/

structure SnapTarget where
  root : Str
  channel : Str
  binaries : List Str := []
deriving DecidableEq

structure Snapshot where
  targets : List SnapTarget := []
  /-- The component of every live process. -/
  running : List Str := []
deriving DecidableEq

def BROKER_STEM : Str := "uffs-broker".toList
def BROKER_COMPONENT : Str := "broker".toList

namespace Snapshot

def broker_is_running (self : Snapshot) : Bool := self.running.contains BROKER_COMPONENT

def drop_broker (self : Snapshot) : Snapshot where
  running := self.running.filter fun component => component ≠ BROKER_COMPONENT
  targets := self.targets.map fun target => { target with binaries := target.binaries.filter fun name => name ≠ BROKER_STEM }

def of_channel (self : Snapshot) (channel : Str) : List SnapTarget := self.targets.filter fun target => target.channel = channel

def unmanaged_targets (self : Snapshot) : List SnapTarget := self.of_channel "unmanaged".toList

def winget_targets (self : Snapshot) : List SnapTarget := self.of_channel "winget".toList

end Snapshot

def journal_from_snapshot (snapshot : Snapshot) : Journal where
  targets := snapshot.unmanaged_targets.map fun target =>
    { root := target.root, binaries := target.binaries.map fun name => { name } }
  delegated_winget := snapshot.winget_targets.map SnapTarget.root

/-- What a run is started with, and what it finds around it: the checks of files and services answer
as they like. -/
structure Setup where
  windows : Bool
  elevated : Bool
  /-- The directory of the updater itself, and what is listed there. -/
  self_dir : Str
  listing : List Str
  snapshot_path : Str
  snapshot : Snapshot
  stage : Str
  writable : Str → Bool
  stops : Str → Bool
  smoke_ok : Path → Bool

namespace Setup

def exe_name (setup : Setup) (stem : Str) : Str := if setup.windows then stem ++ ".exe".toList else stem

def target (setup : Setup) (root stem : Str) : Path := ⟨root, setup.exe_name stem⟩

def staged (setup : Setup) (stem : Str) : Path := ⟨setup.stage, setup.exe_name stem⟩

end Setup

/-- The root, the entry and the path of every targeted binary. -/
def entries (setup : Setup) (journal : Journal) : List (Str × BinaryEntry × Path) :=
  journal.targets.flatMap fun target =>
    target.binaries.map fun binary => (target.root, binary, setup.target target.root binary.name)

/-- The root, the stem and the path of every targeted binary. -/
def collect_plan (setup : Setup) (journal : Journal) : List (Str × Str × Path) :=
  (entries setup journal).map fun (root, binary, target) => (root, binary.name, target)

section run

variable {Image : Type} (setup : Setup)

def preflight : List (Str × Str × Path) → Program Image Bool
  | [] => pure true
  | (root, stem, _) :: plan => do
    if !(← exists_ (setup.staged stem)) then pure false
    else if !setup.writable root then pure false
    else preflight plan

/-- False when the file cannot be restored. -/
def undo_entry (binary : BinaryEntry) (target : Path) : Program Image Bool :=
  if binary.added then do
    remove_added target
    pure true
  else restore target

/-- Undo the listed entries, in the journal's order. -/
def rollback_entries (journal : Journal) : List (Str × BinaryEntry × Path) → Program Image (Journal × Bool)
  | [] => pure (journal, true)
  | (root, binary, target) :: items => do
    if ← undo_entry binary target then rollback_entries (journal.set_binary_status root binary.name .rolled_back) items
    else pure (journal, false)

def rollback_all (journal : Journal) : Program Image (Journal × Bool) := do
  let journal ← journal.transition .rolling_back
  match ← rollback_entries journal (entries setup journal) with
  | (journal, false) => pure (journal, false)
  | (journal, true) => do
    let journal ← journal.transition .rolled_back
    pure (journal, true)

/-- Place the staged images, as far as it goes. -/
def swap_each (journal : Journal) : List (Str × Str × Path) → Program Image (Journal × Bool)
  | [] => pure (journal, true)
  | (root, stem, target) :: plan => do
    match ← backup_and_swap (setup.staged stem) target with
    | some placed =>
      let journal := if placed = .added then journal.set_binary_added root stem else journal
      let journal := journal.set_binary_status root stem .swapped
      journal.save
      swap_each journal plan
    | none => pure (journal, false)

/-- The journal after the smoke tests, up to the first that fails. -/
def smoke_each (journal : Journal) : List (Str × Str × Path) → Journal × Bool
  | [] => (journal, true)
  | (root, stem, target) :: plan =>
    if setup.smoke_ok target then smoke_each (journal.set_binary_status root stem .smoke_ok) plan
    else (journal, false)

/-- True when the commit point is passed. What goes wrong before it is rolled back. -/
def apply_all (journal : Journal) : Program Image (Journal × Bool) := do
  let journal ← journal.transition .swapping
  let plan := collect_plan setup journal
  match ← swap_each setup journal plan with
  | (journal, false) => do
    let (journal, _) ← rollback_all setup journal
    pure (journal, false)
  | (journal, true) => do
    let journal ← journal.transition .swapped
    match smoke_each setup journal plan with
    | (journal, false) => do
      let (journal, _) ← rollback_all setup journal
      pure (journal, false)
    | (journal, true) => do
      let journal ← journal.commit
      pure (journal, true)

def prune_each : List (Str × Str × Path) → Program Image Unit
  | [] => pure ()
  | (_, _, target) :: plan => do
    prune_backup target
    prune_each plan

def prune_all (journal : Journal) : Program Image Unit := prune_each (collect_plan setup journal)

def quiesce_each (journal : Journal) : List Str → Program Image (Journal × Bool)
  | [] => pure (journal, true)
  | component :: components => do
    if !setup.stops component then pure (journal, false)
    else
      let journal := { journal with services_stopped := journal.services_stopped ++ [component] }
      let journal ← journal.transition .quiesced
      quiesce_each journal components

/-- Stop what is running, consumers before providers. -/
def quiesce (journal : Journal) (snapshot : Snapshot) : Program Image (Journal × Bool) := do
  let components := ["mcp".toList, "daemon".toList, BROKER_COMPONENT].flatMap fun component => snapshot.running.filter (· = component)
  match ← quiesce_each setup journal components with
  | (journal, false) => pure (journal, false)
  | (journal, true) => do
    let journal ← journal.transition .quiesced
    pure (journal, true)

def sweep_self_backups_if_idle : Program Image Unit := do
  match ← Journal.load with
  | some _ => pure ()
  | none => sweep_stale_backups setup.self_dir setup.listing

inductive Recovery where
  | nothing_to_do
  | in_progress
  | rolled_forward
  | rolled_back
deriving DecidableEq

/-- How a run of `apply` or `recover` has ended. -/
inductive Outcome where
  | applied
  | failed
  | recovered (recovery : Recovery)
deriving DecidableEq

/-- The snapshot of a run, without a running broker it may not stop. -/
def planned (setup : Setup) : Snapshot :=
  if !setup.elevated && setup.snapshot.broker_is_running then setup.snapshot.drop_broker else setup.snapshot

def first_journal (setup : Setup) : Journal := { journal_from_snapshot (planned setup) with snapshot_ref := some setup.snapshot_path }

def run_apply : Program Image Outcome := do
  sweep_self_backups_if_idle setup
  let journal ← (first_journal setup).transition .acquired
  if !(← preflight setup (collect_plan setup journal)) then
    let _ ← journal.transition .aborted
    Journal.archive
    pure .failed
  else
    let journal ← journal.transition .preflight_ok
    match ← quiesce setup journal (planned setup) with
    | (_, false) => pure .failed
    | (journal, true) => do
      match ← apply_all setup journal with
      | (journal, false) => do
        let _ ← journal.transition .aborted
        Journal.archive
        pure .failed
      | (journal, true) => do
        let journal ← journal.transition .restored
        prune_all setup journal
        let _ ← journal.transition .done
        Journal.archive
        pure .applied

def roll_forward (journal : Journal) : Program Image Unit := do
  let journal ← journal.transition .restored
  prune_all setup journal
  let _ ← journal.transition .done
  Journal.archive

def roll_back (journal : Journal) : Program Image Bool := do
  match ← rollback_all setup journal with
  | (_, false) => pure false
  | (journal, true) => do
    let _ ← journal.transition .aborted
    Journal.archive
    pure true

/-- What a run of `recover` finds: whether a process has the owner's number, and whether the snapshot
can be read. -/
structure RecoverSetup where
  owner_alive : Bool
  snapshot_readable : Bool

def recover (found : RecoverSetup) : Program Image Outcome := do
  match ← Journal.load with
  | none => pure (.recovered .nothing_to_do)
  | some journal =>
    if journal.state.is_terminal then pure (.recovered .nothing_to_do)
    else if !journal.needs_recovery found.owner_alive then pure (.recovered .in_progress)
    else if journal.snapshot_ref.isNone || !found.snapshot_readable then pure .failed
    else if journal.commit_point_passed then do
      roll_forward setup journal
      pure (.recovered .rolled_forward)
    else do
      if ← roll_back setup journal then pure (.recovered .rolled_back) else pure .failed

end run

end uffs.update
