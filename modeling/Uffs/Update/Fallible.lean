import Uffs.Lib.Attempt
import Uffs.Update.CrashSafe

open uffs.lib uffs.text

namespace uffs.update.fallible

/-! The runs of `apply` with steps that may fail: what leaves them as an error, and past what. -/

inductive Step where
  /-- What comes of it when it fails is no error. -/
  | best_effort
  | load
  | probe
  | save (state : UpdateState)
  | stop
  | smoke
  /-- Whether the binary that is to be replaced exists. -/
  | find_target (target : Path)
  /-- Whether there is a backup already. -/
  | find_backup (binary : Path)
  | place
  /-- Whether there is a backup to restore. -/
  | find_undo (binary : Path)
  | undo
deriving DecidableEq

/-- What a run works on: the disk, the journal in its memory, and the services. -/
structure World (Image : Type) where
  disk : Disk Image
  journal : Journal := {}
  /-- The journal that has been moved away. -/
  archived : Option Journal := none
  /-- The components a start was tried of. -/
  started : List Str := []

abbrev Program (Image α : Type) := Attempt (World Image) Step α

section disk

variable {Image : Type}

namespace World

def write (self : World Image) (path : Path) (image : Option Image) : World Image :=
  { self with disk := self.disk.write path image }

def rename (self : World Image) (source dest : Path) : World Image := { self with disk := self.disk.rename source dest }

def save (self : World Image) : World Image := { self with disk := { self.disk with journal := some self.journal } }

def archive (self : World Image) : World Image :=
  match self.disk.journal with
  | some journal => { self with disk := { self.disk with journal := none }, archived := some journal }
  | none => self

def set_journal (self : World Image) (f : Journal → Journal) : World Image := { self with journal := f self.journal }

end World

/-- False when the check fails. -/
def exists_ (step : Step) (path : Path) : Program Image Bool := .ask step fun world => (world.disk.files path).isSome

/-- An error also when there is nothing to rename. -/
def rename (step : Step) (source dest : Path) : Program Image Unit := do
  if ← .get fun world => (world.disk.files source).isSome then .attempt step fun world => world.rename source dest
  else .err

def remove_file (step : Step) (path : Path) : Program Image Unit := .attempt step fun world => world.write path none

def save : Program Image Unit := do
  let journal ← .get World.journal
  .attempt (.save journal.state) World.save

def transition (state : UpdateState) : Program Image Unit := do
  .modify fun world => world.set_journal fun journal => { journal with state }
  save

def commit : Program Image Unit := do
  .modify fun world => world.set_journal fun journal => { journal with commit_point_passed := true }
  transition .smoke_ok

def archive : Program Image Unit := do
  let _ ← (Attempt.attempt .best_effort World.archive : Program Image Unit).caught

def backup (binary : Path) : Program Image Path := do
  let backup := backup_path binary
  if ← exists_ (.find_backup binary) backup then pure backup
  else do
    rename .place binary backup
    pure backup

def swap_in (staged target : Path) : Program Image Unit := rename .place staged target

def sweep_stale_backups (dir : Str) : List Str → Program Image Unit
  | [] => pure ()
  | name :: names => do
    match live_name name with
    | none => sweep_stale_backups dir names
    | some live =>
      if ← exists_ .best_effort ⟨dir, live⟩ then
        let _ ← (remove_file .best_effort ⟨dir, name⟩).caught
      sweep_stale_backups dir names

def restore_binary (binary : Path) : Program Image Unit := do
  let backup := backup_path binary
  if ← exists_ (.find_undo binary) backup then
    if ← exists_ .best_effort binary then remove_file .undo binary
    rename .undo backup binary

def prune_backup (binary : Path) : Program Image Unit := do
  let backup := backup_path binary
  if ← exists_ .best_effort backup then remove_file .best_effort backup

def backup_and_swap (staged target : Path) : Program Image Placed := do
  if !(← exists_ .place staged) then .err
  else if ← exists_ (.find_target target) target then do
    let backup ← backup target
    swap_in staged target
    pure (.replaced backup)
  else do
    swap_in staged target
    pure .added

def remove_added (target : Path) : Program Image Unit := do
  if ← exists_ .undo target then remove_file .undo target

end disk

section run

variable {Image : Type} (setup : Setup)

def sweep_self_backups_if_idle : Program Image Unit := do
  if ← .ask .best_effort fun world => world.disk.journal.isSome then pure ()
  else if ← .ask .best_effort fun _ => true then sweep_stale_backups setup.self_dir setup.listing

/-- Every staged image is there, and every root can be written to. -/
def preflight : List (Str × Str × Path) → Program Image Unit
  | [] => pure ()
  | (_, stem, _) :: plan => do
    if !(← exists_ .probe (setup.staged stem)) then .err
    else do
      .attempt .probe id
      preflight plan

/-- How the gateway stops is not looked at. -/
def stop_component (component : Str) : Program Image Unit := do
  if component = "mcp".toList then
    let _ ← (Attempt.attempt .best_effort id : Program Image Unit).caught
  else .attempt .stop id

def quiesce_each : List Str → Program Image Unit
  | [] => pure ()
  | component :: components => do
    stop_component component
    .modify fun world => world.set_journal fun journal => { journal with services_stopped := journal.services_stopped ++ [component] }
    transition .quiesced
    quiesce_each components

def quiesce (snapshot : Snapshot) : Program Image Unit := do
  quiesce_each (["mcp".toList, "daemon".toList, BROKER_COMPONENT].flatMap fun component => snapshot.running.filter (· = component))
  transition .quiesced

/-- The components that have not started. -/
def start_each : List Str → Program Image (List Str)
  | [] => pure []
  | component :: components => do
    .modify fun world => { world with started := world.started ++ [component] }
    let ok ← .ask .best_effort fun _ => true
    let failed ← start_each components
    pure (if ok then failed else component :: failed)

def restore (snapshot : Snapshot) : Program Image (List Str) :=
  start_each ([BROKER_COMPONENT, "daemon".toList, "mcp".toList].flatMap fun component => snapshot.running.filter (· = component))

def undo_entry (binary : BinaryEntry) (target : Path) : Program Image Unit :=
  if binary.added then remove_added target else restore_binary target

def rollback_entries : List (Str × BinaryEntry × Path) → Program Image Unit
  | [] => pure ()
  | (root, binary, target) :: items => do
    undo_entry binary target
    .modify fun world => world.set_journal fun journal => journal.set_binary_status root binary.name .rolled_back
    rollback_entries items

def rollback_all : Program Image Unit := do
  transition .rolling_back
  let items ← .get fun world => entries setup world.journal
  rollback_entries items
  transition .rolled_back

/-- The journal of a placement. -/
def record (root stem : Str) (placed : Placed) : Program Image Unit :=
  .modify fun world => world.set_journal fun journal =>
    (if placed = .added then journal.set_binary_added root stem else journal).set_binary_status root stem .swapped

def swap_each : List (Str × Str × Path) → Program Image Unit
  | [] => pure ()
  | (root, stem, target) :: plan => do
    match ← (backup_and_swap (setup.staged stem) target).caught with
    | some placed => do
      record root stem placed
      save
      swap_each plan
    | none => do
      rollback_all setup
      .err

def smoke_each : List (Str × Str × Path) → Program Image Unit
  | [] => pure ()
  | (root, stem, _) :: plan => do
    if !(← .ask .smoke fun _ => true) then do
      rollback_all setup
      .err
    else do
      .modify fun world => world.set_journal fun journal => journal.set_binary_status root stem .smoke_ok
      smoke_each plan

def apply_all : Program Image Unit := do
  transition .swapping
  let plan ← .get fun world => collect_plan setup world.journal
  swap_each setup plan
  transition .swapped
  smoke_each setup plan
  commit

def prune_each : List (Str × Str × Path) → Program Image Unit
  | [] => pure ()
  | (_, _, target) :: plan => do
    let _ ← (prune_backup target).caught
    prune_each plan

def prune_all : Program Image Unit := do
  let plan ← .get fun world => collect_plan setup world.journal
  prune_each plan

/-- The end of a run that gives up. -/
def abort : Program Image Unit := do
  transition .aborted
  archive
  .err

def run_apply : Program Image Unit := do
  sweep_self_backups_if_idle setup
  .attempt .load id
  .modify fun world => world.set_journal fun _ => first_journal setup
  transition .acquired
  match ← (preflight setup (collect_plan setup (first_journal setup))).caught with
  | none => abort
  | some () => do
    transition .preflight_ok
    quiesce (planned setup)
    match ← (apply_all setup).caught with
    | none => do
      let _ ← restore (planned setup)
      abort
    | some () => do
      let _ ← restore (planned setup)
      transition .restored
      prune_all setup
      transition .done
      archive

end run

end uffs.update.fallible
