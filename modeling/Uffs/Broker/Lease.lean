import Uffs.Lib.KeyMap
import Uffs.Lib.Overflow
import Uffs.Text.Utf8

open uffs.text

namespace uffs.broker

/-! Leases of volume snapshots: granted, renewed, released, and swept when they have expired. -/

inductive SnapshotLeaseState where
  | Active
  | Expired
  | Released
  | Unknown
deriving DecidableEq

structure SnapshotHandle where
  snapshot_id : List UInt8
  device_identity : Str
deriving DecidableEq

inductive VssError where
  | InvalidVolume (message : Str)
  | CreateFailed (hresult : Option Int32) (message : Str)
  | DeleteFailed (message : Str)
deriving DecidableEq

inductive LeaseError where
  | NotFound
  | NotActive
  | Vss (error : VssError)
deriving DecidableEq

structure CreatedLease where
  lease_id : Nat
  snapshot_id : List UInt8
  device_identity : Str
  created_at_unix_ms : Int64
  expires_at_unix_ms : Int64
deriving DecidableEq

structure LeaseStatus where
  state : SnapshotLeaseState
  snapshot_id : List UInt8
  created_at_unix_ms : Int64
  expires_at_unix_ms : Int64
deriving DecidableEq

inductive RecordState where
  | Active
  | Expired
  | Released
deriving DecidableEq

def RecordState.to_wire : RecordState → SnapshotLeaseState
  | .Active => .Active
  | .Expired => .Expired
  | .Released => .Released

structure LeaseRecord where
  snapshot_id : List UInt8
  device_identity : Str
  created_at_unix_ms : Int64
  expires_at_unix_ms : Int64
  state : RecordState
deriving DecidableEq

/-- The leases by their id. The counter is far from its end: no manager grants 2^64 leases. -/
structure SnapshotLeaseManager where
  next_lease_id : Nat
  leases : List (Nat × LeaseRecord)

/-- What the snapshot backend answers during one call: a creation, and the deletion of the snapshot of a lease. -/
structure Answers where
  create_snapshot : Except VssError SnapshotHandle
  delete_snapshot : Nat → Except VssError Unit

/-- A deletion that was asked for: the lease as it stood, the clock of the sweep if it was one, and whether it was done. -/
structure Deletion where
  lease_id : Nat
  record : LeaseRecord
  swept : Option Int64
  done : Bool
deriving DecidableEq

/-- `i64::saturating_add`. -/
def saturating_add_i64 (a b : Int64) : Int64 := Int64.ofInt (max (-2 ^ 63) (min (2 ^ 63 - 1) (a.toInt + b.toInt)))

def secs_to_ms_saturating (secs : UInt64) : Int64 :=
  let ms := min (secs.toNat * 1000) (2 ^ 64 - 1)
  if ms < 2 ^ 63 then Int64.ofNat ms else Int64.maxValue

namespace SnapshotLeaseManager

def new : SnapshotLeaseManager := ⟨1, []⟩

/-- The record of a lease, changed. -/
def update (self : SnapshotLeaseManager) (lease_id : Nat) (f : LeaseRecord → LeaseRecord) : SnapshotLeaseManager :=
  { self with leases := self.leases.map fun entry => if entry.1 = lease_id then (entry.1, f entry.2) else entry }

/-- A lease that is active and past its expiry. -/
def overdue (now_unix_ms : Int64) (record : LeaseRecord) : Bool :=
  record.state == .Active && record.expires_at_unix_ms ≤ now_unix_ms

/-- Whether the backend deletes or not, the lease has expired. The map is walked in any order. -/
def sweep_expired (answers : Answers) (now_unix_ms : Int64) (self : SnapshotLeaseManager) :
    SnapshotLeaseManager × List Deletion :=
  ({ self with leases := self.leases.map fun entry =>
      if overdue now_unix_ms entry.2 then (entry.1, { entry.2 with state := .Expired }) else entry },
    (self.leases.filter fun entry => overdue now_unix_ms entry.2).map fun entry =>
      ⟨entry.1, entry.2, some now_unix_ms, (answers.delete_snapshot entry.1).isOk⟩)

def create_lease (answers : Answers) (maximum_lifetime_secs : UInt64) (now_unix_ms : Int64) (self : SnapshotLeaseManager) :
    SnapshotLeaseManager × List Deletion × Except LeaseError CreatedLease :=
  let (swept, deletions) := self.sweep_expired answers now_unix_ms
  match answers.create_snapshot with
  | .error e => (swept, deletions, .error (.Vss e))
  | .ok handle =>
    let lease_id := swept.next_lease_id
    let expires_at_unix_ms := saturating_add_i64 now_unix_ms (secs_to_ms_saturating maximum_lifetime_secs)
    ({ next_lease_id := lease_id + 1
       leases := swept.leases ++ [(lease_id,
        ⟨handle.snapshot_id, handle.device_identity, now_unix_ms, expires_at_unix_ms, .Active⟩)] },
      deletions,
      .ok ⟨lease_id, handle.snapshot_id, handle.device_identity, now_unix_ms, expires_at_unix_ms⟩)

def renew_lease (answers : Answers) (lease_id : Nat) (requested_expiry_unix_ms now_unix_ms : Int64)
    (self : SnapshotLeaseManager) : SnapshotLeaseManager × List Deletion × Except LeaseError Int64 :=
  let (swept, deletions) := self.sweep_expired answers now_unix_ms
  match swept.leases.lookup lease_id with
  | none => (swept, deletions, .error .NotFound)
  | some record =>
    if record.state ≠ .Active then (swept, deletions, .error .NotActive)
    else
      (swept.update lease_id fun record => { record with expires_at_unix_ms := requested_expiry_unix_ms }, deletions,
        .ok requested_expiry_unix_ms)

/-- Nothing is swept here. -/
def release_lease (answers : Answers) (lease_id : Nat) (self : SnapshotLeaseManager) :
    SnapshotLeaseManager × List Deletion × Except LeaseError Unit :=
  match self.leases.lookup lease_id with
  | none => (self, [], .error .NotFound)
  | some record =>
    if record.state ≠ .Active then (self, [], .ok ())
    else
      match answers.delete_snapshot lease_id with
      | .error e => (self, [⟨lease_id, record, none, false⟩], .error (.Vss e))
      | .ok () =>
        (self.update lease_id fun record => { record with state := .Released }, [⟨lease_id, record, none, true⟩], .ok ())

def query_lease (answers : Answers) (lease_id : Nat) (now_unix_ms : Int64) (self : SnapshotLeaseManager) :
    SnapshotLeaseManager × List Deletion × Option LeaseStatus :=
  let (swept, deletions) := self.sweep_expired answers now_unix_ms
  (swept, deletions, (swept.leases.lookup lease_id).map fun record =>
    ⟨record.state.to_wire, record.snapshot_id, record.created_at_unix_ms, record.expires_at_unix_ms⟩)

def device_identity_if_active (answers : Answers) (lease_id : Nat) (now_unix_ms : Int64) (self : SnapshotLeaseManager) :
    SnapshotLeaseManager × List Deletion × Option Str :=
  let (swept, deletions) := self.sweep_expired answers now_unix_ms
  (swept, deletions, (swept.leases.lookup lease_id).bind fun record =>
    if record.state = .Active then some record.device_identity else none)

end SnapshotLeaseManager

/-- A call to the manager. -/
inductive Call where
  | create (maximum_lifetime_secs : UInt64) (now_unix_ms : Int64)
  | renew (lease_id : Nat) (requested_expiry_unix_ms now_unix_ms : Int64)
  | release (lease_id : Nat)
  | query (lease_id : Nat) (now_unix_ms : Int64)
  | device_identity (lease_id : Nat) (now_unix_ms : Int64)
  | sweep (now_unix_ms : Int64)
deriving DecidableEq

inductive Reply where
  | created (result : Except LeaseError CreatedLease)
  | renewed (result : Except LeaseError Int64)
  | released (result : Except LeaseError Unit)
  | status (result : Option LeaseStatus)
  | device_identity (result : Option Str)
  | swept

def perform (manager : SnapshotLeaseManager) (call : Call) (answers : Answers) :
    SnapshotLeaseManager × List Deletion × Reply :=
  match call with
  | .create maximum_lifetime_secs now_unix_ms =>
    let (after, deletions, result) := manager.create_lease answers maximum_lifetime_secs now_unix_ms
    (after, deletions, .created result)
  | .renew lease_id requested_expiry_unix_ms now_unix_ms =>
    let (after, deletions, result) := manager.renew_lease answers lease_id requested_expiry_unix_ms now_unix_ms
    (after, deletions, .renewed result)
  | .release lease_id =>
    let (after, deletions, result) := manager.release_lease answers lease_id
    (after, deletions, .released result)
  | .query lease_id now_unix_ms =>
    let (after, deletions, result) := manager.query_lease answers lease_id now_unix_ms
    (after, deletions, .status result)
  | .device_identity lease_id now_unix_ms =>
    let (after, deletions, result) := manager.device_identity_if_active answers lease_id now_unix_ms
    (after, deletions, .device_identity result)
  | .sweep now_unix_ms =>
    let (after, deletions) := manager.sweep_expired answers now_unix_ms
    (after, deletions, .swept)

/-- A manager with what it has asked for and what it has answered since it was new. -/
structure Course where
  manager : SnapshotLeaseManager
  deletions : List Deletion
  history : List (Call × Reply)

def Course.start : Course := ⟨.new, [], []⟩

def Course.step (course : Course) (call : Call) (answers : Answers) : Course :=
  let (manager, deletions, reply) := perform course.manager call answers
  ⟨manager, course.deletions ++ deletions, course.history ++ [(call, reply)]⟩

/-- Any calls one after the other, whatever the backend answers. -/
inductive Reached : Course → Prop where
  | start : Reached .start
  | step {course : Course} (before : Reached course) (call : Call) (answers : Answers) : Reached (course.step call answers)

end uffs.broker
