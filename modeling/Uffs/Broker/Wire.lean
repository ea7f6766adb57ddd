import Uffs.Broker.Lease
import Uffs.Lib.Decoder

open uffs.lib.bytes uffs.lib.decoder uffs.text

namespace uffs.broker

/-! The messages between the coordinator and the broker's snapshot manager, and their bytes. -/

inductive SnapshotProtocolError where
  | Truncated (needed available : Nat)
  | LengthOutOfBounds (field : String) (declared max : Nat)
  | UnknownDiscriminant (field : String) (value : UInt8)
  | InvalidUtf8 (field : String)
deriving DecidableEq

def MAX_IDENTIFIER_BYTES : UInt32 := 1024

def MAX_PATH_BYTES : UInt32 := 65534

def MAX_MESSAGE_BYTES : UInt16 := 4096

def MAX_DEVICE_IDENTITY_BYTES : UInt16 := 2048

/-- The reader's bytes are those not yet consumed. -/
abbrev Reader (α : Type) := Decoder SnapshotProtocolError α

namespace Reader

def take (len : Nat) : Reader (List UInt8) := fun buf =>
  if buf.length < len then .error (.Truncated len buf.length) else .ok (buf.take len, buf.drop len)

def read_u8 : Reader UInt8 := do
  let bytes ← take 1
  match bytes with
  | [] => throw (.Truncated 1 0)
  | byte :: _ => return byte

/-- The bytes copied into an array of `n`. -/
def read_array (n : Nat) : Reader (Vector UInt8 n) := do
  let bytes ← take n
  return Vector.ofFn fun i => bytes.getD i 0

def read_u32_le : Reader UInt32 := return u32.from_bytes (← read_array 4).toList

def read_u64_le : Reader UInt64 := return u64.from_bytes (← read_array 8).toList

def read_i64_le : Reader Int64 := return (← read_u64_le).toInt64

def read_i32_le : Reader Int32 := return (← read_u32_le).toInt32

/-- Any byte but 0 stands for presence. -/
def read_optional_i32 : Reader (Option Int32) := do
  if (← read_u8) = 0 then return none else return some (← read_i32_le)

def read_bytes_u32_prefixed (field : String) (max_len : UInt32) : Reader (List UInt8) := do
  let len ← read_u32_le
  if max_len < len then throw (.LengthOutOfBounds field len.toNat max_len.toNat) else take len.toNat

def read_string_u16_prefixed (field : String) (max_len : UInt16) : Reader Str := do
  let len := u16.from_bytes (← read_array 2).toList
  if max_len < len then throw (.LengthOutOfBounds field len.toNat max_len.toNat)
  else
    match from_utf8 (← take len.toNat) with
    | some text => return text
    | none => throw (.InvalidUtf8 field)

end Reader

open Reader

/-- What the `write_` functions append. -/
def write_u16_le (value : UInt16) : List UInt8 := u16.to_bytes value

def write_u32_le (value : UInt32) : List UInt8 := u32.to_bytes value

def write_u64_le (value : UInt64) : List UInt8 := u64.to_bytes value

def write_i64_le (value : Int64) : List UInt8 := u64.to_bytes value.toUInt64

def write_i32_le (value : Int32) : List UInt8 := u32.to_bytes value.toUInt32

def write_optional_i32 : Option Int32 → List UInt8
  | none => [0]
  | some present => 1 :: write_i32_le present

/-- The length is cast: beyond `u32::MAX` it wraps. -/
def write_bytes_u32_prefixed (bytes : List UInt8) : List UInt8 := write_u32_le (.ofNat bytes.length) ++ bytes

def write_string_u16_prefixed (value : Str) : List UInt8 :=
  write_u16_le (.ofNat (as_bytes value).length) ++ as_bytes value

structure VolumeIdentity where
  volume_serial : UInt64
  volume_guid : List UInt8
deriving DecidableEq

def VolumeIdentity.encode (self : VolumeIdentity) : List UInt8 :=
  write_u64_le self.volume_serial ++ write_bytes_u32_prefixed self.volume_guid

def VolumeIdentity.decode : Reader VolumeIdentity := do
  let volume_serial ← read_u64_le
  let volume_guid ← read_bytes_u32_prefixed "volume_guid" MAX_IDENTIFIER_BYTES
  return { volume_serial, volume_guid }

structure CreateSnapshotLease where
  authenticated_job_id : Vector UInt8 16
  source_volume_identity : VolumeIdentity
  requested_root : List UInt8
  maximum_lifetime_secs : UInt64
  policy_id : UInt32
deriving DecidableEq

def CreateSnapshotLease.encode (self : CreateSnapshotLease) : List UInt8 :=
  self.authenticated_job_id.toList ++ self.source_volume_identity.encode ++ write_bytes_u32_prefixed self.requested_root ++
    write_u64_le self.maximum_lifetime_secs ++ write_u32_le self.policy_id

def CreateSnapshotLease.decode : Reader CreateSnapshotLease := do
  let authenticated_job_id ← read_array 16
  let source_volume_identity ← VolumeIdentity.decode
  let requested_root ← read_bytes_u32_prefixed "requested_root" MAX_PATH_BYTES
  let maximum_lifetime_secs ← read_u64_le
  let policy_id ← read_u32_le
  return { authenticated_job_id, source_volume_identity, requested_root, maximum_lifetime_secs, policy_id }

structure CreateSnapshotLeaseResult where
  snapshot_lease_id : UInt64
  snapshot_id : List UInt8
  snapshot_device_identity : Str
  snapshot_created_at_unix_ms : Int64
  expires_at_unix_ms : Int64
deriving DecidableEq

def CreateSnapshotLeaseResult.encode (self : CreateSnapshotLeaseResult) : List UInt8 :=
  write_u64_le self.snapshot_lease_id ++ write_bytes_u32_prefixed self.snapshot_id ++
    write_string_u16_prefixed self.snapshot_device_identity ++ write_i64_le self.snapshot_created_at_unix_ms ++
    write_i64_le self.expires_at_unix_ms

def CreateSnapshotLeaseResult.decode : Reader CreateSnapshotLeaseResult := do
  let snapshot_lease_id ← read_u64_le
  let snapshot_id ← read_bytes_u32_prefixed "snapshot_id" MAX_IDENTIFIER_BYTES
  let snapshot_device_identity ← read_string_u16_prefixed "snapshot_device_identity" MAX_DEVICE_IDENTITY_BYTES
  let snapshot_created_at_unix_ms ← read_i64_le
  let expires_at_unix_ms ← read_i64_le
  return { snapshot_lease_id, snapshot_id, snapshot_device_identity, snapshot_created_at_unix_ms, expires_at_unix_ms }

structure DuplicateSnapshotHandle where
  snapshot_lease_id : UInt64
  approved_reader_process_id : UInt32
deriving DecidableEq

def DuplicateSnapshotHandle.encode (self : DuplicateSnapshotHandle) : List UInt8 :=
  write_u64_le self.snapshot_lease_id ++ write_u32_le self.approved_reader_process_id

def DuplicateSnapshotHandle.decode : Reader DuplicateSnapshotHandle := do
  let snapshot_lease_id ← read_u64_le
  let approved_reader_process_id ← read_u32_le
  return { snapshot_lease_id, approved_reader_process_id }

structure RenewSnapshotLease where
  snapshot_lease_id : UInt64
  requested_expiry_unix_ms : Int64
deriving DecidableEq

def RenewSnapshotLease.encode (self : RenewSnapshotLease) : List UInt8 :=
  write_u64_le self.snapshot_lease_id ++ write_i64_le self.requested_expiry_unix_ms

def RenewSnapshotLease.decode : Reader RenewSnapshotLease := do
  let snapshot_lease_id ← read_u64_le
  let requested_expiry_unix_ms ← read_i64_le
  return { snapshot_lease_id, requested_expiry_unix_ms }

structure ReleaseSnapshotLease where
  snapshot_lease_id : UInt64
deriving DecidableEq

def ReleaseSnapshotLease.encode (self : ReleaseSnapshotLease) : List UInt8 := write_u64_le self.snapshot_lease_id

def ReleaseSnapshotLease.decode : Reader ReleaseSnapshotLease := return { snapshot_lease_id := ← read_u64_le }

structure QuerySnapshotLease where
  snapshot_lease_id : UInt64
deriving DecidableEq

def QuerySnapshotLease.encode (self : QuerySnapshotLease) : List UInt8 := write_u64_le self.snapshot_lease_id

def QuerySnapshotLease.decode : Reader QuerySnapshotLease := return { snapshot_lease_id := ← read_u64_le }

def SnapshotLeaseState.encode : SnapshotLeaseState → UInt8
  | .Active => 0
  | .Expired => 1
  | .Released => 2
  | .Unknown => 3

def SnapshotLeaseState.decode (byte : UInt8) : Except UInt8 SnapshotLeaseState :=
  match byte with
  | 0 => .ok .Active
  | 1 => .ok .Expired
  | 2 => .ok .Released
  | 3 => .ok .Unknown
  | other => .error other

/-- A byte read as one of an enumeration. -/
def read_code {α : Type} (field : String) (decode : UInt8 → Except UInt8 α) : Reader α := do
  match decode (← read_u8) with
  | .ok value => return value
  | .error byte => throw (.UnknownDiscriminant field byte)

structure SnapshotLeaseStatus where
  snapshot_lease_id : UInt64
  state : SnapshotLeaseState
  snapshot_id : List UInt8
  created_at_unix_ms : Int64
  expires_at_unix_ms : Int64
deriving DecidableEq

def SnapshotLeaseStatus.encode (self : SnapshotLeaseStatus) : List UInt8 :=
  write_u64_le self.snapshot_lease_id ++ [self.state.encode] ++ write_bytes_u32_prefixed self.snapshot_id ++
    write_i64_le self.created_at_unix_ms ++ write_i64_le self.expires_at_unix_ms

def SnapshotLeaseStatus.decode : Reader SnapshotLeaseStatus := do
  let snapshot_lease_id ← read_u64_le
  let state ← read_code "state" SnapshotLeaseState.decode
  let snapshot_id ← read_bytes_u32_prefixed "snapshot_id" MAX_IDENTIFIER_BYTES
  let created_at_unix_ms ← read_i64_le
  let expires_at_unix_ms ← read_i64_le
  return { snapshot_lease_id, state, snapshot_id, created_at_unix_ms, expires_at_unix_ms }

inductive SnapshotManagerErrorCode where
  | SnapshotCreateFailed
  | VolumeValidationFailed
  | Unauthorized
  | LeaseNotFound
  | LeaseNotActive
  | ReaderIdentityRejected
  | SnapshotStorageExhausted
  | InternalError
deriving DecidableEq

def SnapshotManagerErrorCode.encode : SnapshotManagerErrorCode → UInt8
  | .SnapshotCreateFailed => 0
  | .VolumeValidationFailed => 1
  | .Unauthorized => 2
  | .LeaseNotFound => 3
  | .LeaseNotActive => 4
  | .ReaderIdentityRejected => 5
  | .SnapshotStorageExhausted => 6
  | .InternalError => 7

def SnapshotManagerErrorCode.decode (byte : UInt8) : Except UInt8 SnapshotManagerErrorCode :=
  match byte with
  | 0 => .ok .SnapshotCreateFailed
  | 1 => .ok .VolumeValidationFailed
  | 2 => .ok .Unauthorized
  | 3 => .ok .LeaseNotFound
  | 4 => .ok .LeaseNotActive
  | 5 => .ok .ReaderIdentityRejected
  | 6 => .ok .SnapshotStorageExhausted
  | 7 => .ok .InternalError
  | other => .error other

inductive SnapshotManagerRequest where
  | Create (request : CreateSnapshotLease)
  | Duplicate (request : DuplicateSnapshotHandle)
  | Renew (request : RenewSnapshotLease)
  | Release (request : ReleaseSnapshotLease)
  | Query (request : QuerySnapshotLease)
deriving DecidableEq

def SnapshotManagerRequest.encode : SnapshotManagerRequest → List UInt8
  | .Create request => 0 :: request.encode
  | .Duplicate request => 1 :: request.encode
  | .Renew request => 2 :: request.encode
  | .Release request => 3 :: request.encode
  | .Query request => 4 :: request.encode

def SnapshotManagerRequest.read : Reader SnapshotManagerRequest := do
  match ← read_u8 with
  | 0 => return .Create (← CreateSnapshotLease.decode)
  | 1 => return .Duplicate (← DuplicateSnapshotHandle.decode)
  | 2 => return .Renew (← RenewSnapshotLease.decode)
  | 3 => return .Release (← ReleaseSnapshotLease.decode)
  | 4 => return .Query (← QuerySnapshotLease.decode)
  | other => throw (.UnknownDiscriminant "request_tag" other)

/-- What is left behind the message is not looked at. -/
def SnapshotManagerRequest.decode (bytes : List UInt8) : Except SnapshotProtocolError SnapshotManagerRequest :=
  Prod.fst <$> SnapshotManagerRequest.read.run bytes

inductive SnapshotManagerResponse where
  | Created (result : CreateSnapshotLeaseResult)
  | Duplicated
  | Renewed (new_expires_at_unix_ms : Int64)
  | Released
  | Status (status : SnapshotLeaseStatus)
  | Error (code : SnapshotManagerErrorCode) (hresult : Option Int32) (message : Str)
deriving DecidableEq

def SnapshotManagerResponse.encode : SnapshotManagerResponse → List UInt8
  | .Created result => 0 :: result.encode
  | .Duplicated => [1]
  | .Renewed new_expires_at_unix_ms => 2 :: write_i64_le new_expires_at_unix_ms
  | .Released => [3]
  | .Status status => 4 :: status.encode
  | .Error code hresult message => 5 :: code.encode :: (write_optional_i32 hresult ++ write_string_u16_prefixed message)

def SnapshotManagerResponse.read : Reader SnapshotManagerResponse := do
  match ← read_u8 with
  | 0 => return .Created (← CreateSnapshotLeaseResult.decode)
  | 1 => return .Duplicated
  | 2 => return .Renewed (← read_i64_le)
  | 3 => return .Released
  | 4 => return .Status (← SnapshotLeaseStatus.decode)
  | 5 =>
    let code ← read_code "code" SnapshotManagerErrorCode.decode
    let hresult ← read_optional_i32
    let message ← read_string_u16_prefixed "message" MAX_MESSAGE_BYTES
    return .Error code hresult message
  | other => throw (.UnknownDiscriminant "response_tag" other)

def SnapshotManagerResponse.decode (bytes : List UInt8) : Except SnapshotProtocolError SnapshotManagerResponse :=
  Prod.fst <$> SnapshotManagerResponse.read.run bytes

end uffs.broker
