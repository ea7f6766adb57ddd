import Uffs.Broker.LeaseRun
import Uffs.Broker.RoundTrip

open uffs.lib.bytes uffs.lib.decoder uffs.text

namespace uffs.broker

/-! The broker's side of the pipe: what frames it accepts, and how a request is answered. -/

def MAX_REQUEST_BYTES : UInt32 := 65536

inductive PipeError where
  | ShortRead (got expected : Nat)
  | TooLong (length : UInt32)
deriving DecidableEq

/-- What stands in the pipe is read once. -/
def read_exact (len : Nat) : Decoder PipeError (List UInt8) := fun pipe =>
  if pipe.length < len then .error (.ShortRead pipe.length len) else .ok (pipe.take len, pipe.drop len)

def read_framed_message : Decoder PipeError (List UInt8) := do
  let length := u32.from_bytes (← read_exact 4)
  if MAX_REQUEST_BYTES < length then throw (.TooLong length) else read_exact length.toNat

/-- A length that does not fit is written as `u32::MAX`. -/
def write_framed_message (payload : List UInt8) : List UInt8 :=
  u32.to_bytes (.ofNat (min payload.length (2 ^ 32 - 1))) ++ payload

def VssError.to_string : VssError → Str
  | .InvalidVolume message => "volume validation failed: ".toList ++ message
  | .CreateFailed _ message => "snapshot creation failed: ".toList ++ message
  | .DeleteFailed message => "snapshot deletion failed: ".toList ++ message

def LeaseError.to_string : LeaseError → Str
  | .NotFound => "lease not found".toList
  | .NotActive => "lease is not active".toList
  | .Vss error => error.to_string

def lease_error_response (err : LeaseError) : SnapshotManagerResponse :=
  let code := match err with
    | .NotFound => .LeaseNotFound
    | .NotActive => .LeaseNotActive
    | .Vss (.InvalidVolume _) => .VolumeValidationFailed
    | .Vss (.CreateFailed _ _) => .SnapshotCreateFailed
    | .Vss (.DeleteFailed _) => .InternalError
  let hresult := match err with
    | .Vss (.CreateFailed hresult _) => hresult
    | _ => none
  .Error code hresult err.to_string

/-- The process a snapshot handle is meant for: whether it can be opened, whether it is the reader, and the duplication. -/
structure ReaderProcess where
  open_client : UInt32 → Bool
  verify_reader_identity : UInt32 → Bool
  duplicate_snapshot_device_to_reader : Str → UInt32 → Except Str Unit

def handle_duplicate (request : DuplicateSnapshotHandle) (manager : SnapshotLeaseManager) (answers : Answers)
    (reader : ReaderProcess) (now : Int64) : SnapshotLeaseManager × SnapshotManagerResponse :=
  let (manager, _, device_identity) := manager.device_identity_if_active answers request.snapshot_lease_id.toNat now
  (manager,
    match device_identity with
    | none => lease_error_response .NotFound
    | some device_identity =>
      if ¬ reader.open_client request.approved_reader_process_id then
        .Error .ReaderIdentityRejected none "could not open the approved reader process".toList
      else if ¬ reader.verify_reader_identity request.approved_reader_process_id then
        .Error .ReaderIdentityRejected none "reader process failed identity verification".toList
      else
        match reader.duplicate_snapshot_device_to_reader device_identity request.approved_reader_process_id with
        | .ok () => .Duplicated
        | .error text => .Error .InternalError none text)

def dispatch_request (wire_request : SnapshotManagerRequest) (manager : SnapshotLeaseManager) (answers : Answers)
    (reader : ReaderProcess) (now : Int64) : SnapshotLeaseManager × SnapshotManagerResponse :=
  match wire_request with
  | .Create request =>
    let (manager, _, result) := manager.create_lease answers request.maximum_lifetime_secs now
    (manager,
      match result with
      | .ok created => .Created
          ⟨.ofNat created.lease_id, created.snapshot_id, created.device_identity, created.created_at_unix_ms,
            created.expires_at_unix_ms⟩
      | .error err => lease_error_response err)
  | .Duplicate request => handle_duplicate request manager answers reader now
  | .Renew request =>
    let (manager, _, result) :=
      manager.renew_lease answers request.snapshot_lease_id.toNat request.requested_expiry_unix_ms now
    (manager,
      match result with
      | .ok new_expires_at_unix_ms => .Renewed new_expires_at_unix_ms
      | .error err => lease_error_response err)
  | .Release request =>
    let (manager, _, result) := manager.release_lease answers request.snapshot_lease_id.toNat
    (manager,
      match result with
      | .ok () => .Released
      | .error err => lease_error_response err)
  | .Query request =>
    let (manager, _, status) := manager.query_lease answers request.snapshot_lease_id.toNat now
    (manager,
      .Status (match status with
        | none => ⟨request.snapshot_lease_id, .Unknown, [], 0, 0⟩
        | some status =>
          ⟨request.snapshot_lease_id, status.state, status.snapshot_id, status.created_at_unix_ms, status.expires_at_unix_ms⟩))

/-- A request whose frame is short enough. -/
def SnapshotManagerRequest.Framed : SnapshotManagerRequest → Prop
  | .Create request => request.source_volume_identity.volume_guid.length + request.requested_root.length ≤ 65491
  | _ => True

/-- What the backend and the lease hold for the answer is short enough for the wire. -/
def Transmissible (wire_request : SnapshotManagerRequest) (manager : SnapshotLeaseManager) (answers : Answers)
    (reader : ReaderProcess) (now : Int64) : Prop :=
  match wire_request with
  | .Create _ =>
    match answers.create_snapshot with
    | .ok handle => handle.snapshot_id.length ≤ MAX_IDENTIFIER_BYTES.toNat ∧
        (as_bytes handle.device_identity).length ≤ MAX_DEVICE_IDENTITY_BYTES.toNat
    | .error error => (as_bytes error.to_string).length ≤ MAX_MESSAGE_BYTES.toNat
  | .Duplicate request => ∀ record text, manager.leases.lookup request.snapshot_lease_id.toNat = some record →
      record.state = .Active → now < record.expires_at_unix_ms →
      reader.open_client request.approved_reader_process_id = true →
      reader.verify_reader_identity request.approved_reader_process_id = true →
      reader.duplicate_snapshot_device_to_reader record.device_identity request.approved_reader_process_id = .error text →
      (as_bytes text).length ≤ MAX_MESSAGE_BYTES.toNat
  | .Renew _ => True
  | .Release request => ∀ record error, manager.leases.lookup request.snapshot_lease_id.toNat = some record →
      record.state = .Active → answers.delete_snapshot request.snapshot_lease_id.toNat = .error error →
      (as_bytes error.to_string).length ≤ MAX_MESSAGE_BYTES.toNat
  | .Query request => ∀ record, manager.leases.lookup request.snapshot_lease_id.toNat = some record →
      record.snapshot_id.length ≤ MAX_IDENTIFIER_BYTES.toNat

section framing

theorem SnapshotManagerRequest.length_encode_create (request : CreateSnapshotLease) :
    (encode (.Create request)).length =
      45 + request.source_volume_identity.volume_guid.length + request.requested_root.length := by
  simp only [encode, CreateSnapshotLease.encode, VolumeIdentity.encode, write_bytes_u32_prefixed, write_u64_le, write_u32_le,
    List.length_cons, List.length_append, Vector.length_toList, Pod.length_to_bytes]
  have h64 : u64.size = 8 := rfl
  have h32 : u32.size = 4 := rfl
  omega

/-- The frame is accepted exactly when the payload is within the limit. -/
theorem read_framed_message_iff (payload : List UInt8) :
    Prod.fst <$> read_framed_message.run (write_framed_message payload) = .ok payload ↔
      payload.length ≤ MAX_REQUEST_BYTES.toNat := by
  have hmax : MAX_REQUEST_BYTES.toNat = 65536 := rfl
  have hlen : (UInt32.ofNat (min payload.length (2 ^ 32 - 1))).toNat = min payload.length (2 ^ 32 - 1) :=
    UInt32.toNat_ofNat_of_lt (Nat.lt_of_le_of_lt (Nat.min_le_right _ _) (by decide))
  have hfour : read_exact 4 (write_framed_message payload) =
      .ok (u32.to_bytes (.ofNat (min payload.length (2 ^ 32 - 1))), payload) := by
    have hsize : (u32.to_bytes (.ofNat (min payload.length (2 ^ 32 - 1)))).length = 4 := u32.length_to_bytes _
    unfold read_exact write_framed_message
    rw [if_neg (by rw [List.length_append]; omega), List.take_left' hsize, List.drop_left' hsize]
  have hrun : read_framed_message.run (write_framed_message payload) =
      (if MAX_REQUEST_BYTES < .ofNat (min payload.length (2 ^ 32 - 1)) then
        throw (.TooLong (.ofNat (min payload.length (2 ^ 32 - 1))))
      else read_exact (UInt32.ofNat (min payload.length (2 ^ 32 - 1))).toNat : Decoder PipeError _).run payload := by
    unfold read_framed_message
    rw [StateT.run_bind, StateT.run, hfour]
    show (if MAX_REQUEST_BYTES < u32.from_bytes (u32.to_bytes _) then _ else _ : Decoder PipeError _).run payload = _
    rw [u32.from_to_bytes]
  rw [hrun]
  by_cases hlong : MAX_REQUEST_BYTES < .ofNat (min payload.length (2 ^ 32 - 1))
  · rw [if_pos hlong]
    rw [UInt32.lt_iff_toNat_lt, hlen, hmax] at hlong
    constructor
    · intro h
      cases h
    · omega
  · rw [if_neg hlong]
    rw [UInt32.lt_iff_toNat_lt, hlen, hmax] at hlong
    have hall : (UInt32.ofNat (min payload.length (2 ^ 32 - 1))).toNat = payload.length := by omega
    have hread : (read_exact payload.length).run payload = .ok (payload, []) := by
      show (if payload.length < payload.length then _ else _) = _
      rw [if_neg (Nat.lt_irrefl _), List.take_length, List.drop_length]
    rw [hall, hread]
    constructor
    · omega
    · intro _
      rfl

theorem SnapshotManagerRequest.framed_iff (request : SnapshotManagerRequest) :
    request.encode.length ≤ MAX_REQUEST_BYTES.toNat ↔ request.Framed := by
  have hmax : MAX_REQUEST_BYTES.toNat = 65536 := rfl
  cases request with
  | Create request =>
    rw [length_encode_create, hmax]
    unfold Framed
    omega
  | Duplicate request =>
    have hlen : (encode (.Duplicate request)).length = 13 := rfl
    exact iff_of_true (by rw [hlen]; decide) True.intro
  | Renew request =>
    have hlen : (encode (.Renew request)).length = 17 := rfl
    exact iff_of_true (by rw [hlen]; decide) True.intro
  | Release request =>
    have hlen : (encode (.Release request)).length = 9 := rfl
    exact iff_of_true (by rw [hlen]; decide) True.intro
  | Query request =>
    have hlen : (encode (.Query request)).length = 9 := rfl
    exact iff_of_true (by rw [hlen]; decide) True.intro

end framing

section dispatch

open SnapshotLeaseManager

variable (manager : SnapshotLeaseManager) (answers : Answers) (reader : ReaderProcess) (now : Int64)

theorem sweep_entry_snapshot_id (entry : Nat × LeaseRecord) :
    (sweep_entry now entry).2.snapshot_id = entry.2.snapshot_id := by
  unfold sweep_entry
  split <;> rfl

theorem sweep_entry_device_identity (entry : Nat × LeaseRecord) :
    (sweep_entry now entry).2.device_identity = entry.2.device_identity := by
  unfold sweep_entry
  split <;> rfl

/-- A sweep leaves a lease active exactly when it was, and not yet due. -/
theorem sweep_entry_active_iff (entry : Nat × LeaseRecord) :
    (sweep_entry now entry).2.state = .Active ↔ entry.2.state = .Active ∧ now < entry.2.expires_at_unix_ms := by
  unfold sweep_entry
  by_cases hdue : overdue now entry.2 = true
  · rw [if_pos hdue]
    obtain ⟨_, hle⟩ := (overdue_iff now).mp hdue
    constructor
    · intro h
      cases h
    · rintro ⟨_, hlt⟩
      exact absurd hle (Int64.not_le.mpr hlt)
  · rw [if_neg hdue]
    constructor
    · intro hactive
      rw [overdue_iff] at hdue
      exact ⟨hactive, Int64.not_le.mp fun hle => hdue ⟨hactive, hle⟩⟩
    · exact And.left

theorem device_identity_eq (lease_id : Nat) (text : Str) :
    (manager.device_identity_if_active answers lease_id now).2.2 = some text ↔
      ∃ record, manager.leases.lookup lease_id = some record ∧ record.state = .Active ∧ now < record.expires_at_unix_ms ∧
        record.device_identity = text := by
  simp only [device_identity_if_active, lookup_sweep]
  cases hfound : manager.leases.lookup lease_id with
  | none => simp
  | some record =>
    have hactive := sweep_entry_active_iff now (lease_id, record)
    simp only [Option.map_some, Option.bind_some, Option.some.injEq, exists_eq_left', Option.ite_none_right_eq_some,
      hactive, sweep_entry_device_identity, and_assoc]

/-- The fixed texts are short. -/
theorem lease_error_inBounds_iff (err : LeaseError) :
    (lease_error_response err).InBounds ↔ (as_bytes err.to_string).length ≤ MAX_MESSAGE_BYTES.toNat := Iff.rfl

theorem not_found_inBounds : (lease_error_response .NotFound).InBounds := by
  rw [lease_error_inBounds_iff]
  decide

theorem not_active_inBounds : (lease_error_response .NotActive).InBounds := by
  rw [lease_error_inBounds_iff]
  decide

theorem create_inBounds_iff (request : CreateSnapshotLease) :
    (dispatch_request (.Create request) manager answers reader now).2.InBounds ↔
      Transmissible (.Create request) manager answers reader now := by
  simp only [dispatch_request, create_lease, Transmissible]
  cases hcreated : answers.create_snapshot with
  | error error => exact lease_error_inBounds_iff (.Vss error)
  | ok handle => exact Iff.rfl

theorem renew_inBounds (request : RenewSnapshotLease) :
    (dispatch_request (.Renew request) manager answers reader now).2.InBounds := by
  simp only [dispatch_request, renew_lease]
  split
  · exact True.intro
  · next err herr =>
    split at herr
    · cases herr
      exact not_found_inBounds
    · split at herr
      · cases herr
        exact not_active_inBounds
      · cases herr

theorem release_inBounds_iff (request : ReleaseSnapshotLease) :
    (dispatch_request (.Release request) manager answers reader now).2.InBounds ↔
      Transmissible (.Release request) manager answers reader now := by
  simp only [dispatch_request, release_lease, Transmissible]
  cases hfound : manager.leases.lookup request.snapshot_lease_id.toNat with
  | none => exact iff_of_true not_found_inBounds (by simp)
  | some record =>
    by_cases hactive : record.state = .Active
    · cases hdelete : answers.delete_snapshot request.snapshot_lease_id.toNat with
      | ok done =>
        simp only [hactive, ne_eq, not_true_eq_false, if_false]
        refine iff_of_true True.intro ?_
        intro _ _ _ _ herror
        cases herror
      | error error =>
        simp only [hactive, ne_eq, not_true_eq_false, if_false]
        rw [lease_error_inBounds_iff]
        constructor
        · intro hshort other failure _ _ herror
          cases herror
          exact hshort
        · intro hshort
          exact hshort record error rfl hactive rfl
    · simp only [hactive, ne_eq, not_false_eq_true, if_true]
      refine iff_of_true True.intro ?_
      intro other _ hother hstate
      cases Option.some.inj hother
      exact absurd hstate hactive

theorem query_inBounds_iff (request : QuerySnapshotLease) :
    (dispatch_request (.Query request) manager answers reader now).2.InBounds ↔
      Transmissible (.Query request) manager answers reader now := by
  simp only [dispatch_request, query_lease, Transmissible, lookup_sweep]
  cases hfound : manager.leases.lookup request.snapshot_lease_id.toNat with
  | none => exact iff_of_true (Nat.zero_le _) (by simp)
  | some record =>
    simp only [Option.map_some, SnapshotManagerResponse.InBounds, sweep_entry_snapshot_id, Option.some.injEq, forall_eq']

theorem duplicate_inBounds_iff (request : DuplicateSnapshotHandle) :
    (dispatch_request (.Duplicate request) manager answers reader now).2.InBounds ↔
      Transmissible (.Duplicate request) manager answers reader now := by
  have hidentity := device_identity_eq manager answers now request.snapshot_lease_id.toNat
  simp only [dispatch_request, handle_duplicate, Transmissible]
  cases hfound : (manager.device_identity_if_active answers request.snapshot_lease_id.toNat now).2.2 with
  | none =>
    refine iff_of_true not_found_inBounds ?_
    intro record _ hlookup hactive hlt
    have hsome := (hidentity record.device_identity).mpr ⟨record, hlookup, hactive, hlt, rfl⟩
    rw [hfound] at hsome
    cases hsome
  | some device_identity =>
    obtain ⟨record, hlookup, hactive, hlt, rfl⟩ := (hidentity device_identity).mp hfound
    dsimp only
    by_cases hopen : reader.open_client request.approved_reader_process_id = true
    · by_cases hverified : reader.verify_reader_identity request.approved_reader_process_id = true
      · rw [if_neg (not_not.mpr hopen), if_neg (not_not.mpr hverified)]
        cases hdone : reader.duplicate_snapshot_device_to_reader record.device_identity request.approved_reader_process_id with
        | ok done =>
          refine iff_of_true True.intro ?_
          intro other _ hother _ _ _ _ herror
          cases Option.some.inj (hlookup.symm.trans hother)
          rw [hdone] at herror
          cases herror
        | error text =>
          constructor
          · intro hshort other _ hother _ _ _ _ herror
            cases Option.some.inj (hlookup.symm.trans hother)
            rw [hdone] at herror
            cases herror
            exact hshort
          · intro hshort
            exact hshort record text hlookup hactive hlt hopen hverified hdone
      · rw [if_neg (not_not.mpr hopen), if_pos hverified]
        refine iff_of_true ?_ fun _ _ _ _ _ _ hother => absurd hother hverified
        unfold SnapshotManagerResponse.InBounds
        decide
    · rw [if_pos hopen]
      refine iff_of_true ?_ fun _ _ _ _ _ hother => absurd hother hopen
      unfold SnapshotManagerResponse.InBounds
      decide

theorem dispatch_inBounds_iff (wire_request : SnapshotManagerRequest) :
    (dispatch_request wire_request manager answers reader now).2.InBounds ↔
      Transmissible wire_request manager answers reader now := by
  cases wire_request with
  | Create request => exact create_inBounds_iff manager answers reader now request
  | Duplicate request => exact duplicate_inBounds_iff manager answers reader now request
  | Renew request => exact iff_of_true (renew_inBounds manager answers reader now request) True.intro
  | Release request => exact release_inBounds_iff manager answers reader now request
  | Query request => exact query_inBounds_iff manager answers reader now request

end dispatch

section separation

open Reader

variable {a b front back : List UInt8}

theorem pod_separates {α : Type} (pod : Pod α) {x y : α} (h : pod.to_bytes x ++ front = pod.to_bytes y ++ back) :
    x = y ∧ front = back := by
  have hlen : (pod.to_bytes x).length = (pod.to_bytes y).length := by
    rw [pod.length_to_bytes, pod.length_to_bytes]
  obtain ⟨hbytes, hrest⟩ := List.append_inj h hlen
  refine ⟨?_, hrest⟩
  rw [← pod.from_to_bytes x, hbytes, pod.from_to_bytes]

theorem pod_injective {α : Type} (pod : Pod α) {x y : α} (h : pod.to_bytes x = pod.to_bytes y) : x = y := by
  rw [← pod.from_to_bytes x, h, pod.from_to_bytes]

theorem i64_separates {x y : Int64} (h : write_i64_le x ++ front = write_i64_le y ++ back) : x = y ∧ front = back :=
  pod_separates i64 h

theorem i64_injective {x y : Int64} (h : write_i64_le x = write_i64_le y) : x = y := pod_injective i64 h

/-- A byte string whose length does not wrap is told apart from what follows. -/
theorem prefixed_separates (ha : a.length < 2 ^ 32) (hb : b.length < 2 ^ 32)
    (h : write_bytes_u32_prefixed a ++ front = write_bytes_u32_prefixed b ++ back) : a = b ∧ front = back := by
  have hmax : (4294967295 : UInt32).toNat = 2 ^ 32 - 1 := rfl
  exact (@reads_bytes_u32_prefixed "" 4294967295 a (by omega)).separates (reads_bytes_u32_prefixed "" (by omega)) h

/-- Whatever stands in the length field, where the same number of bytes follows. -/
theorem sized_separates {α : Type} (pod : Pod α) {x y : α} (hlen : front.length = back.length)
    (h : pod.to_bytes x ++ a ++ front = pod.to_bytes y ++ b ++ back) : a = b ∧ front = back := by
  rw [List.append_assoc, List.append_assoc] at h
  exact List.append_inj' (pod_separates pod h).2 hlen

end separation

/-- The byte string that is not the last of its message is shorter than this. -/
def SnapshotManagerRequest.Prefixed (bound : Nat) : SnapshotManagerRequest → Prop
  | .Create request => request.source_volume_identity.volume_guid.length < bound
  | _ => True

def SnapshotManagerResponse.Prefixed (bound : Nat) : SnapshotManagerResponse → Prop
  | .Created result => result.snapshot_id.length < bound
  | _ => True

section injective

theorem CreateSnapshotLease.encode_injective {a b : CreateSnapshotLease}
    (ha : a.source_volume_identity.volume_guid.length < 2 ^ 32) (hb : b.source_volume_identity.volume_guid.length < 2 ^ 32)
    (h : a.encode = b.encode) : a = b := by
  obtain ⟨job, ⟨serial, guid⟩, root, lifetime, policy⟩ := a
  obtain ⟨job', ⟨serial', guid'⟩, root', lifetime', policy'⟩ := b
  simp only [encode, VolumeIdentity.encode, List.append_assoc] at h
  obtain ⟨hjob, hvolume⟩ := List.append_inj h (by rw [Vector.length_toList, Vector.length_toList])
  obtain ⟨rfl, hguid⟩ := pod_separates u64 hvolume
  obtain ⟨rfl, hroot⟩ := prefixed_separates ha hb hguid
  have htail : (write_u64_le lifetime ++ write_u32_le policy).length =
      (write_u64_le lifetime' ++ write_u32_le policy').length := rfl
  obtain ⟨rfl, hlast⟩ := sized_separates u32 htail hroot
  obtain ⟨rfl, hpolicy⟩ := pod_separates u64 hlast
  obtain rfl := pod_injective u32 hpolicy
  obtain rfl := Vector.toList_inj.mp hjob
  rfl

theorem CreateSnapshotLeaseResult.encode_injective {a b : CreateSnapshotLeaseResult} (ha : a.snapshot_id.length < 2 ^ 32)
    (hb : b.snapshot_id.length < 2 ^ 32) (h : a.encode = b.encode) : a = b := by
  obtain ⟨lease, snapshot, device, created, expires⟩ := a
  obtain ⟨lease', snapshot', device', created', expires'⟩ := b
  simp only [encode, List.append_assoc] at h
  obtain ⟨rfl, hsnapshot⟩ := pod_separates u64 h
  obtain ⟨rfl, htext⟩ := prefixed_separates ha hb hsnapshot
  have htail : (write_i64_le created ++ write_i64_le expires).length =
      (write_i64_le created' ++ write_i64_le expires').length := rfl
  obtain ⟨hdevice, hlast⟩ := sized_separates u16 htail htext
  obtain ⟨rfl, hexpires⟩ := i64_separates hlast
  obtain rfl := i64_injective hexpires
  obtain rfl := as_bytes_injective hdevice
  rfl

theorem SnapshotLeaseStatus.encode_injective {a b : SnapshotLeaseStatus} (h : a.encode = b.encode) : a = b := by
  obtain ⟨lease, state, snapshot, created, expires⟩ := a
  obtain ⟨lease', state', snapshot', created', expires'⟩ := b
  simp only [encode, List.append_assoc] at h
  obtain ⟨rfl, hafter⟩ := pod_separates u64 h
  obtain ⟨hstate, hsnapshot⟩ := List.cons.inj hafter
  have htail : (write_i64_le created ++ write_i64_le expires).length =
      (write_i64_le created' ++ write_i64_le expires').length := rfl
  obtain ⟨rfl, hlast⟩ := sized_separates u32 htail hsnapshot
  obtain ⟨rfl, hexpires⟩ := i64_separates hlast
  obtain rfl := i64_injective hexpires
  have hdecode := congrArg SnapshotLeaseState.decode hstate
  rw [SnapshotLeaseState.decode_encode, SnapshotLeaseState.decode_encode] at hdecode
  obtain rfl := Except.ok.inj hdecode
  rfl

theorem SnapshotManagerRequest.encode_injective {a b : SnapshotManagerRequest} (ha : a.Prefixed (2 ^ 32))
    (hb : b.Prefixed (2 ^ 32)) (h : a.encode = b.encode) : a = b := by
  -- the tags tell the kinds apart
  cases a <;> cases b <;> simp only [encode, List.cons.injEq] at h <;> try exact absurd h.1 (by decide)
  · exact congrArg Create (CreateSnapshotLease.encode_injective ha hb h.2)
  · next a b =>
    obtain ⟨lease, process⟩ := a
    obtain ⟨lease', process'⟩ := b
    obtain ⟨hlease, hprocess⟩ : lease = lease' ∧ _ := pod_separates u64 h.2
    have hsame : process = process' := pod_injective u32 hprocess
    rw [hlease, hsame]
  · next a b =>
    obtain ⟨lease, expiry⟩ := a
    obtain ⟨lease', expiry'⟩ := b
    obtain ⟨hlease, hexpiry⟩ : lease = lease' ∧ _ := pod_separates u64 h.2
    have hsame : expiry = expiry' := i64_injective hexpiry
    rw [hlease, hsame]
  · next a b =>
    obtain ⟨lease⟩ := a
    obtain ⟨lease'⟩ := b
    have hsame : lease = lease' := pod_injective u64 h.2
    rw [hsame]
  · next a b =>
    obtain ⟨lease⟩ := a
    obtain ⟨lease'⟩ := b
    have hsame : lease = lease' := pod_injective u64 h.2
    rw [hsame]

theorem SnapshotManagerResponse.encode_injective {a b : SnapshotManagerResponse} (ha : a.Prefixed (2 ^ 32))
    (hb : b.Prefixed (2 ^ 32)) (h : a.encode = b.encode) : a = b := by
  cases a <;> cases b <;> simp only [encode, List.cons.injEq] at h <;> try exact absurd h.1 (by decide)
  · exact congrArg Created (CreateSnapshotLeaseResult.encode_injective ha hb h.2)
  · rfl
  · exact congrArg Renewed (i64_injective h.2)
  · rfl
  · exact congrArg Status (SnapshotLeaseStatus.encode_injective h.2)
  · next code hresult message code' hresult' message' =>
    obtain ⟨_, hcode, hrest⟩ := h
    have hdecode := congrArg SnapshotManagerErrorCode.decode hcode
    rw [SnapshotManagerErrorCode.decode_encode, SnapshotManagerErrorCode.decode_encode] at hdecode
    obtain ⟨rfl, htext⟩ := (Reader.reads_optional_i32 hresult).separates (Reader.reads_optional_i32 hresult') hrest
    obtain ⟨_, hbytes⟩ := pod_separates u16 htext
    rw [Except.ok.inj hdecode, as_bytes_injective hbytes]

/-- 2^32 zeros behind a length of zero, or before it. -/
theorem write_zeros (first second : List UInt8) (hfirst : first = List.replicate (2 ^ 32) 0) (hsecond : second = first) :
    write_bytes_u32_prefixed first ++ write_bytes_u32_prefixed [] =
      write_bytes_u32_prefixed [] ++ write_bytes_u32_prefixed second := by
  subst hsecond hfirst
  have hwrap : UInt32.ofNat (2 ^ 32) = 0 := rfl
  have hzero : UInt32.ofNat 0 = 0 := rfl
  have hzeros : write_u32_le 0 = List.replicate 4 0 := rfl
  simp only [write_bytes_u32_prefixed, List.length_replicate, hwrap, List.length_nil, List.append_nil, hzero, hzeros,
    List.replicate_append_replicate]
  exact congrArg (fun count => List.replicate count (0 : UInt8)) (by omega)

theorem as_bytes_replicate {ch : Char} (h : ch.toNat < 0x80) (count : Nat) :
    as_bytes (List.replicate count ch) = List.replicate count (UInt8.ofNat ch.toNat) := by
  induction count with
  | zero => rfl
  | succ count ih => rw [List.replicate_succ, List.replicate_succ, as_bytes_cons, utf8EncodeChar_ascii h, ih, List.singleton_append]

theorem write_zeros_text (first : List UInt8) (second : Str) (hfirst : first = List.replicate (2 ^ 32) 0)
    (hsecond : as_bytes second = first) : write_bytes_u32_prefixed first ++ write_string_u16_prefixed [] =
      write_bytes_u32_prefixed [] ++ write_string_u16_prefixed second := by
  have hwrap : UInt32.ofNat (2 ^ 32) = 0 := rfl
  have hwrap16 : UInt16.ofNat (2 ^ 32) = 0 := rfl
  have hzero : UInt32.ofNat 0 = 0 := rfl
  have hzero16 : UInt16.ofNat 0 = 0 := rfl
  have hzeros : write_u32_le 0 = List.replicate 4 0 := rfl
  have hzeros16 : write_u16_le 0 = List.replicate 2 0 := rfl
  simp only [write_bytes_u32_prefixed, write_string_u16_prefixed, hsecond, hfirst, as_bytes_nil, List.length_replicate, hwrap,
    hwrap16, List.length_nil, List.append_nil, hzero, hzero16, hzeros, hzeros16, List.replicate_append_replicate]
  exact congrArg (fun count => List.replicate count (0 : UInt8)) (by omega)

end injective

/-- Two requests of 2^32 zeros, in the identifier or in the path. -/
theorem request_collision (zeros : List UInt8) (hzeros : zeros = List.replicate (2 ^ 32) 0) :
    ∃ a b : SnapshotManagerRequest, a.Prefixed (2 ^ 32 + 1) ∧ b.Prefixed (2 ^ 32 + 1) ∧ a ≠ b ∧ a.encode = b.encode := by
  have hlen : zeros.length = 2 ^ 32 := by rw [hzeros, List.length_replicate]
  refine ⟨.Create ⟨Vector.replicate 16 0, ⟨0, zeros⟩, [], 0, 0⟩, .Create ⟨Vector.replicate 16 0, ⟨0, []⟩, zeros, 0, 0⟩,
    ?_, Nat.succ_pos _, ?_, ?_⟩
  · show zeros.length < _
    omega
  · intro heq
    injection heq with heq
    injection heq with _ hvolume
    injection hvolume with _ hguid
    rw [hguid] at hlen
    cases hlen
  · simp only [SnapshotManagerRequest.encode, CreateSnapshotLease.encode, VolumeIdentity.encode, List.append_assoc]
    rw [← List.append_assoc (write_bytes_u32_prefixed zeros), write_zeros zeros zeros hzeros rfl, List.append_assoc]

theorem response_collision (zeros : List UInt8) (text : Str) (hzeros : zeros = List.replicate (2 ^ 32) 0)
    (htext : as_bytes text = zeros) :
    ∃ a b : SnapshotManagerResponse, a.Prefixed (2 ^ 32 + 1) ∧ b.Prefixed (2 ^ 32 + 1) ∧ a ≠ b ∧ a.encode = b.encode := by
  have hlen : zeros.length = 2 ^ 32 := by rw [hzeros, List.length_replicate]
  refine ⟨.Created ⟨0, zeros, [], 0, 0⟩, .Created ⟨0, [], text, 0, 0⟩, ?_, Nat.succ_pos _, ?_, ?_⟩
  · show zeros.length < _
    omega
  · intro heq
    injection heq with heq
    injection heq with _ hsnapshot
    rw [hsnapshot] at hlen
    cases hlen
  · simp only [SnapshotManagerResponse.encode, CreateSnapshotLeaseResult.encode, List.append_assoc]
    rw [← List.append_assoc (write_bytes_u32_prefixed zeros), write_zeros_text zeros text hzeros htext, List.append_assoc]

theorem SnapshotManagerRequest.Prefixed.mono {request : SnapshotManagerRequest} {bound larger : Nat}
    (h : request.Prefixed bound) (hle : bound ≤ larger) : request.Prefixed larger := by
  cases request with
  | Create request => exact Nat.lt_of_lt_of_le h hle
  | _ => exact True.intro

theorem SnapshotManagerResponse.Prefixed.mono {response : SnapshotManagerResponse} {bound larger : Nat}
    (h : response.Prefixed bound) (hle : bound ≤ larger) : response.Prefixed larger := by
  cases response with
  | Created result => exact Nat.lt_of_lt_of_le h hle
  | _ => exact True.intro

/-- Below 2^32 no two requests are written alike, and from there on some are. -/
theorem SnapshotManagerRequest.distinct_iff (bound : Nat) :
    (∀ a b : SnapshotManagerRequest, a.Prefixed bound → b.Prefixed bound → a ≠ b → a.encode ≠ b.encode) ↔
      bound ≤ 2 ^ 32 := by
  constructor
  · intro hdistinct
    by_contra hbound
    obtain ⟨a, b, ha, hb, hne, heq⟩ := request_collision _ rfl
    exact hdistinct a b (ha.mono (by omega)) (hb.mono (by omega)) hne heq
  · intro hbound a b ha hb hne heq
    exact hne (encode_injective (ha.mono hbound) (hb.mono hbound) heq)

theorem SnapshotManagerResponse.distinct_iff (bound : Nat) :
    (∀ a b : SnapshotManagerResponse, a.Prefixed bound → b.Prefixed bound → a ≠ b → a.encode ≠ b.encode) ↔
      bound ≤ 2 ^ 32 := by
  constructor
  · intro hdistinct
    by_contra hbound
    have htext : as_bytes (List.replicate (2 ^ 32) '\x00') = List.replicate (2 ^ 32) 0 := as_bytes_replicate (by decide) _
    obtain ⟨a, b, ha, hb, hne, heq⟩ := response_collision _ _ rfl htext
    exact hdistinct a b (ha.mono (by omega)) (hb.mono (by omega)) hne heq
  · intro hbound a b ha hb hne heq
    exact hne (encode_injective (ha.mono hbound) (hb.mono hbound) heq)

/-- A request within the maxima is carried unless it is too long for its frame; an answer is carried unless what the
backend gave for it is too long for the wire; and messages are told apart until a length wraps. -/
theorem snapshot_protocol_iff (request wire_request : SnapshotManagerRequest) (manager : SnapshotLeaseManager)
    (answers : Answers) (reader : ReaderProcess) (now : Int64) (bound : Nat) :
    (request.InBounds →
      (Prod.fst <$> read_framed_message.run (write_framed_message request.encode) = .ok request.encode ∧
        SnapshotManagerRequest.decode request.encode = .ok request ↔ request.Framed)) ∧
    (SnapshotManagerResponse.decode (dispatch_request wire_request manager answers reader now).2.encode =
        .ok (dispatch_request wire_request manager answers reader now).2 ↔
      Transmissible wire_request manager answers reader now) ∧
    ((∀ a b : SnapshotManagerRequest, a.Prefixed bound → b.Prefixed bound → a ≠ b → a.encode ≠ b.encode) ↔
      bound ≤ 2 ^ 32) ∧
    ((∀ a b : SnapshotManagerResponse, a.Prefixed bound → b.Prefixed bound → a ≠ b → a.encode ≠ b.encode) ↔
      bound ≤ 2 ^ 32) := by
  refine ⟨?_, ?_, SnapshotManagerRequest.distinct_iff bound, SnapshotManagerResponse.distinct_iff bound⟩
  · intro hbounds
    rw [read_framed_message_iff, SnapshotManagerRequest.framed_iff]
    exact and_iff_left ((SnapshotManagerRequest.decode_encode_iff request).mpr hbounds)
  · exact (SnapshotManagerResponse.decode_encode_iff _).trans
      (dispatch_inBounds_iff manager answers reader now wire_request)

/-- No path of the greatest length gets through. -/
theorem longest_path_refused (request : CreateSnapshotLease) (hroot : request.requested_root.length = 65534) :
    Prod.fst <$> read_framed_message.run (write_framed_message (SnapshotManagerRequest.encode (.Create request))) ≠
      .ok (SnapshotManagerRequest.encode (.Create request)) := by
  have hmax : MAX_REQUEST_BYTES.toNat = 65536 := rfl
  rw [Ne, read_framed_message_iff, SnapshotManagerRequest.length_encode_create, hroot, hmax]
  omega

/-- No refusal with more than 4070 bytes of text gets back. -/
theorem long_refusal_unread (request : CreateSnapshotLease) (manager : SnapshotLeaseManager) (reader : ReaderProcess)
    (now : Int64) {answers : Answers} {hresult : Option Int32} {message : Str}
    (hanswer : answers.create_snapshot = .error (.CreateFailed hresult message)) (hlong : 4070 < (as_bytes message).length) :
    SnapshotManagerResponse.decode (dispatch_request (.Create request) manager answers reader now).2.encode ≠
      .ok (dispatch_request (.Create request) manager answers reader now).2 := by
  have hmax : MAX_MESSAGE_BYTES.toNat = 4096 := rfl
  have hprefix : (as_bytes "snapshot creation failed: ".toList).length = 26 := by decide
  have htext : (VssError.CreateFailed hresult message).to_string = "snapshot creation failed: ".toList ++ message := rfl
  rw [Ne, SnapshotManagerResponse.decode_encode_iff, create_inBounds_iff]
  simp only [Transmissible, hanswer]
  rw [htext, as_bytes_append, List.length_append, hprefix, hmax]
  omega

/-- A request for a path of `len` zeros. -/
def path_request (len : Nat) : CreateSnapshotLease := ⟨Vector.replicate 16 0, ⟨0, []⟩, List.replicate len 0, 3600, 1⟩

/-- A backend that refuses with a text of `len` letters. -/
def talkative (len : Nat) : Answers := ⟨.error (.CreateFailed none (List.replicate len 'a')), fun _ => .ok ()⟩

def absent_reader : ReaderProcess := ⟨fun _ => false, fun _ => false, fun _ _ => .ok ()⟩

/-- The path is within its maximum, and the frame is refused; the refusal is written, and not read. -/
theorem long_path_and_long_text :
    (SnapshotManagerRequest.InBounds (.Create (path_request 65534)) ∧
      Prod.fst <$> read_framed_message.run
          (write_framed_message (SnapshotManagerRequest.encode (.Create (path_request 65534)))) ≠
        .ok (SnapshotManagerRequest.encode (.Create (path_request 65534)))) ∧
    SnapshotManagerResponse.decode
        (dispatch_request (.Create (path_request 0)) .new (talkative 4096) absent_reader 0).2.encode ≠
      .ok (dispatch_request (.Create (path_request 0)) .new (talkative 4096) absent_reader 0).2 := by
  have hroot : ∀ len, (path_request len).requested_root.length = len := fun len => List.length_replicate
  refine ⟨⟨⟨Nat.zero_le _, Nat.le_of_eq (hroot 65534)⟩, longest_path_refused _ (hroot 65534)⟩, ?_⟩
  apply long_refusal_unread _ _ _ _ rfl
  rw [as_bytes_replicate (by decide), List.length_replicate]
  decide

end uffs.broker
