import Uffs.Broker.Wire

open uffs.lib.bytes uffs.lib.decoder uffs.text

namespace uffs.broker

/-! What is written is read back, and what is read respects the maxima. -/

namespace Reader

variable {α : Type}

theorem reads_take (block : List UInt8) : Reads (take block.length) block block := by
  intro rest
  show (if (block ++ rest).length < block.length then _ else _) = _
  rw [if_neg (by rw [List.length_append]; omega), List.take_left, List.drop_left]

theorem reads_u8 (byte : UInt8) : Reads read_u8 [byte] byte := (reads_take [byte]).bind (Reads.pure byte)

theorem ofFn_getD {n : Nat} {block : List UInt8} (h : block.length = n) :
    (Vector.ofFn fun i : Fin n => block.getD i 0).toList = block := by
  apply List.ext_getElem
  · simp [h]
  · intro i hleft hright
    simp [hright]

theorem reads_array {n : Nat} {block : List UInt8} (h : block.length = n) :
    Reads (read_array n) block (Vector.ofFn fun i => block.getD i 0) := by
  subst h
  exact (reads_take block).last _

theorem reads_vector {n : Nat} (array : Vector UInt8 n) : Reads (read_array n) array.toList array := by
  have hblock : (Vector.ofFn fun i : Fin n => array.toList.getD i 0) = array :=
    Vector.toList_inj.mp (ofFn_getD array.length_toList)
  have hreads := reads_array array.length_toList
  rwa [hblock] at hreads

/-- A fixed-size value through its array. -/
theorem reads_pod {β : Type} (pod : Pod α) (value : α) (f : α → β) :
    Reads (read_array pod.size >>= fun bytes => pure (f (pod.from_bytes bytes.toList))) (pod.to_bytes value) (f value) := by
  have hlen := pod.length_to_bytes value
  have hreads := (reads_array hlen).last (ε := SnapshotProtocolError) fun bytes => f (pod.from_bytes bytes.toList)
  rwa [ofFn_getD hlen, pod.from_to_bytes] at hreads

theorem reads_u32 (value : UInt32) : Reads read_u32_le (write_u32_le value) value := reads_pod u32 value id

theorem reads_u64 (value : UInt64) : Reads read_u64_le (write_u64_le value) value := reads_pod u64 value id

theorem reads_i64 (value : Int64) : Reads read_i64_le (write_i64_le value) value := by
  have hreads := (reads_u64 value.toUInt64).last UInt64.toInt64
  rwa [Int64.toInt64_toUInt64] at hreads

theorem reads_i32 (value : Int32) : Reads read_i32_le (write_i32_le value) value := by
  have hreads := (reads_u32 value.toUInt32).last UInt32.toInt32
  rwa [Int32.toInt32_toUInt32] at hreads

theorem reads_optional_i32 (value : Option Int32) : Reads read_optional_i32 (write_optional_i32 value) value := by
  cases value with
  | none => exact (reads_u8 0).bind (Reads.pure none)
  | some present => exact (reads_u8 1).bind ((reads_i32 present).last some)

theorem reads_bytes_u32_prefixed (field : String) {max_len : UInt32} {bytes : List UInt8}
    (h : bytes.length ≤ max_len.toNat) :
    Reads (read_bytes_u32_prefixed field max_len) (write_bytes_u32_prefixed bytes) bytes := by
  have hlen : (UInt32.ofNat bytes.length).toNat = bytes.length :=
    UInt32.toNat_ofNat_of_lt (Nat.lt_of_le_of_lt h max_len.toNat_lt)
  apply (reads_u32 (.ofNat bytes.length)).bind
  rw [if_neg (by rw [UInt32.lt_iff_toNat_lt]; omega), hlen]
  exact reads_take bytes

theorem reads_string_u16_prefixed (field : String) {max_len : UInt16} {value : Str}
    (h : (as_bytes value).length ≤ max_len.toNat) :
    Reads (read_string_u16_prefixed field max_len) (write_string_u16_prefixed value) value := by
  have hlen : (UInt16.ofNat (as_bytes value).length).toNat = (as_bytes value).length :=
    UInt16.toNat_ofNat_of_lt (Nat.lt_of_le_of_lt h max_len.toNat_lt)
  have hblock : (u16.to_bytes (.ofNat (as_bytes value).length)).length = 2 := u16.length_to_bytes _
  apply (reads_array hblock).bind
  rw [ofFn_getD hblock, u16.from_to_bytes]
  rw [if_neg (by rw [UInt16.lt_iff_toNat_lt]; omega), hlen]
  apply Eq.mp (congrArg (fun bytes => Reads _ bytes value) (List.append_nil (as_bytes value)))
  apply (reads_take (as_bytes value)).bind
  rw [from_utf8_as_bytes]
  exact Reads.pure value

theorem reads_code (field : String) {decode : UInt8 → Except UInt8 α} {byte : UInt8} {value : α}
    (h : decode byte = .ok value) : Reads (read_code field decode) [byte] value := by
  have hreads : Reads (read_code field decode) ([byte] ++ []) value := by
    apply (reads_u8 byte).bind
    rw [h]
    exact Reads.pure value
  exact hreads

theorem yields_take (len : Nat) : Yields (take len) fun bytes => bytes.length = len := by
  intro buf bytes rest hrun
  have hrun' : (if buf.length < len then Except.error (.Truncated len buf.length)
      else Except.ok (buf.take len, buf.drop len) : Except SnapshotProtocolError _) = .ok (bytes, rest) := hrun
  split at hrun'
  · cases hrun'
  · cases hrun'
    rw [List.length_take]
    omega

theorem yields_bytes_u32_prefixed (field : String) (max_len : UInt32) :
    Yields (read_bytes_u32_prefixed field max_len) fun bytes => bytes.length ≤ max_len.toNat := by
  refine Yields.bind (Yields.trivial _) ?_
  intro len _
  split
  · exact Yields.throw _
  · next hlen =>
    intro buf bytes rest hrun
    rw [yields_take len.toNat buf bytes rest hrun]
    exact UInt32.le_iff_toNat_le.mp (UInt32.not_lt.mp hlen)

theorem yields_string_u16_prefixed (field : String) (max_len : UInt16) :
    Yields (read_string_u16_prefixed field max_len) fun value => (as_bytes value).length ≤ max_len.toNat := by
  refine Yields.bind (Yields.trivial _) ?_
  intro array _
  dsimp only
  split
  · exact Yields.throw _
  · next hlen =>
    refine Yields.bind (yields_take _) ?_
    intro bytes hbytes
    split
    · next text htext =>
      apply Yields.pure
      rw [as_bytes_of_from_utf8 htext, hbytes]
      exact UInt16.le_iff_toNat_le.mp (UInt16.not_lt.mp hlen)
    · exact Yields.throw _

end Reader

open Reader

/-- The byte strings of a request are within the declared maxima. -/
def SnapshotManagerRequest.InBounds : SnapshotManagerRequest → Prop
  | .Create request => request.source_volume_identity.volume_guid.length ≤ MAX_IDENTIFIER_BYTES.toNat ∧
      request.requested_root.length ≤ MAX_PATH_BYTES.toNat
  | _ => True

def SnapshotManagerResponse.InBounds : SnapshotManagerResponse → Prop
  | .Created result => result.snapshot_id.length ≤ MAX_IDENTIFIER_BYTES.toNat ∧
      (as_bytes result.snapshot_device_identity).length ≤ MAX_DEVICE_IDENTITY_BYTES.toNat
  | .Status status => status.snapshot_id.length ≤ MAX_IDENTIFIER_BYTES.toNat
  | .Error _ _ message => (as_bytes message).length ≤ MAX_MESSAGE_BYTES.toNat
  | _ => True

theorem VolumeIdentity.reads (self : VolumeIdentity) (h : self.volume_guid.length ≤ MAX_IDENTIFIER_BYTES.toNat) :
    Reads VolumeIdentity.decode self.encode self :=
  (reads_u64 self.volume_serial).bind ((reads_bytes_u32_prefixed "volume_guid" h).last _)

theorem CreateSnapshotLease.reads (self : CreateSnapshotLease)
    (h : SnapshotManagerRequest.InBounds (.Create self)) : Reads CreateSnapshotLease.decode self.encode self := by
  unfold CreateSnapshotLease.encode
  rw [List.append_assoc, List.append_assoc, List.append_assoc]
  refine (reads_vector self.authenticated_job_id).bind ?_
  refine (self.source_volume_identity.reads h.1).bind ?_
  refine (reads_bytes_u32_prefixed "requested_root" h.2).bind ?_
  exact (reads_u64 self.maximum_lifetime_secs).bind ((reads_u32 self.policy_id).last _)

theorem CreateSnapshotLeaseResult.reads (self : CreateSnapshotLeaseResult)
    (h : SnapshotManagerResponse.InBounds (.Created self)) : Reads CreateSnapshotLeaseResult.decode self.encode self := by
  unfold CreateSnapshotLeaseResult.encode
  rw [List.append_assoc, List.append_assoc, List.append_assoc]
  refine (reads_u64 self.snapshot_lease_id).bind ?_
  refine (reads_bytes_u32_prefixed "snapshot_id" h.1).bind ?_
  refine (reads_string_u16_prefixed "snapshot_device_identity" h.2).bind ?_
  exact (reads_i64 self.snapshot_created_at_unix_ms).bind ((reads_i64 self.expires_at_unix_ms).last _)

theorem SnapshotLeaseState.decode_encode (state : SnapshotLeaseState) : decode state.encode = .ok state := by
  cases state <;> rfl

theorem SnapshotManagerErrorCode.decode_encode (code : SnapshotManagerErrorCode) : decode code.encode = .ok code := by
  cases code <;> rfl

theorem SnapshotLeaseStatus.reads (self : SnapshotLeaseStatus)
    (h : self.snapshot_id.length ≤ MAX_IDENTIFIER_BYTES.toNat) : Reads SnapshotLeaseStatus.decode self.encode self := by
  unfold SnapshotLeaseStatus.encode
  rw [List.append_assoc, List.append_assoc, List.append_assoc]
  refine (reads_u64 self.snapshot_lease_id).bind ?_
  refine (reads_code "state" self.state.decode_encode).bind ?_
  refine (reads_bytes_u32_prefixed "snapshot_id" h).bind ?_
  exact (reads_i64 self.created_at_unix_ms).bind ((reads_i64 self.expires_at_unix_ms).last _)

theorem SnapshotManagerRequest.reads {request : SnapshotManagerRequest} (h : request.InBounds) :
    Reads SnapshotManagerRequest.read request.encode request := by
  cases request with
  | Create request => exact (reads_u8 0).bind ((request.reads h).last SnapshotManagerRequest.Create)
  | Duplicate request =>
    refine (reads_u8 1).bind (Reads.last ?_ SnapshotManagerRequest.Duplicate)
    exact (reads_u64 request.snapshot_lease_id).bind ((reads_u32 request.approved_reader_process_id).last _)
  | Renew request =>
    refine (reads_u8 2).bind (Reads.last ?_ SnapshotManagerRequest.Renew)
    exact (reads_u64 request.snapshot_lease_id).bind ((reads_i64 request.requested_expiry_unix_ms).last _)
  | Release request =>
    exact (reads_u8 3).bind (((reads_u64 request.snapshot_lease_id).last _).last SnapshotManagerRequest.Release)
  | Query request =>
    exact (reads_u8 4).bind (((reads_u64 request.snapshot_lease_id).last _).last SnapshotManagerRequest.Query)

theorem SnapshotManagerResponse.reads {response : SnapshotManagerResponse} (h : response.InBounds) :
    Reads SnapshotManagerResponse.read response.encode response := by
  cases response with
  | Created result => exact (reads_u8 0).bind ((result.reads h).last SnapshotManagerResponse.Created)
  | Duplicated => exact (reads_u8 1).bind (Reads.pure _)
  | Renewed new_expires_at_unix_ms => exact (reads_u8 2).bind ((reads_i64 new_expires_at_unix_ms).last _)
  | Released => exact (reads_u8 3).bind (Reads.pure _)
  | Status status => exact (reads_u8 4).bind ((status.reads h).last SnapshotManagerResponse.Status)
  | Error code hresult message =>
    refine (reads_u8 5).bind ?_
    refine (reads_code "code" code.decode_encode).bind ?_
    exact (reads_optional_i32 hresult).bind ((reads_string_u16_prefixed "message" h).last _)

theorem VolumeIdentity.yields :
    Yields VolumeIdentity.decode fun self => self.volume_guid.length ≤ MAX_IDENTIFIER_BYTES.toNat :=
  (Yields.trivial _).bind fun _ _ => (yields_bytes_u32_prefixed _ _).bind fun _ hguid => Yields.pure hguid

theorem SnapshotManagerRequest.yields : Yields SnapshotManagerRequest.read SnapshotManagerRequest.InBounds := by
  refine (Yields.trivial read_u8).bind ?_
  intro tag _
  split
  · refine Yields.bind (P := fun request => SnapshotManagerRequest.InBounds (.Create request)) ?_ fun _ => Yields.pure
    refine (Yields.trivial _).bind fun _ _ => VolumeIdentity.yields.bind fun _ hguid => ?_
    refine (yields_bytes_u32_prefixed _ _).bind fun _ hroot => ?_
    exact (Yields.trivial _).bind fun _ _ => (Yields.trivial _).bind fun _ _ => Yields.pure ⟨hguid, hroot⟩
  · exact (Yields.trivial _).bind fun _ _ => Yields.pure True.intro
  · exact (Yields.trivial _).bind fun _ _ => Yields.pure True.intro
  · exact (Yields.trivial _).bind fun _ _ => Yields.pure True.intro
  · exact (Yields.trivial _).bind fun _ _ => Yields.pure True.intro
  · exact Yields.throw _

theorem SnapshotManagerResponse.yields : Yields SnapshotManagerResponse.read SnapshotManagerResponse.InBounds := by
  refine (Yields.trivial read_u8).bind ?_
  intro tag _
  split
  · refine Yields.bind (P := fun result => SnapshotManagerResponse.InBounds (.Created result)) ?_ fun _ => Yields.pure
    refine (Yields.trivial _).bind fun _ _ => (yields_bytes_u32_prefixed _ _).bind fun _ hid => ?_
    refine (yields_string_u16_prefixed _ _).bind fun _ hdevice => ?_
    exact (Yields.trivial _).bind fun _ _ => (Yields.trivial _).bind fun _ _ => Yields.pure ⟨hid, hdevice⟩
  · exact Yields.pure True.intro
  · exact (Yields.trivial _).bind fun _ _ => Yields.pure True.intro
  · exact Yields.pure True.intro
  · refine Yields.bind (P := fun status => SnapshotManagerResponse.InBounds (.Status status)) ?_ fun _ => Yields.pure
    refine (Yields.trivial _).bind fun _ _ => (Yields.trivial _).bind fun _ _ => ?_
    refine (yields_bytes_u32_prefixed _ _).bind fun _ hid => ?_
    exact (Yields.trivial _).bind fun _ _ => (Yields.trivial _).bind fun _ _ => Yields.pure hid
  · refine (Yields.trivial _).bind fun _ _ => (Yields.trivial _).bind fun _ _ => ?_
    exact (yields_string_u16_prefixed _ _).bind fun _ hmessage => Yields.pure hmessage
  · exact Yields.throw _

/-- A decoder that reads what has the property, and gives nothing else, reads back exactly that. -/
theorem run_encode_iff {α : Type} {decoder : Reader α} {encode : α → List UInt8} {P : α → Prop}
    (hreads : ∀ {value}, P value → Reads decoder (encode value) value) (hyields : Yields decoder P) (value : α) :
    Prod.fst <$> decoder.run (encode value) = .ok value ↔ P value := by
  constructor
  · intro hdecode
    cases hrun : decoder.run (encode value) with
    | error e =>
      rw [hrun] at hdecode
      cases hdecode
    | ok outcome =>
      rw [hrun] at hdecode
      have hvalue : outcome.1 = value := Except.ok.inj hdecode
      exact hvalue ▸ hyields _ outcome.1 outcome.2 hrun
  · intro hvalue
    have hrun := hreads hvalue []
    rw [List.append_nil] at hrun
    rw [hrun]
    rfl

theorem SnapshotManagerRequest.decode_encode_iff (request : SnapshotManagerRequest) :
    decode request.encode = .ok request ↔ request.InBounds := run_encode_iff reads yields request

theorem SnapshotManagerResponse.decode_encode_iff (response : SnapshotManagerResponse) :
    decode response.encode = .ok response ↔ response.InBounds := run_encode_iff reads yields response

end uffs.broker
