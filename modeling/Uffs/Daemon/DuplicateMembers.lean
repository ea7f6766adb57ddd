import Uffs.Aggregate.Invariants
import Uffs.Daemon.Aggregation
import Uffs.Lib.Select

open uffs.lib uffs.mft uffs.text uffs.compact uffs.aggregate
open uffs.search (SearchFilters Render push_component resolve_path path_chain MAX_DEPTH ends_climb name_display_with
  stack_volume_prefix)

namespace uffs.daemon

/-! Which file a member of a duplicate group is taken from and which one it is shown as. -/

section taken

/-- The record stands in the group as this member. -/
def TakenAs (fed : Fed) (member : Member) : Prop := (fed.idx, fed.drive_ordinal) = member

/-- The members of the groups were fed. -/
def MembersFed : (kind : AggregateKind) → List Fed → kind.Accumulator → Prop
  | .Duplicates _ _ _ _, fed, (groups : DuplicateAccumulator) =>
    ∀ group ∈ groups, ∀ member ∈ group.2.members, ∃ e ∈ fed, TakenAs e member
  | _, _, _ => True

variable {member : Member} {groups : DuplicateAccumulator} {group : CompositeKey × DuplicateGroupBuilder}

theorem mem_members_add {max_sample : UInt8} {fed : Fed} {group : DuplicateGroupBuilder}
    (h : member ∈ (group.add max_sample fed).members) : member ∈ group.members ∨ TakenAs fed member := by
  simp only [DuplicateGroupBuilder.add] at h
  split at h
  · rcases List.mem_append.mp h with hold | hnew
    · exact Or.inl hold
    · exact Or.inr (List.mem_singleton.mp hnew).symm
  · exact Or.inl h

theorem mem_update {key : CompositeKey} {f : DuplicateGroupBuilder → DuplicateGroupBuilder} (h : group ∈ groups.update key f) :
    ∃ old ∈ groups, group.2 = old.2 ∨ group.2 = f old.2 := by
  obtain ⟨old, hold, rfl⟩ := List.mem_map.mp h
  refine ⟨old, hold, ?_⟩
  split
  · exact Or.inr rfl
  · exact Or.inl rfl

theorem duplicates_feed_members {calls : Calls} {keys : List FieldId} {max_groups : UInt32} {sample : UInt8} {fed : Fed}
    (h : group ∈ groups.feed calls keys max_groups sample fed) (hmember : member ∈ group.2.members) :
    (∃ old ∈ groups, member ∈ old.2.members) ∨ TakenAs fed member := by
  have hadded : ∀ old ∈ groups, group.2 = old.2 ∨ group.2 = old.2.add sample fed →
      (∃ old ∈ groups, member ∈ old.2.members) ∨ TakenAs fed member := by
    intro old hold hchange
    rcases hchange with heq | heq
    · exact Or.inl ⟨old, hold, heq ▸ hmember⟩
    · rw [heq] at hmember
      exact (mem_members_add hmember).imp_left fun hkept => ⟨old, hold, hkept⟩
  unfold DuplicateAccumulator.feed at h
  split at h
  · exact Or.inl ⟨group, h, hmember⟩
  · dsimp only at h
    split at h
    · obtain ⟨old, hold, hchange⟩ := mem_update h
      exact hadded old hold hchange
    · rcases mem_upsert h with rfl | ⟨old, hold, -, hchange⟩
      · refine Or.inr ((mem_members_add hmember).resolve_left ?_)
        exact List.not_mem_nil
      · exact hadded old hold (hchange.imp_right And.right)

theorem merge_group_members {max_groups : UInt32} {sample : UInt8} {other group : CompositeKey × DuplicateGroupBuilder}
    (h : group ∈ groups.merge_group max_groups sample other) (hmember : member ∈ group.2.members) :
    (∃ old ∈ groups, member ∈ old.2.members) ∨ member ∈ other.2.members := by
  unfold DuplicateAccumulator.merge_group at h
  split at h
  · obtain ⟨old, hold, heq | heq⟩ := mem_update h
    · exact Or.inl ⟨old, hold, heq ▸ hmember⟩
    · rw [heq] at hmember
      rcases List.mem_append.mp hmember with hkept | hadded
      · exact Or.inl ⟨old, hold, hkept⟩
      · exact Or.inr (List.mem_of_mem_take hadded)
  · split at h
    · rcases List.mem_append.mp h with hkept | hadded
      · exact Or.inl ⟨group, hkept, hmember⟩
      · rw [List.mem_singleton.mp hadded] at hmember
        exact Or.inr hmember
    · exact Or.inl ⟨group, h, hmember⟩

theorem merge_groups_members {max_groups : UInt32} {sample : UInt8} {others groups : DuplicateAccumulator}
    (h : group ∈ others.foldl (DuplicateAccumulator.merge_group max_groups sample) groups)
    (hmember : member ∈ group.2.members) :
    (∃ old ∈ groups, member ∈ old.2.members) ∨ ∃ other ∈ others, member ∈ other.2.members := by
  induction others generalizing groups with
  | nil => exact Or.inl ⟨group, h, hmember⟩
  | cons other others ih =>
    rcases ih h with ⟨old, hold, hkept⟩ | ⟨later, hlater, hadded⟩
    · rcases merge_group_members hold hkept with hbefore | hother
      · exact Or.inl hbefore
      · exact Or.inr ⟨other, List.mem_cons_self, hother⟩
    · exact Or.inr ⟨later, List.mem_cons_of_mem _ hlater, hadded⟩

/-- Nothing but fed records becomes a member, however the accumulators are merged. -/
theorem membersFed_kept (walk : WalkOrder) (calls : Calls) (ext_map : ExtensionMap) :
    Kept walk calls ext_map MembersFed where
  fresh kind := by
    cases kind with
    | Duplicates keys verify sample max_groups => exact fun group hgroup => absurd hgroup List.not_mem_nil
    | _ => trivial
  feed kind fed acc e h := by
    cases kind with
    | Duplicates keys verify sample max_groups =>
      intro group hgroup member hmember
      rcases duplicates_feed_members hgroup hmember with ⟨old, hold, hkept⟩ | hnew
      · obtain ⟨before, hbefore, htaken⟩ := h old hold member hkept
        exact ⟨before, List.mem_append_left _ hbefore, htaken⟩
      · exact ⟨e, List.mem_append_right _ (List.mem_singleton_self e), hnew⟩
    | _ => trivial
  merge kind xs ys a b ha hb := by
    cases kind with
    | Duplicates keys verify sample max_groups =>
      intro group hgroup member hmember
      rcases merge_groups_members hgroup hmember with ⟨old, hold, hkept⟩ | ⟨other, hother, hadded⟩
      · obtain ⟨e, he, htaken⟩ := ha old hold member hkept
        exact ⟨e, List.mem_append_left _ he, htaken⟩
      · obtain ⟨e, he, htaken⟩ := hb other (walk.mem_visit.mp hother) member hadded
        exact ⟨e, List.mem_append_right _ he, htaken⟩
    | _ => trivial

end taken

variable {drives : List DriveCompactIndex} {group : DuplicateGroup}

section response

/-- The members of the duplicate groups of one result. -/
def result_members (result : AggregateResult) : List Member :=
  match result.data with
  | .Duplicates dup => dup.groups.flatMap (·.member_indices)
  | _ => []

/-- The members of all duplicate groups that a scan has found. -/
def duplicate_members (output : AggregateOutput) : List Member := output.response.flatMap result_members

theorem mem_sort_by_desc {α : Type} {key : α → UInt64} {entries : List α} {x : α} :
    x ∈ sort_by_desc key entries ↔ x ∈ entries := List.mem_insertionSort _

theorem mem_finalized_members {walk : WalkOrder} {verify : DuplicateVerify} {groups : DuplicateAccumulator} {top : Nat} (h : group ∈ (DuplicateAccumulator.finalize walk verify groups top).groups) :
    ∃ builder ∈ groups, group.member_indices = builder.2.members := by
  have hsorted := List.mem_of_mem_take h
  obtain ⟨builder, hbuilder, rfl⟩ := List.mem_map.mp (mem_sort_by_desc.mp hsorted)
  exact ⟨builder, walk.mem_visit.mp (List.mem_filter.mp hbuilder).1, rfl⟩

theorem result_members_fed {walk : WalkOrder} {calls : Calls} {ext_map : ExtensionMap}
    {options : FinalizeOptions} {total_matched total_bytes : UInt64} {kind : AggregateKind} {acc : kind.Accumulator}
    {fed : List Fed} (h : MembersFed kind fed acc) {label : Option Str} {member : Member}
    (hmember : member ∈ result_members
      ⟨label, finalize_one walk calls drives ext_map options total_matched total_bytes kind acc⟩) :
    ∃ e ∈ fed, TakenAs e member := by
  cases kind with
  | Duplicates keys verify sample max_groups =>
    obtain ⟨group, hgroup, hmember⟩ := List.mem_flatMap.mp hmember
    obtain ⟨found, hfound, rfl⟩ := List.mem_map.mp hgroup
    obtain ⟨builder, hbuilder, hindices⟩ := mem_finalized_members hfound
    exact h builder hbuilder member (hindices ▸ hmember)
  | Terms field top sample => cases sample <;> cases hmember
  | Rollup mode top sub => cases sub <;> cases hmember
  | _ => cases hmember

theorem verify_groups_members {sha256 : List UInt8 → List UInt8} {reader : FileReader} {mode : DuplicateVerify}
    {budget : VerificationBudget} {groups : List DuplicateGroup}
    (h : group ∈ verify_groups sha256 reader mode budget groups) :
    ∃ candidate ∈ groups, group.member_indices = candidate.member_indices := by
  induction groups generalizing budget with
  | nil => cases h
  | cons head rest ih =>
    have hlater : ∀ after, group ∈ verify_groups sha256 reader mode after rest →
        ∃ candidate ∈ head :: rest, group.member_indices = candidate.member_indices := by
      intro after hmem
      obtain ⟨candidate, hcandidate, heq⟩ := ih hmem
      exact ⟨candidate, List.mem_cons_of_mem _ hcandidate, heq⟩
    simp only [verify_groups] at h
    split at h
    · exact hlater _ h
    · split at h
      · rcases List.mem_cons.mp h with rfl | hmem
        · exact ⟨group, List.mem_cons_self, rfl⟩
        · exact hlater _ hmem
      · split at h
        · rcases List.mem_cons.mp h with rfl | hmem
          · exact ⟨head, List.mem_cons_self, rfl⟩
          · exact hlater _ hmem
        · exact hlater _ h
        · rcases List.mem_cons.mp h with rfl | hmem
          · exact ⟨group, List.mem_cons_self, rfl⟩
          · exact hlater _ hmem

end response

section resolution

theorem prefix_push_component (path name : Str) : path <+: push_component path name := by
  unfold search.push_component
  split
  · rw [List.append_assoc]
    exact List.prefix_append _ _
  · exact List.prefix_append _ _

theorem prefix_resolve_path (drive : DriveCompactIndex) (record_idx : Nat) (volume_root : Str) (render : Render) :
    volume_root <+: resolve_path drive record_idx volume_root render := by
  unfold resolve_path
  generalize (path_chain drive.records drive.names (MAX_DEPTH + 1) record_idx).reverse = chain
  suffices hfold : ∀ path : Str, volume_root <+: path → volume_root <+: chain.foldl (fun path rec =>
      if ends_climb (rec.name_bytes drive.names) then path
      else push_component path (name_display_with render rec drive.names)) path from hfold _ List.prefix_rfl
  intro path hpath
  induction chain generalizing path with
  | nil => exact hpath
  | cons rec chain ih =>
    rw [List.foldl_cons]
    apply ih
    split
    · exact hpath
    · exact hpath.trans (prefix_push_component _ _)

/-- A path begins with the letter of its drive. -/
theorem head?_member_path (lossy : Render) (drive : DriveCompactIndex) (record_idx : Nat) :
    (member_path lossy drive record_idx).head? = some drive.letter := by
  obtain ⟨tail, htail⟩ := prefix_resolve_path drive record_idx ( stack_volume_prefix drive.letter) lossy
  unfold member_path
  rw [← htail]
  rfl

/-- Shown and read, looked up among these drives, the member is the file that was taken. -/
def Resolves (lossy : Render) (drives : List DriveCompactIndex) (fed : Fed) : Prop :=
  materialize_dup_member lossy drives (fed.idx, fed.drive_ordinal) = some (dup_row lossy fed.drive fed.idx fed.record) ∧
    DaemonFileReader.resolve_path lossy drives (fed.idx, fed.drive_ordinal) = some (member_path lossy fed.drive fed.idx)

theorem eq_of_letter (hdistinct : (drives.map DriveCompactIndex.letter).Nodup)
    {a b : DriveCompactIndex} (ha : a ∈ drives) (hb : b ∈ drives) (hletter : a.letter = b.letter) : a = b :=
  List.inj_on_of_nodup_map hdistinct ha hb hletter

theorem resolves_iff {lossy : Render}
    (hdistinct : (drives.map DriveCompactIndex.letter).Nodup) {fed : Fed} (hdrive : fed.drive ∈ drives)
    (hrecord : fed.drive.records[fed.idx]? = some fed.record) :
    Resolves lossy drives fed ↔ drives[fed.drive_ordinal.toNat]? = some fed.drive := by
  constructor
  · rintro ⟨-, hpath⟩
    obtain ⟨shown, hshown, hpath⟩ := Option.bind_eq_some_iff.mp hpath
    have hletter := congrArg List.head? (Option.some.inj hpath)
    rw [head?_member_path, head?_member_path] at hletter
    rw [hshown, eq_of_letter hdistinct (List.mem_of_getElem? hshown) hdrive (Option.some.inj hletter)]
  · intro hget
    constructor
    · simp only [materialize_dup_member, hget, hrecord, Option.bind_eq_bind, Option.bind_some]
      rfl
    · simp only [DaemonFileReader.resolve_path, hget, Option.bind_eq_bind, Option.bind_some]
      rfl

end resolution

section drives

variable (index : DriveIndex)

theorem DriveIndex.length_le : index.drives.length ≤ 26 := by
  have hsub : index.drives.map DriveCompactIndex.letter ⊆ (List.range 26).map fun n => Char.ofNat (65 + n) := by
    intro letter hmem
    obtain ⟨drive, hdrive, rfl⟩ := List.mem_map.mp hmem
    have hupper := index.letters drive hdrive
    generalize drive.letter = letter at hupper
    have hlow : 65 ≤ letter.toNat ∧ letter.toNat ≤ 90 := by
      have hrange : 65 ≤ letter.val ∧ letter.val ≤ 90 := of_decide_eq_true hupper
      exact ⟨UInt32.le_iff_toNat_le.mp hrange.1, UInt32.le_iff_toNat_le.mp hrange.2⟩
    refine List.mem_map.mpr ⟨letter.toNat - 65, List.mem_range.mpr (by omega), ?_⟩
    rw [Nat.add_sub_cancel' hlow.1, Char.ofNat_toNat]
  have hlen := (List.subperm_of_subset index.distinct hsub).length_le
  rwa [List.length_map, List.length_map, List.length_range] at hlen

theorem DriveIndex.nodup : index.drives.Nodup := List.Nodup.of_map _ index.distinct

theorem toNat_drive_ordinal {position : Nat} (h : position < UInt8.size) : (drive_ordinal position).toNat = position := by
  rw [drive_ordinal, if_pos h]
  exact UInt8.toNat_ofNat_of_lt' h

/-- The ordinal of a loaded drive is its position. -/
theorem DriveIndex.lt_size {position : Nat} (h : position < index.drives.length) :
    position < UInt8.size := Nat.lt_of_lt_of_le h (index.length_le.trans (by decide))

/-- No drive that the filter leaves out was loaded before the one with the letter. -/
def leads (index : DriveIndex) (drives_filter : List Char) (letter : Char) : Bool :=
  (index.drives.takeWhile fun drive => drive.letter != letter).all (selects drives_filter)

theorem DriveIndex.takeWhile_letter {drive : DriveCompactIndex} {before rest : List DriveCompactIndex}
    (h : index.drives = before ++ drive :: rest) :
    (index.drives.takeWhile fun other => other.letter != drive.letter) = before := by
  have hdistinct := index.distinct
  rw [h, List.map_append, List.map_cons, List.nodup_append] at hdistinct
  have hother : ∀ other ∈ before, (other.letter != drive.letter) = true := fun other hmem =>
    bne_iff_ne.mpr (hdistinct.2.2 _ (List.mem_map_of_mem hmem) _ List.mem_cons_self)
  rw [h, List.takeWhile_append_of_pos hother, List.takeWhile_cons_of_neg (by simp), List.append_nil]

theorem DriveIndex.leads_iff {drives_filter : List Char} {drive : DriveCompactIndex} (hmem : drive ∈ index.drives) :
    leads index drives_filter drive.letter = true ↔
      ∀ before rest, index.drives = before ++ drive :: rest → ∀ other ∈ before, selects drives_filter other = true := by
  unfold leads
  rw [List.all_eq_true]
  constructor
  · intro hall before rest hdrives
    rwa [index.takeWhile_letter hdrives] at hall
  · intro hall
    obtain ⟨before, rest, hdrives⟩ := List.append_of_mem hmem
    rw [index.takeWhile_letter hdrives]
    exact hall before rest hdrives

end drives

section answers

variable (world : Surroundings)

/-- The records that the scan of a request feeds. -/
def request_records (index : DriveIndex) (request : AggregationRequest) : List Fed :=
  match request_scope world.env world.compile_pattern request.pattern request.record_filter request.search_filters with
  | .error _ => []
  | .ok scope => scanned_records (index.drive_refs request.drives_filter) scope

/-- The groups of duplicates in a response. -/
def duplicate_buckets (wire : List AggregateResultWire) : List DuplicateBucketWire :=
  wire.flatMap fun result =>
    match result with
    | .duplicates _ _ buckets => buckets
    | .other _ => []

/-- The rows of the bucket are those of the members, looked up among the drives. -/
def ShowsMembers (drives : List DriveCompactIndex) (bucket : DuplicateBucketWire) (members : List Member) : Prop :=
  bucket.sample_rows = materialize_dup_members world.lossy members drives

variable {world}

theorem of_mem_zipWith {α β γ : Type} {f : α → β → γ} {xs : List α} {ys : List β} {z : γ} (h : z ∈ List.zipWith f xs ys) :
    ∃ x ∈ xs, ∃ y ∈ ys, z = f x y := by
  rw [← List.map_uncurry_zip_eq_zipWith] at h
  obtain ⟨⟨x, y⟩, hmem, rfl⟩ := List.mem_map.mp h
  exact ⟨x, (List.of_mem_zip hmem).1, y, (List.of_mem_zip hmem).2, rfl⟩

theorem verify_members_subset {mode : DuplicateVerify} {reader : FileReader} {budget : VerificationBudget}
    {result : DuplicateResult} (h : group ∈ (verify world.sha256 reader mode budget result).groups) :
    ∃ candidate ∈ result.groups, group.member_indices = candidate.member_indices := by
  cases mode with
  | None => exact ⟨group, h, rfl⟩
  | FirstBytes count => exact verify_groups_members h
  | Sha256 => exact verify_groups_members h

variable {specs : List AggregateSpec} {output : AggregateOutput}

/-- Every bucket of an answer shows members of a group that the scan has found. -/
theorem answer_shows_members {bucket : DuplicateBucketWire}
    (h : bucket ∈ duplicate_buckets (answer world drives specs output)) :
    ∃ members, ShowsMembers world drives bucket members ∧ ∀ member ∈ members, member ∈ duplicate_members output := by
  obtain ⟨wire, hwire, hbucket⟩ := List.mem_flatMap.mp h
  obtain ⟨verified, hverified, rfl⟩ := List.mem_map.mp hwire
  obtain ⟨spec, -, result, hresult, rfl⟩ := of_mem_zipWith hverified
  unfold build_aggregate_result_wire verify_result at hbucket
  cases hdata : result.data with
  | Duplicates dup =>
    simp only [hdata] at hbucket
    obtain ⟨group, hgroup, rfl⟩ := List.mem_map.mp hbucket
    obtain ⟨candidate, hcandidate, hindices⟩ := verify_members_subset hgroup
    refine ⟨group.member_indices, rfl, fun member hmember => ?_⟩
    refine List.mem_flatMap.mpr ⟨result, hresult, ?_⟩
    simp only [result_members, hdata]
    exact List.mem_flatMap.mpr ⟨candidate, hcandidate, hindices ▸ hmember⟩
  | _ => simp only [hdata] at hbucket; cases hbucket

/-- The members of the groups of a scan are records that it fed. -/
theorem request_members_fed {index : DriveIndex} {request : AggregationRequest}
    (hrun : request_output world index specs request = .ok output) {member : Member}
    (hmember : member ∈ duplicate_members output) : ∃ fed ∈ request_records world index request, TakenAs fed member := by
  unfold request_output run_aggregate_with_filters at hrun
  unfold request_records
  cases hscope : request_scope world.env world.compile_pattern request.pattern request.record_filter request.search_filters with
  | error e => rw [hscope] at hrun; cases hrun
  | ok scope =>
    rw [hscope] at hrun
    cases hplan : AggregatePlan.compile specs with
    | error e => rw [hplan] at hrun; cases hrun
    | ok plan =>
      rw [hplan] at hrun
      cases hrun
      obtain ⟨result, hresult, hmember⟩ := List.mem_flatMap.mp hmember
      have hall := (membersFed_kept world.runtime.walk world.calls
        (.build (index.drive_refs request.drives_filter))).scan_drives plan.specs scope
      obtain ⟨spec, -, acc, hacc, rfl⟩ := hall.of_mem_finalize_all hresult
      exact result_members_fed hacc hmember

theorem row_members_fed {options : FinalizeOptions} {rows : List (Char × UInt32)}
    (hrun : run_aggregate_over_records world.runtime world.calls drives specs options rows = .ok output) {member : Member}
    (hmember : member ∈ duplicate_members output) : ∃ fed ∈ rows.filterMap (fed_row drives), TakenAs fed member := by
  unfold run_aggregate_over_records at hrun
  cases hplan : AggregatePlan.compile specs with
  | error e => rw [hplan] at hrun; cases hrun
  | ok plan =>
    rw [hplan] at hrun
    cases hrun
    obtain ⟨result, hresult, hmember⟩ := List.mem_flatMap.mp hmember
    have hall := (membersFed_kept world.runtime.walk world.calls (.build drives)).feed_all plan.specs
      (rows.filterMap (fed_row drives))
    obtain ⟨spec, -, acc, hacc, rfl⟩ := hall.of_mem_finalize_all hresult
    exact result_members_fed hacc hmember

/-- A record that a request has scanned is found again exactly when its drive is. -/
theorem request_record_resolves_iff {index : DriveIndex} {request : AggregationRequest} {fed : Fed}
    (hfed : fed ∈ request_records world index request) :
    Resolves world.lossy index.drives fed ↔ leads index request.drives_filter fed.drive.letter = true := by
  unfold request_records at hfed
  split at hfed
  · cases hfed
  · obtain ⟨position, hposition, hordinal, hrecord⟩ := mem_scanned_records hfed
    have hmem : fed.drive ∈ index.drives := (List.mem_filter.mp (List.mem_of_getElem? hposition)).1
    have hlt := (List.getElem?_eq_some_iff.mp hposition).1
    have hshort := index.lt_size (Nat.lt_of_lt_of_le hlt (List.length_filter_le _ _))
    rw [resolves_iff index.distinct hmem hrecord, hordinal, toNat_drive_ordinal hshort, index.leads_iff hmem]
    exact getElem?_filter_iff index.nodup hposition

theorem row_record_resolves {index : DriveIndex} {row : Char × UInt32} {fed : Fed}
    (hfed : fed_row index.drives row = some fed) : Resolves world.lossy index.drives fed := by
  obtain ⟨⟨drive, position⟩, hfound, hfed⟩ := Option.bind_eq_some_iff.mp hfed
  obtain ⟨record, hrecord, hfed⟩ := Option.bind_eq_some_iff.mp hfed
  cases hfed
  have hget := List.mk_mem_zipIdx_iff_getElem?.mp (List.mem_reverse.mp (List.mem_of_find?_eq_some hfound))
  have hshort := index.lt_size (List.getElem?_eq_some_iff.mp hget).1
  refine (resolves_iff index.distinct (List.mem_of_getElem? hget) hrecord).mpr ?_
  rw [toNat_drive_ordinal hshort]
  exact hget

/-- A member is the file it was taken from exactly when the filter leaves out no drive loaded before its own; the
members of an aggregation over found rows always are. -/
theorem duplicate_members_resolve_iff (world : Surroundings) (index : DriveIndex) (specs : List AggregateSpec) :
    (∀ request, ∀ bucket ∈ duplicate_buckets (run_aggregations world index specs request).1,
      ∃ members, ShowsMembers world index.drives bucket members ∧ ∀ member ∈ members,
        (∃ fed ∈ request_records world index request, TakenAs fed member) ∧
        ∀ fed ∈ request_records world index request, TakenAs fed member →
          (Resolves world.lossy index.drives fed ↔ leads index request.drives_filter fed.drive.letter = true)) ∧
    ∀ rows query_predicates,
      ∀ bucket ∈ duplicate_buckets (run_aggregations_over_rows world index specs rows query_predicates).1,
      ∃ members, ShowsMembers world index.drives bucket members ∧ ∀ member ∈ members,
        (∃ fed ∈ rows.filterMap (fed_row index.drives), TakenAs fed member) ∧
        ∀ fed ∈ rows.filterMap (fed_row index.drives), TakenAs fed member → Resolves world.lossy index.drives fed := by
  constructor
  · intro request bucket h
    unfold run_aggregations at h
    split at h
    · cases h
    · split at h
      · cases h
      next output hrun =>
        obtain ⟨members, hshows, hmembers⟩ := answer_shows_members h
        refine ⟨members, hshows, fun member hmember => ⟨request_members_fed hrun (hmembers member hmember), ?_⟩⟩
        exact fun fed hfed _ => request_record_resolves_iff hfed
  · intro rows query_predicates bucket h
    unfold run_aggregations_over_rows at h
    split at h
    · cases h
    · split at h
      · cases h
      next output hrun =>
        obtain ⟨members, hshows, hmembers⟩ := answer_shows_members h
        refine ⟨members, hshows, fun member hmember => ⟨row_members_fed hrun (hmembers member hmember), ?_⟩⟩
        intro fed hfed _
        obtain ⟨row, -, hrow⟩ := List.mem_filterMap.mp hfed
        exact row_record_resolves hrow

/-- A drive with two files of five bytes. -/
def two_file_drive (letter : Char) (names : List UInt8) : DriveCompactIndex :=
  { bare_drive with
    letter := letter
    records := [
      { size := 5, name_len := 1, parent_idx := NO_ENTRY, path_len := 4 },
      { size := 5, name_len := 1, name_offset := 1, parent_idx := NO_ENTRY, path_len := 4 }]
    names := names
    children := { offsets := [0, 0, 0], values := [] }
    ext_index := { offsets := [0, 2], values := [0, 1] } }

/-- C: with files a and b, then D: with files x and y. -/
def two_drives : DriveIndex where
  drives := [two_file_drive 'C' [0x61, 0x62], two_file_drive 'D' [0x78, 0x79]]
  letters := by decide
  distinct := by decide

def plain_world : Surroundings where
  runtime := .plain
  calls := { hash_ext := fun _ => 0, hash_name := fun _ => 0, categories := [] }
  env := sample_env
  compile_pattern := fun _ => none
  lossy := fun _ => []
  sha256 := id
  disk := fun _ => none

/-- Files of the same size. -/
def by_size : List AggregateSpec := [{ kind := .Duplicates [.Size] .None none 500000 }]

def only (letter : Char) : AggregationRequest := { drives_filter := [letter] }

/-- The duplicates of D: are shown as the files of C:. -/
def shown_for_d : DuplicateBucketWire where
  display_name := some ['a']
  file_size := 5
  count := 2
  total_bytes := 10
  reclaimable_bytes := 5
  sample_rows := [dup_row plain_world.lossy (two_file_drive 'C' [0x61, 0x62]) 0 (two_file_drive 'C' [0x61, 0x62]).records[0],
    dup_row plain_world.lossy (two_file_drive 'C' [0x61, 0x62]) 1 (two_file_drive 'C' [0x61, 0x62]).records[1]]
  verified := true

theorem duplicate_members_resolve_of_d :
    ∃ members, ShowsMembers plain_world two_drives.drives shown_for_d members ∧ ∀ member ∈ members,
      (∃ fed ∈ request_records plain_world two_drives (only 'D'), TakenAs fed member) ∧
      ∀ fed ∈ request_records plain_world two_drives (only 'D'), TakenAs fed member →
        (Resolves plain_world.lossy two_drives.drives fed ↔ leads two_drives ['D'] fed.drive.letter = true) :=
  (duplicate_members_resolve_iff plain_world two_drives by_size).1 (only 'D') shown_for_d (by decide)

/-- A request for D: shows its duplicates under the paths of C:. -/
theorem duplicate_members_resolved_wrong :
    ¬ ∀ (world : Surroundings) (index : DriveIndex) (specs : List AggregateSpec) (request : AggregationRequest),
      ∀ bucket ∈ duplicate_buckets (run_aggregations world index specs request).1,
        ∃ members, ShowsMembers world index.drives bucket members ∧ ∀ member ∈ members,
          (∃ fed ∈ request_records world index request, TakenAs fed member) ∧
          ∀ fed ∈ request_records world index request, TakenAs fed member → Resolves world.lossy index.drives fed := by
  intro hclaim
  obtain ⟨members, hshows, hmembers⟩ :=
    hclaim plain_world two_drives by_size (only 'D') shown_for_d (by decide)
  cases members with
  | nil => cases hshows
  | cons member rest =>
    obtain ⟨⟨fed, hfed, htaken⟩, hresolves⟩ := hmembers member List.mem_cons_self
    have hleads := (request_record_resolves_iff hfed).mp (hresolves fed hfed htaken)
    have hwrong : ∀ fed ∈ request_records plain_world two_drives (only 'D'),
        leads two_drives (only 'D').drives_filter fed.drive.letter = false := by decide
    rw [hwrong fed hfed] at hleads
    cases hleads

end answers

end uffs.daemon
