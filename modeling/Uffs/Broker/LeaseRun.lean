import Uffs.Broker.Lease

open uffs.lib

namespace uffs.broker

/-! What any run of the lease manager keeps: each deletion is on account of one lease, and each lease of one grant. -/

/-- The clock that a call brings. -/
def Call.now : Call → Option Int64
  | .create _ now_unix_ms => some now_unix_ms
  | .renew _ _ now_unix_ms => some now_unix_ms
  | .release _ => none
  | .query _ now_unix_ms => some now_unix_ms
  | .device_identity _ now_unix_ms => some now_unix_ms
  | .sweep now_unix_ms => some now_unix_ms

/-- The deletions of a lease's snapshot that were done. -/
def succeeded (lease_id : Nat) (deletions : List Deletion) : Nat :=
  deletions.countP fun deletion => deletion.lease_id = lease_id && deletion.done

/-- The deletions of a lease's snapshot that a sweep asked for. -/
def sweeps (lease_id : Nat) (deletions : List Deletion) : Nat :=
  deletions.countP fun deletion => deletion.lease_id = lease_id && deletion.swept.isSome

/-- A creation grants its lifetime, a renewal the expiry it asks for. -/
@[grind] def regrant (lease_id : Nat) (before : Option Int64) : Call × Reply → Option Int64
  | (.create maximum_lifetime_secs now_unix_ms, .created (.ok created)) =>
    if created.lease_id = lease_id then
      some (saturating_add_i64 now_unix_ms (secs_to_ms_saturating maximum_lifetime_secs))
    else before
  | (.renew renewed requested_expiry_unix_ms _, .renewed (.ok _)) =>
    if renewed = lease_id then some requested_expiry_unix_ms else before
  | _ => before

/-- The expiry that the calls so far have granted a lease. -/
@[grind] def granted (history : List (Call × Reply)) (lease_id : Nat) : Option Int64 :=
  history.foldl (regrant lease_id) none

/-- The lease whose state a reply tells. -/
@[grind] def reported : Call × Reply → Option (Nat × SnapshotLeaseState)
  | (.query lease_id _, .status (some status)) => some (lease_id, status.state)
  | (.device_identity lease_id _, .device_identity (some _)) => some (lease_id, .Active)
  | (.renew lease_id _ _, .renewed (.ok _)) => some (lease_id, .Active)
  | _ => none

@[simp] theorem granted_append (history : List (Call × Reply)) (event : Call × Reply) (lease_id : Nat) :
    granted (history ++ [event]) lease_id = regrant lease_id (granted history lease_id) event := by
  simp [granted]

@[simp] theorem succeeded_append (lease_id : Nat) (deletions later : List Deletion) :
    succeeded lease_id (deletions ++ later) = succeeded lease_id deletions + succeeded lease_id later := by
  simp [succeeded]

@[simp] theorem sweeps_append (lease_id : Nat) (deletions later : List Deletion) :
    sweeps lease_id (deletions ++ later) = sweeps lease_id deletions + sweeps lease_id later := by
  simp [sweeps]

/-- How often a lease in this state has been deleted, and how often by a sweep. -/
@[grind] def Settled (state : RecordState) (succeeded sweeps : Nat) : Prop :=
  match state with
  | .Active => succeeded = 0 ∧ sweeps = 0
  | .Released => succeeded = 1 ∧ sweeps = 0
  | .Expired => succeeded ≤ 1 ∧ sweeps = 1

/-- Every deletion is on account of a lease, and as its state says. -/
structure Accounted (manager : SnapshotLeaseManager) (deletions : List Deletion) : Prop where
  keys : NodupKeys manager.leases
  fresh : ∀ entry ∈ manager.leases, entry.1 < manager.next_lease_id
  logged : ∀ deletion ∈ deletions, ∃ entry ∈ manager.leases, entry.1 = deletion.lease_id
  settled : ∀ entry ∈ manager.leases, Settled entry.2.state (succeeded entry.1 deletions) (sweeps entry.1 deletions)

/-- Every lease expires as it was granted. -/
def Granted (manager : SnapshotLeaseManager) (history : List (Call × Reply)) : Prop :=
  ∀ entry ∈ manager.leases, granted history entry.1 = some entry.2.expires_at_unix_ms

section keys

variable {leases : List (Nat × LeaseRecord)}

/-- Where no key stands twice, a walk over the entries meets the wanted one once. -/
theorem countP_of_nodupKeys (h : NodupKeys leases) {entry : Nat × LeaseRecord} (hmem : entry ∈ leases)
    (p : Nat × LeaseRecord → Bool) :
    leases.countP (fun other => other.1 = entry.1 && p other) = if p entry then 1 else 0 := by
  induction leases with
  | nil => cases hmem
  | cons head rest ih =>
    obtain ⟨hhead, hrest⟩ := List.nodup_cons.mp h
    rcases List.mem_cons.mp hmem with rfl | hlater
    · have hnone : rest.countP (fun other => other.1 = entry.1 && p other) = 0 := by
        apply List.countP_eq_zero.mpr
        intro other hother hboth
        have hsame : other.1 = entry.1 := by simpa using (Bool.and_eq_true_iff.mp hboth).1
        exact hhead (hsame ▸ List.mem_map_of_mem hother)
      rw [List.countP_cons, hnone]
      simp
    · have hne : head.1 ≠ entry.1 := by
        intro heq
        exact hhead (heq ▸ List.mem_map_of_mem hlater)
      rw [List.countP_cons, ih hrest hlater]
      simp [hne]

theorem eq_of_mem_nodupKeys (h : NodupKeys leases) {entry other : Nat × LeaseRecord} (hmem : entry ∈ leases)
    (hother : other ∈ leases) (hkey : entry.1 = other.1) : entry = other :=
  List.inj_on_of_nodup_map h hmem hother hkey

theorem nodupKeys_map (h : NodupKeys leases) {f : Nat × LeaseRecord → Nat × LeaseRecord} (hkey : ∀ entry, (f entry).1 = entry.1) :
    NodupKeys (leases.map f) := by
  have hkeys : (leases.map f).map Prod.fst = leases.map Prod.fst := by
    rw [List.map_map]
    exact List.map_congr_left fun entry _ => hkey entry
  unfold NodupKeys
  rw [hkeys]
  exact h

end keys

namespace SnapshotLeaseManager

variable (self : SnapshotLeaseManager) (answers : Answers) (now_unix_ms : Int64)

/-- What a sweep leaves of an entry. -/
@[grind] def sweep_entry (entry : Nat × LeaseRecord) : Nat × LeaseRecord :=
  if overdue now_unix_ms entry.2 then (entry.1, { entry.2 with state := .Expired }) else entry

theorem sweep_expired_leases :
    (self.sweep_expired answers now_unix_ms).1.leases = self.leases.map (sweep_entry now_unix_ms) := rfl

@[simp] theorem sweep_expired_next : (self.sweep_expired answers now_unix_ms).1.next_lease_id = self.next_lease_id := rfl

@[simp] theorem sweep_entry_fst (entry : Nat × LeaseRecord) : (sweep_entry now_unix_ms entry).1 = entry.1 := by
  unfold sweep_entry
  split <;> rfl

@[simp] theorem sweep_entry_expires (entry : Nat × LeaseRecord) :
    (sweep_entry now_unix_ms entry).2.expires_at_unix_ms = entry.2.expires_at_unix_ms := by
  unfold sweep_entry
  split <;> rfl

theorem lookup_sweep (lease_id : Nat) : (self.sweep_expired answers now_unix_ms).1.leases.lookup lease_id =
    (self.leases.lookup lease_id).map fun record => (sweep_entry now_unix_ms (lease_id, record)).2 := by
  rw [sweep_expired_leases]
  induction self.leases with
  | nil => rfl
  | cons entry rest ih =>
    obtain ⟨key, record⟩ := entry
    have hhead : sweep_entry now_unix_ms (key, record) = (key, (sweep_entry now_unix_ms (key, record)).2) :=
      Prod.ext (sweep_entry_fst now_unix_ms _) rfl
    by_cases hkey : lease_id = key
    · subst hkey
      rw [List.map_cons, hhead, List.lookup_cons_self, List.lookup_cons_self]
      rfl
    · rw [List.map_cons, hhead, lookup_cons_of_ne hkey, lookup_cons_of_ne hkey, ih]

theorem overdue_iff {record : LeaseRecord} :
    overdue now_unix_ms record = true ↔ record.state = .Active ∧ record.expires_at_unix_ms ≤ now_unix_ms := by
  simp [overdue]

variable {entry : Nat × LeaseRecord}

/-- After the sweep what is active is not yet due. -/
theorem sweep_entry_active (h : (sweep_entry now_unix_ms entry).2.state = .Active) :
    now_unix_ms < entry.2.expires_at_unix_ms := by
  unfold sweep_entry at h
  split at h
  · cases h
  · next hkept =>
    rw [overdue_iff] at hkept
    exact Int64.not_le.mp fun hle => hkept ⟨h, hle⟩

theorem mem_sweep_deletions {deletion : Deletion} (h : deletion ∈ (self.sweep_expired answers now_unix_ms).2) :
    (deletion.lease_id, deletion.record) ∈ self.leases ∧ deletion.record.state = .Active ∧
      deletion.record.expires_at_unix_ms ≤ now_unix_ms := by
  simp only [sweep_expired, List.mem_map, List.mem_filter] at h
  obtain ⟨entry, ⟨hmem, hdue⟩, rfl⟩ := h
  obtain ⟨hactive, hle⟩ := (overdue_iff now_unix_ms).mp hdue
  exact ⟨hmem, hactive, hle⟩

variable {self} in
theorem succeeded_sweep (h : NodupKeys self.leases) (hmem : entry ∈ self.leases) :
    succeeded entry.1 (self.sweep_expired answers now_unix_ms).2 =
      if overdue now_unix_ms entry.2 && (answers.delete_snapshot entry.1).isOk then 1 else 0 := by
  have hcount := countP_of_nodupKeys h hmem fun other =>
    overdue now_unix_ms other.2 && (answers.delete_snapshot other.1).isOk
  rw [← hcount]
  simp only [succeeded, sweep_expired, List.countP_map, List.countP_filter]
  apply List.countP_congr
  intro other _
  simp only [Function.comp_apply, Bool.and_eq_true]
  tauto

variable {self} in
theorem sweeps_sweep (h : NodupKeys self.leases) (hmem : entry ∈ self.leases) :
    sweeps entry.1 (self.sweep_expired answers now_unix_ms).2 = if overdue now_unix_ms entry.2 then 1 else 0 := by
  have hcount := countP_of_nodupKeys h hmem fun other => overdue now_unix_ms other.2
  rw [← hcount]
  simp only [sweeps, sweep_expired, List.countP_map, List.countP_filter]
  apply List.countP_congr
  intro other _
  simp

end SnapshotLeaseManager

open SnapshotLeaseManager

namespace Accounted

variable {manager : SnapshotLeaseManager} {deletions : List Deletion}

theorem sweep (h : Accounted manager deletions) (answers : Answers) (now_unix_ms : Int64) :
    Accounted (manager.sweep_expired answers now_unix_ms).1 (deletions ++ (manager.sweep_expired answers now_unix_ms).2) where
  keys := nodupKeys_map h.keys (sweep_entry_fst now_unix_ms)
  fresh := by
    intro entry hentry
    rw [sweep_expired_leases] at hentry
    obtain ⟨old, hold, rfl⟩ := List.mem_map.mp hentry
    simpa using h.fresh old hold
  logged := by
    intro deletion hdeletion
    have hbefore : ∃ entry ∈ manager.leases, entry.1 = deletion.lease_id := by
      rcases List.mem_append.mp hdeletion with hold | hnew
      · exact h.logged deletion hold
      · exact ⟨_, (mem_sweep_deletions manager answers now_unix_ms hnew).1, rfl⟩
    obtain ⟨entry, hentry, hkey⟩ := hbefore
    exact ⟨sweep_entry now_unix_ms entry, List.mem_map_of_mem hentry, by simpa using hkey⟩
  settled := by
    intro entry hentry
    rw [sweep_expired_leases] at hentry
    obtain ⟨old, hold, rfl⟩ := List.mem_map.mp hentry
    have hsettled := h.settled old hold
    simp only [sweep_entry_fst, succeeded_append, sweeps_append, succeeded_sweep answers now_unix_ms h.keys hold,
      sweeps_sweep answers now_unix_ms h.keys hold]
    unfold sweep_entry
    by_cases hdue : overdue now_unix_ms old.2 = true
    · have hactive := ((overdue_iff now_unix_ms).mp hdue).1
      simp only [hactive, Settled] at hsettled
      simp only [hdue, if_true, Settled, Bool.true_and]
      constructor
      · split <;> omega
      · omega
    · simpa [hdue] using hsettled

variable {record : LeaseRecord} {lease_id : Nat}

section

variable (h : Accounted manager deletions)

include h

/-- A new lease has no deletion yet, since every deletion is of a lease that was there. -/
theorem append (hactive : record.state = .Active) :
    Accounted ⟨manager.next_lease_id + 1, manager.leases ++ [(manager.next_lease_id, record)]⟩ deletions where
  keys := by
    have hnew : manager.next_lease_id ∉ manager.leases.map Prod.fst := by
      intro hmem
      obtain ⟨entry, hentry, hkey⟩ := List.mem_map.mp hmem
      exact absurd (h.fresh entry hentry) (by omega)
    unfold NodupKeys
    rw [List.map_append, List.map_singleton]
    exact List.Nodup.append h.keys (List.nodup_singleton _) (List.disjoint_singleton.mpr hnew)
  fresh := by
    intro entry hentry
    rcases List.mem_append.mp hentry with hold | hnew
    · exact Nat.lt_succ_of_lt (h.fresh entry hold)
    · rw [List.mem_singleton.mp hnew]
      exact Nat.lt_succ_self _
  logged := by
    intro deletion hdeletion
    obtain ⟨entry, hentry, hkey⟩ := h.logged deletion hdeletion
    exact ⟨entry, List.mem_append_left _ hentry, hkey⟩
  settled := by
    intro entry hentry
    rcases List.mem_append.mp hentry with hold | hnew
    · exact h.settled entry hold
    · rw [List.mem_singleton.mp hnew]
      have hother : ∀ deletion ∈ deletions, deletion.lease_id ≠ manager.next_lease_id := by
        intro deletion hdeletion
        obtain ⟨entry, hentry, hkey⟩ := h.logged deletion hdeletion
        have hlt := h.fresh entry hentry
        omega
      simp only [hactive, Settled, succeeded, sweeps, List.countP_eq_zero]
      constructor
      · intro deletion hdeletion
        simp [hother deletion hdeletion]
      · intro deletion hdeletion
        simp [hother deletion hdeletion]

/-- One record changed, and the deletions with it: the account of the others stays. -/
theorem update {f : LeaseRecord → LeaseRecord} {later : List Deletion} (hmem : (lease_id, record) ∈ manager.leases)
    (hlater : ∀ deletion ∈ later, deletion.lease_id = lease_id)
    (hsettled : Settled (f record).state (succeeded lease_id (deletions ++ later)) (sweeps lease_id (deletions ++ later))) :
    Accounted (manager.update lease_id f) (deletions ++ later) where
  keys := by
    apply nodupKeys_map h.keys
    intro entry
    split <;> rfl
  fresh := by
    intro entry hentry
    obtain ⟨old, hold, rfl⟩ := List.mem_map.mp hentry
    have hlt := h.fresh old hold
    split <;> exact hlt
  logged := by
    intro deletion hdeletion
    have hbefore : ∃ entry ∈ manager.leases, entry.1 = deletion.lease_id := by
      rcases List.mem_append.mp hdeletion with hold | hnew
      · exact h.logged deletion hold
      · exact ⟨_, hmem, (hlater deletion hnew).symm⟩
    obtain ⟨entry, hentry, hkey⟩ := hbefore
    refine ⟨_, List.mem_map_of_mem hentry, ?_⟩
    split <;> exact hkey
  settled := by
    intro entry hentry
    obtain ⟨old, hold, rfl⟩ := List.mem_map.mp hentry
    by_cases hkey : old.1 = lease_id
    · have heq : old = (lease_id, record) := eq_of_mem_nodupKeys h.keys hold hmem hkey
      subst heq
      simpa using hsettled
    · have hnone : ∀ deletion ∈ later, deletion.lease_id ≠ old.1 := by
        intro deletion hdeletion
        rw [hlater deletion hdeletion]
        exact Ne.symm hkey
      have hsucceeded : succeeded old.1 later = 0 := by
        apply List.countP_eq_zero.mpr
        intro deletion hdeletion
        simp [hnone deletion hdeletion]
      have hsweeps : sweeps old.1 later = 0 := by
        apply List.countP_eq_zero.mpr
        intro deletion hdeletion
        simp [hnone deletion hdeletion]
      simpa [hkey, hsucceeded, hsweeps] using h.settled old hold

theorem renew (hmem : (lease_id, record) ∈ manager.leases) (expiry : Int64) :
    Accounted (manager.update lease_id fun record => { record with expires_at_unix_ms := expiry }) deletions := by
  have hsettled := h.settled _ hmem
  have hupdated : Accounted (manager.update lease_id fun record => { record with expires_at_unix_ms := expiry }) (deletions ++ []) :=
    h.update hmem (by simp) (by simpa using hsettled)
  simpa using hupdated

theorem release (hmem : (lease_id, record) ∈ manager.leases) (hactive : record.state = .Active) :
    Accounted (manager.update lease_id fun record => { record with state := .Released })
      (deletions ++ [⟨lease_id, record, none, true⟩]) := by
  have hsettled := h.settled _ hmem
  simp only [hactive, Settled] at hsettled
  apply h.update hmem
  · intro deletion hdeletion
    rw [List.mem_singleton.mp hdeletion]
  · simp only [succeeded_append, sweeps_append, hsettled.1, hsettled.2]
    simp [Settled, succeeded, sweeps]

/-- A release whose deletion failed leaves the lease as it was. -/
theorem release_failed (hmem : (lease_id, record) ∈ manager.leases) :
    Accounted manager (deletions ++ [⟨lease_id, record, none, false⟩]) where
  keys := h.keys
  fresh := h.fresh
  logged := by
    intro deletion hdeletion
    rcases List.mem_append.mp hdeletion with hold | hnew
    · exact h.logged deletion hold
    · rw [List.mem_singleton.mp hnew]
      exact ⟨_, hmem, rfl⟩
  settled := by
    intro entry hentry
    simpa [succeeded, sweeps] using h.settled entry hentry

theorem perform (call : Call) (answers : Answers) :
    Accounted (perform manager call answers).1 (deletions ++ (perform manager call answers).2.1) := by
  cases call with
  | create maximum_lifetime_secs now_unix_ms =>
    have hswept := h.sweep answers now_unix_ms
    simp only [broker.perform, create_lease]
    split
    · exact hswept
    · exact hswept.append rfl
  | renew lease_id requested_expiry_unix_ms now_unix_ms =>
    have hswept := h.sweep answers now_unix_ms
    simp only [broker.perform, renew_lease]
    split
    · exact hswept
    · next record hfound =>
      split
      · exact hswept
      · exact hswept.renew (mem_of_lookup hfound) requested_expiry_unix_ms
  | release lease_id =>
    simp only [broker.perform, release_lease]
    split
    · simpa using h
    · next record hfound =>
      split
      · simpa using h
      · next hactive =>
        split
        · exact h.release_failed (mem_of_lookup hfound)
        · exact h.release (mem_of_lookup hfound) (not_not.mp hactive)
  | query lease_id now_unix_ms => exact h.sweep answers now_unix_ms
  | device_identity lease_id now_unix_ms => exact h.sweep answers now_unix_ms
  | sweep now_unix_ms => exact h.sweep answers now_unix_ms

/-- No lease's snapshot is deleted twice. -/
theorem succeeded_le_one (lease_id : Nat) : succeeded lease_id deletions ≤ 1 := by
  by_cases hknown : ∃ entry ∈ manager.leases, entry.1 = lease_id
  · obtain ⟨entry, hentry, rfl⟩ := hknown
    have hsettled := h.settled entry hentry
    cases hstate : entry.2.state <;> simp only [hstate, Settled] at hsettled <;> omega
  · have hnone : succeeded lease_id deletions = 0 := by
      apply List.countP_eq_zero.mpr
      intro deletion hdeletion
      obtain ⟨entry, hentry, hkey⟩ := h.logged deletion hdeletion
      have hne : deletion.lease_id ≠ lease_id := fun heq => hknown ⟨entry, hentry, hkey.trans heq⟩
      simp [hne]
    omega

end

end Accounted

section granted

variable {manager : SnapshotLeaseManager} {history : List (Call × Reply)}

/-- A sweep moves no expiry. -/
theorem Granted.sweep (h : Granted manager history) (answers : Answers) (now_unix_ms : Int64) :
    Granted (manager.sweep_expired answers now_unix_ms).1 history := by
  intro entry hentry
  rw [sweep_expired_leases] at hentry
  obtain ⟨old, hold, rfl⟩ := List.mem_map.mp hentry
  simpa using h old hold

theorem Granted.perform (h : Granted manager history) {deletions : List Deletion} (account : Accounted manager deletions)
    (call : Call) (answers : Answers) :
    Granted (perform manager call answers).1 (history ++ [(call, (perform manager call answers).2.2)]) := by
  intro entry hentry
  rw [granted_append]
  cases call with
  | create maximum_lifetime_secs now_unix_ms =>
    have hswept := h.sweep answers now_unix_ms
    simp only [broker.perform, create_lease] at hentry ⊢
    split at hentry
    · simpa [regrant, *] using hswept entry hentry
    · next handle hcreated =>
      rcases List.mem_append.mp hentry with hold | hnew
      · have hlt : entry.1 < manager.next_lease_id := (account.sweep answers now_unix_ms).fresh entry hold
        simpa [regrant, Nat.ne_of_gt hlt] using hswept entry hold
      · rw [List.mem_singleton.mp hnew]
        simp [regrant]
  | renew lease_id requested_expiry_unix_ms now_unix_ms =>
    have hswept := h.sweep answers now_unix_ms
    simp only [broker.perform, renew_lease] at hentry ⊢
    split at hentry
    · simpa [regrant, *] using hswept entry hentry
    · split at hentry
      · next hinactive =>
        rw [if_pos hinactive]
        exact hswept entry hentry
      · next hactive =>
        rw [if_neg hactive]
        obtain ⟨old, hold, rfl⟩ := List.mem_map.mp hentry
        by_cases hkey : old.1 = lease_id
        · simp [regrant, hkey]
        · simpa [regrant, hkey, Ne.symm hkey] using hswept old hold
  | release lease_id =>
    simp only [broker.perform, release_lease] at hentry ⊢
    simp only [regrant]
    split at hentry
    · exact h entry hentry
    · split at hentry
      · exact h entry hentry
      · split at hentry
        · exact h entry hentry
        · obtain ⟨old, hold, rfl⟩ := List.mem_map.mp hentry
          have hgranted := h old hold
          split <;> exact hgranted
  | query lease_id now_unix_ms => exact h.sweep answers now_unix_ms entry hentry
  | device_identity lease_id now_unix_ms => exact h.sweep answers now_unix_ms entry hentry
  | sweep now_unix_ms => exact h.sweep answers now_unix_ms entry hentry

end granted

/-- In every course the deletions are on account of leases, each as the state of its lease says, and the
expiry granted last is the one that counts. -/
theorem Reached.accounted {course : Course} (reached : Reached course) :
    Accounted course.manager course.deletions ∧ Granted course.manager course.history := by
  induction reached with
  | start =>
    refine ⟨⟨NodupKeys.nil, ?_, ?_, ?_⟩, ?_⟩ <;> intro entry hentry <;> cases hentry
  | step _ call answers ih =>
    exact ⟨ih.1.perform call answers, ih.2.perform ih.1 call answers⟩

section replies

variable {manager : SnapshotLeaseManager} {call : Call} {answers : Answers}

/-- Only active leases are deleted: the one to release, or those that a sweep finds overdue. -/
theorem mem_perform_deletions {deletion : Deletion} (h : deletion ∈ (perform manager call answers).2.1) :
    (deletion.lease_id, deletion.record) ∈ manager.leases ∧ deletion.record.state = .Active ∧
      (call = .release deletion.lease_id ∨
        ∃ now_unix_ms, call.now = some now_unix_ms ∧ deletion.record.expires_at_unix_ms ≤ now_unix_ms) := by
  have hswept : ∀ now_unix_ms, deletion ∈ (manager.sweep_expired answers now_unix_ms).2 → call.now = some now_unix_ms →
      (deletion.lease_id, deletion.record) ∈ manager.leases ∧ deletion.record.state = .Active ∧
        (call = .release deletion.lease_id ∨
          ∃ now_unix_ms, call.now = some now_unix_ms ∧ deletion.record.expires_at_unix_ms ≤ now_unix_ms) := by
    intro now_unix_ms hmem hnow
    obtain ⟨hlease, hactive, hle⟩ := mem_sweep_deletions manager answers now_unix_ms hmem
    exact ⟨hlease, hactive, Or.inr ⟨now_unix_ms, hnow, hle⟩⟩
  cases call with
  | create maximum_lifetime_secs now_unix_ms =>
    apply hswept now_unix_ms _ rfl
    simp only [perform, create_lease] at h
    split at h <;> exact h
  | renew lease_id requested_expiry_unix_ms now_unix_ms =>
    apply hswept now_unix_ms _ rfl
    simp only [perform, renew_lease] at h
    split at h
    · exact h
    · split at h <;> exact h
  | release lease_id =>
    simp only [perform, release_lease] at h
    split at h
    · cases h
    · next record hfound =>
      split at h
      · cases h
      · next hactive =>
        have hasked : deletion.lease_id = lease_id ∧ deletion.record = record := by
          split at h <;> rw [List.mem_singleton.mp h] <;> exact ⟨rfl, rfl⟩
        rw [hasked.1, hasked.2]
        exact ⟨mem_of_lookup hfound, not_not.mp hactive, Or.inl rfl⟩
  | query lease_id now_unix_ms => exact hswept now_unix_ms h rfl
  | device_identity lease_id now_unix_ms => exact hswept now_unix_ms h rfl
  | sweep now_unix_ms => exact hswept now_unix_ms h rfl

/-- What a swept lease table shows as active was not due. -/
theorem active_not_due {now_unix_ms : Int64} {lease_id : Nat} {record : LeaseRecord}
    (hfound : (manager.sweep_expired answers now_unix_ms).1.leases.lookup lease_id = some record)
    (hactive : record.state = .Active) :
    ∃ before, (lease_id, before) ∈ manager.leases ∧ now_unix_ms < before.expires_at_unix_ms := by
  have hmem := mem_of_lookup hfound
  rw [sweep_expired_leases] at hmem
  obtain ⟨old, hold, heq⟩ := List.mem_map.mp hmem
  have hkey : old.1 = lease_id := by
    rw [← sweep_entry_fst now_unix_ms old, heq]
  refine ⟨old.2, hkey ▸ hold, ?_⟩
  apply sweep_entry_active
  rw [heq]
  exact hactive

/-- A state that a reply tells was found in the swept table, and is the one the table holds after the call. -/
theorem reported_found {lease_id : Nat} {state : SnapshotLeaseState}
    (h : reported (call, (perform manager call answers).2.2) = some (lease_id, state)) :
    ∃ now_unix_ms record after, call.now = some now_unix_ms ∧
      (manager.sweep_expired answers now_unix_ms).1.leases.lookup lease_id = some record ∧ record.state.to_wire = state ∧
      (lease_id, after) ∈ (perform manager call answers).1.leases ∧ after.state = record.state := by
  cases call with
  | create maximum_lifetime_secs now_unix_ms => cases h
  | renew renewed requested_expiry_unix_ms now_unix_ms =>
    simp only [perform, renew_lease] at h ⊢
    split at h
    · cases h
    · next record hfound =>
      split at h
      · cases h
      · next hactive =>
        obtain ⟨rfl, rfl⟩ := h
        rw [if_neg hactive]
        refine ⟨now_unix_ms, record, { record with expires_at_unix_ms := requested_expiry_unix_ms }, rfl, hfound, ?_, ?_, rfl⟩
        · rw [not_not.mp hactive]
          rfl
        · exact List.mem_map.mpr ⟨_, mem_of_lookup hfound, if_pos rfl⟩
  | release lease_id => cases h
  | query queried now_unix_ms =>
    simp only [perform, query_lease] at h ⊢
    cases hfound : (manager.sweep_expired answers now_unix_ms).1.leases.lookup queried with
    | none => simp [hfound, reported] at h
    | some record =>
      simp only [hfound, Option.map_some, reported, Option.some.injEq, Prod.mk.injEq] at h
      obtain ⟨rfl, rfl⟩ := h
      exact ⟨now_unix_ms, record, record, rfl, hfound, rfl, mem_of_lookup hfound, rfl⟩
  | device_identity queried now_unix_ms =>
    simp only [perform, device_identity_if_active] at h ⊢
    cases hfound : (manager.sweep_expired answers now_unix_ms).1.leases.lookup queried with
    | none => simp [hfound, reported] at h
    | some record =>
      by_cases hactive : record.state = .Active
      · simp only [hfound, Option.bind_some, hactive, if_true, reported, Option.some.injEq, Prod.mk.injEq] at h
        obtain ⟨rfl, rfl⟩ := h
        exact ⟨now_unix_ms, record, record, rfl, hfound, by rw [hactive]; rfl, mem_of_lookup hfound, rfl⟩
      · simp [hfound, hactive, reported] at h
  | sweep now_unix_ms => cases h

theorem reported_active {lease_id : Nat}
    (h : reported (call, (perform manager call answers).2.2) = some (lease_id, .Active)) :
    ∃ now_unix_ms record, call.now = some now_unix_ms ∧ (lease_id, record) ∈ manager.leases ∧
      now_unix_ms < record.expires_at_unix_ms := by
  obtain ⟨now_unix_ms, record, -, hnow, hfound, hstate, -⟩ := reported_found h
  have hactive : record.state = .Active := by
    cases hrecord : record.state with
    | Active => rfl
    | Released => rw [hrecord] at hstate; cases hstate
    | Expired => rw [hrecord] at hstate; cases hstate
  obtain ⟨before, hbefore, hlt⟩ := active_not_due hfound hactive
  exact ⟨now_unix_ms, before, hnow, hbefore, hlt⟩

end replies

/-- Whatever was called before, and whatever the backend answers. A sweep deletes as well as it can; a renewal grants
anew. -/
theorem leases_in_step {course : Course} (reached : Reached course) (call : Call) (answers : Answers) :
    let after := course.step call answers
    let reply := (perform course.manager call answers).2.2
    (∀ lease_id, succeeded lease_id after.deletions ≤ 1) ∧
      (∀ deletion ∈ (perform course.manager call answers).2.1,
        (deletion.lease_id, deletion.record) ∈ course.manager.leases ∧ deletion.record.state = .Active ∧
          (call = .release deletion.lease_id ∨ ∃ now_unix_ms expiry, call.now = some now_unix_ms ∧
            granted course.history deletion.lease_id = some expiry ∧ expiry ≤ now_unix_ms)) ∧
      (∀ lease_id, reported (call, reply) = some (lease_id, .Released) →
        succeeded lease_id after.deletions = 1 ∧ sweeps lease_id after.deletions = 0) ∧
      (∀ lease_id, reported (call, reply) = some (lease_id, .Expired) →
        sweeps lease_id after.deletions = 1) ∧
      ∀ lease_id, reported (call, reply) = some (lease_id, .Active) →
        succeeded lease_id after.deletions = 0 ∧ ∃ now_unix_ms expiry, call.now = some now_unix_ms ∧
          granted course.history lease_id = some expiry ∧ now_unix_ms < expiry := by
  obtain ⟨account, hgranted⟩ := reached.accounted
  have hafter := account.perform call answers
  have hstated : ∀ lease_id state, reported (call, (perform course.manager call answers).2.2) = some (lease_id, state) →
      ∃ held : RecordState, held.to_wire = state ∧ Settled held (succeeded lease_id (course.step call answers).deletions)
        (sweeps lease_id (course.step call answers).deletions) := by
    intro lease_id state hreported
    obtain ⟨-, record, after, -, -, hstate, hmem, hsame⟩ := reported_found hreported
    exact ⟨record.state, hstate, hsame ▸ hafter.settled _ hmem⟩
  refine ⟨hafter.succeeded_le_one, ?_, ?_, ?_, ?_⟩
  · intro deletion hdeletion
    obtain ⟨hlease, hactive, hreason⟩ := mem_perform_deletions hdeletion
    refine ⟨hlease, hactive, ?_⟩
    rcases hreason with hrelease | ⟨now_unix_ms, hnow, hle⟩
    · exact Or.inl hrelease
    · exact Or.inr ⟨now_unix_ms, _, hnow, hgranted _ hlease, hle⟩
  · intro lease_id hreported
    obtain ⟨held, hheld, hsettled⟩ := hstated lease_id _ hreported
    cases held with
    | Released => exact hsettled
    | Active => cases hheld
    | Expired => cases hheld
  · intro lease_id hreported
    obtain ⟨held, hheld, hsettled⟩ := hstated lease_id _ hreported
    cases held with
    | Expired => exact hsettled.2
    | Active => cases hheld
    | Released => cases hheld
  · intro lease_id hreported
    obtain ⟨held, hheld, hsettled⟩ := hstated lease_id _ hreported
    obtain ⟨now_unix_ms, record, hnow, hlease, hlt⟩ := reported_active hreported
    cases held with
    | Active => exact ⟨hsettled.1, now_unix_ms, _, hnow, hgranted _ hlease, hlt⟩
    | Expired => cases hheld
    | Released => cases hheld

/-- A backend that makes snapshots, and fails to delete any. -/
def undeletable : Answers := ⟨.ok ⟨[1], []⟩, fun _ => .error (.DeleteFailed [])⟩

def obliging : Answers := ⟨.ok ⟨[1], []⟩, fun _ => .ok ()⟩

/-- A lease that is over is swept once, by the first call that asks for it. -/
theorem leases_in_step_query :
    sweeps 1 ((Course.start.step (.create 1 0) obliging).step (.query 1 1000) obliging).deletions = 1 :=
  (leases_in_step (Reached.start.step (.create 1 0) obliging) (.query 1 1000) obliging).2.2.2.1 1 (by decide)

/-- A lease of one second, asked for when it is over. -/
def swept_in_vain : Course := (Course.start.step (.create 1 0) undeletable).step (.query 1 1000) undeletable

/-- A lease of a minute, renewed, and asked for when the minute is over. -/
def outlived : Course :=
  ((Course.start.step (.create 60 0) obliging).step (.renew 1 999999 30000) obliging).step (.query 1 61000) obliging

/-- A lease of a minute, released at once. -/
def released_early : Course := (Course.start.step (.create 60 0) obliging).step (.release 1) obliging

/-- The first lease is reported expired with no snapshot deleted, the second active beyond its lifetime, and the snapshot
of the third is deleted while it is active and not yet due. -/
theorem expired_undeleted_and_outlived :
    (Reached swept_in_vain ∧ swept_in_vain.history.map reported = [none, some (1, .Expired)] ∧
      succeeded 1 swept_in_vain.deletions = 0) ∧
    (Reached outlived ∧ outlived.history.map reported = [none, some (1, .Active), some (1, .Active)] ∧
      saturating_add_i64 0 (secs_to_ms_saturating 60) < 61000) ∧
    Reached released_early ∧
      released_early.deletions = [⟨1, ⟨[1], [], 0, 60000, .Active⟩, none, true⟩] := by
  refine ⟨⟨?_, by decide, by decide⟩, ⟨?_, by decide, by decide⟩, ?_, by decide⟩
  · exact (Reached.start.step _ _).step _ _
  · exact ((Reached.start.step _ _).step _ _).step _ _
  · exact (Reached.start.step _ _).step _ _

end uffs.broker
