import Uffs.Daemon.State

open uffs.compact

namespace uffs.daemon

/-- The MFT index cached on disk, as the body built from it, with the journal position in its header. -/
structure IndexCache where
  body : Body
  usn_journal_id : Nat
  next_usn : Nat

/-- What survives a restart. -/
structure Disk where
  cache : Option Body := none
  cursor : Cursor := {}
  index_cache : Option IndexCache := none

/-- What the system answers while a drive is read. -/
structure Answers where
  /-- The index of a full read, and the cached one with the changes of the journal applied. -/
  full : DriveCompactIndex
  updated : DriveCompactIndex
  read_only : Bool := false
  /-- The cached index is within its time to live, or young enough to be served without a journal. -/
  fresh : Bool := true
  young : Bool := true
  /-- The journal can be queried, and its records can be read. -/
  journal : Bool := true
  records : Bool := true
  /-- The changes whose targeted reads fail. -/
  missed : List Nat := []
  /-- The new cached index is written, and the compact cache beside it is removed. -/
  saved : Bool := true
  removed : Bool := true

inductive UsnDecision where
  | UseCached
  | Rebuild
  | Apply (start_usn : Nat)

/-- A header written without a journal has the identifier 0. -/
def classify_usn_state (header : IndexCache) (volume : Volume) : UsnDecision :=
  if header.usn_journal_id ≠ 0 ∧ volume.journal_id ≠ header.usn_journal_id then .Rebuild
  else if header.next_usn < volume.first_usn then .Rebuild
  else if volume.next_usn ≤ header.next_usn then .UseCached
  else .Apply header.next_usn

/-- The cached index is up to date with the journal as it is. -/
def Body.confirmed (self : Body) (volume : Volume) (wraps : Nat) : Body :=
  { self with journal_id := volume.journal_id, wraps }

/-- The cached index after the deletes and the targeted reads for the changes from `start_usn`. -/
def Body.updated (self : Body) (volume : Volume) (wraps : Nat) (answers : Answers) (start_usn : Nat) : Body where
  index := answers.updated
  read_index := answers.updated
  read_marks := self.marks ++
    ((unread volume start_usn).filter fun usn => !answers.missed.contains usn).map (Mark.mk volume.journal_id)
  journal_id := volume.journal_id
  wraps := if answers.missed.isEmpty then wraps else self.wraps

/-- Write the cached index, and remove the compact cache. -/
def save_to_cache (disk : Disk) (answers : Answers) (index_cache : IndexCache) : Disk :=
  { disk with
    index_cache := if answers.saved then some index_cache else disk.index_cache
    cache := if answers.removed then none else disk.cache }

section

variable (volume : Volume) (wraps : Nat) (disk : Disk) (answers : Answers)

def read_and_cache_index : Body × Disk :=
  let body := Body.read volume wraps answers.full
  let (usn_journal_id, next_usn) := if answers.journal then (volume.journal_id, volume.next_usn) else (0, 0)
  (body, save_to_cache disk answers { body, usn_journal_id, next_usn })

/-- Without the records, or without any, the cached index is served as it is. The new checkpoint is
written whether the targeted reads succeed or not. -/
def apply_or_skip_usn_changes (cached : IndexCache) (start_usn : Nat) : Body × Disk :=
  if !answers.records then (cached.body, disk)
  else if (unread volume start_usn).isEmpty then (cached.body.confirmed volume wraps, disk)
  else
    let body := cached.body.updated volume wraps answers start_usn
    (body, save_to_cache disk answers { body, usn_journal_id := volume.journal_id, next_usn := volume.next_usn })

/-- The index of a drive: the cached one, brought up to the journal where it can be, or a full read. -/
def read_index_cached : Body × Disk :=
  match disk.index_cache with
  | none => read_and_cache_index volume wraps disk answers
  | some cached =>
    if answers.read_only then (cached.body, disk)
    else if !answers.fresh then read_and_cache_index volume wraps disk answers
    else if answers.journal then
      match classify_usn_state cached volume with
      | .UseCached => (cached.body.confirmed volume wraps, disk)
      | .Rebuild => read_and_cache_index volume wraps disk answers
      | .Apply start_usn => apply_or_skip_usn_changes volume wraps disk answers cached start_usn
    else if answers.young then (cached.body, disk)
    else read_and_cache_index volume wraps disk answers

end

/-- The cached index has every change below the position in its header. -/
def IndexCache.Right (volume : Volume) (self : IndexCache) : Prop :=
  ∀ usn ∈ volume.usns, usn < self.next_usn → ⟨volume.journal_id, usn⟩ ∈ self.body.marks

/-- The read gets every change: it is a full one, or it brings a right cached index up to the journal. -/
def Answers.Complete (volume : Volume) (disk : Disk) (self : Answers) : Prop :=
  ∀ cached, disk.index_cache = some cached → self.read_only = false ∧ (self.fresh = true →
    (self.journal = false → self.young = false) ∧
      (self.journal = true → classify_usn_state cached volume ≠ .Rebuild →
        self.records = true ∧ self.missed = [] ∧ cached.Right volume))

section Cases

variable {volume : Volume} {wraps : Nat} {disk : Disk} {answers : Answers}

theorem Body.marks_updated (body : Body) (start_usn : Nat) : (body.updated volume wraps answers start_usn).marks =
    body.marks ++ ((unread volume start_usn).filter fun usn => !answers.missed.contains usn).map (Mark.mk volume.journal_id) :=
  List.append_nil _

/-- A read is a full one, or it serves the cached index as it is, as confirmed by the journal, or updated;
a cached index that it writes is that of the body it gives. -/
theorem read_index_cached_cases {P : Body → Prop} (hfull : P (Body.read volume wraps answers.full))
    (hcached : ∀ cached, disk.index_cache = some cached → P cached.body ∧ P (cached.body.confirmed volume wraps) ∧
      ∀ start_usn, P (cached.body.updated volume wraps answers start_usn)) :
    P (read_index_cached volume wraps disk answers).1 ∧
      (∀ cached, (read_index_cached volume wraps disk answers).2.index_cache = some cached → P cached.body) ∧
      (read_index_cached volume wraps disk answers).2.cursor = disk.cursor ∧
      ∀ cache, (read_index_cached volume wraps disk answers).2.cache = some cache → disk.cache = some cache := by
  have hdisk : ∀ cached, disk.index_cache = some cached → P cached.body := fun cached h => (hcached cached h).1
  have hsave : ∀ index_cache : IndexCache, P index_cache.body →
      (∀ cached, (save_to_cache disk answers index_cache).index_cache = some cached → P cached.body) ∧
        (save_to_cache disk answers index_cache).cursor = disk.cursor ∧
        ∀ cache, (save_to_cache disk answers index_cache).cache = some cache → disk.cache = some cache := by
    intro index_cache hbody
    refine ⟨?_, rfl, ?_⟩
    · intro cached
      unfold save_to_cache
      cases answers.saved
      · exact hdisk cached
      · rintro ⟨⟩
        exact hbody
    · intro cache
      unfold save_to_cache
      cases answers.removed
      · exact id
      · rintro ⟨⟩
  have hread := And.intro hfull (hsave ⟨_, (if answers.journal then (volume.journal_id, volume.next_usn) else (0, 0)).1,
    (if answers.journal then (volume.journal_id, volume.next_usn) else (0, 0)).2⟩ hfull)
  unfold read_index_cached
  cases hindex : disk.index_cache with
  | none => exact hread
  | some cached =>
    obtain ⟨hbody, hconfirmed, hupdated⟩ := hcached cached hindex
    have hserved : ∀ body, P body → P body ∧ (∀ cached, disk.index_cache = some cached → P cached.body) ∧
        disk.cursor = disk.cursor ∧ ∀ cache, disk.cache = some cache → disk.cache = some cache :=
      fun body h => ⟨h, hdisk, rfl, fun _ => id⟩
    dsimp only
    split_ifs
    · exact hserved _ hbody
    · exact hread
    · cases classify_usn_state cached volume with
      | UseCached => exact hserved _ hconfirmed
      | Rebuild => exact hread
      | Apply start_usn =>
        dsimp only
        unfold apply_or_skip_usn_changes
        split_ifs
        · exact hserved _ hbody
        · exact hserved _ hconfirmed
        · exact ⟨hupdated start_usn, hsave _ (hupdated start_usn)⟩
    · exact hserved _ hbody
    · exact hread

theorem read_index_cached_cursor (volume : Volume) (wraps : Nat) (disk : Disk) (answers : Answers) :
    (read_index_cached volume wraps disk answers).2.cursor = disk.cursor :=
  (@read_index_cached_cases _ _ _ _ (fun _ => True) trivial fun _ _ => ⟨trivial, trivial, fun _ => trivial⟩).2.2.1

/-- A right cached index is brought up to the journal when all its records can be read. -/
theorem IndexCache.Right.updated {cached : IndexCache} (h : cached.Right volume) {start_usn : Nat} (hstart : cached.next_usn = start_usn)
    (hrecords : answers.records = true) (hmissed : answers.missed = []) :
    (∀ usn ∈ volume.usns, ⟨volume.journal_id, usn⟩ ∈
        (apply_or_skip_usn_changes volume wraps disk answers cached start_usn).1.marks) ∧
      (apply_or_skip_usn_changes volume wraps disk answers cached start_usn).1.journal_id = volume.journal_id ∧
      (apply_or_skip_usn_changes volume wraps disk answers cached start_usn).1.wraps = wraps := by
  have hold : ∀ usn ∈ volume.usns, usn ∉ unread volume start_usn → ⟨volume.journal_id, usn⟩ ∈ cached.body.marks := by
    intro usn husn hread
    refine h usn husn ?_
    rw [hstart]
    simpa [unread, husn] using hread
  unfold apply_or_skip_usn_changes
  rw [hrecords, if_neg (by decide)]
  split
  · rename_i hempty
    refine ⟨fun usn husn => hold usn husn ?_, rfl, rfl⟩
    rw [List.isEmpty_iff.mp hempty]
    exact List.not_mem_nil
  · refine ⟨fun usn husn => List.mem_append_left _ ?_, rfl, if_pos (by rw [hmissed]; rfl)⟩
    by_cases hread : usn ∈ unread volume start_usn
    · refine List.mem_append_right _ (List.mem_map_of_mem (List.mem_filter.mpr ⟨hread, ?_⟩))
      rw [hmissed]
      rfl
    · exact List.mem_append_left _ (hold usn husn hread)

/-- A complete read has every change of the volume, and is up to its journal. -/
theorem Answers.Complete.read (h : answers.Complete volume disk) :
    (∀ usn ∈ volume.usns, ⟨volume.journal_id, usn⟩ ∈ (read_index_cached volume wraps disk answers).1.marks) ∧
      (read_index_cached volume wraps disk answers).1.journal_id = volume.journal_id ∧
      (read_index_cached volume wraps disk answers).1.wraps = wraps := by
  have hfull : (∀ usn ∈ volume.usns, ⟨volume.journal_id, usn⟩ ∈ (Body.read volume wraps answers.full).marks) ∧
      (Body.read volume wraps answers.full).journal_id = volume.journal_id ∧
      (Body.read volume wraps answers.full).wraps = wraps :=
    ⟨fun usn husn => List.mem_append_left _ (List.mem_map_of_mem husn), rfl, rfl⟩
  unfold read_index_cached
  cases hindex : disk.index_cache with
  | none => exact hfull
  | some cached =>
    obtain ⟨hwritable, hfresh⟩ := h cached hindex
    dsimp only
    rw [hwritable]
    cases hage : answers.fresh with
    | false => exact hfull
    | true =>
      obtain ⟨hold, hnew⟩ := hfresh hage
      cases hjournal : answers.journal with
      | false =>
        rw [hold hjournal]
        exact hfull
      | true =>
        cases hclass : classify_usn_state cached volume with
        | Rebuild => exact hfull
        | UseCached =>
          obtain ⟨-, -, hcached⟩ := hnew hjournal (by rw [hclass]; exact nofun)
          have hle : volume.next_usn ≤ cached.next_usn := by
            unfold classify_usn_state at hclass
            split_ifs at hclass with _ _ hle
            exact hle
          exact ⟨fun usn husn => hcached usn husn ((volume.below usn husn).trans_le hle), rfl, rfl⟩
        | Apply start_usn =>
          obtain ⟨hrecords, hmissed, hcached⟩ := hnew hjournal (by rw [hclass]; exact nofun)
          have hstart : cached.next_usn = start_usn := by
            unfold classify_usn_state at hclass
            split_ifs at hclass
            exact UsnDecision.Apply.inj hclass
          exact hcached.updated hstart hrecords hmissed

end Cases

end uffs.daemon
