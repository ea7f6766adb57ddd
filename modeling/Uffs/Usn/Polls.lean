import Uffs.Usn.Order
import Uffs.Usn.View

open uffs.mft uffs.bloom uffs.compact

namespace uffs.usn

/-- The record number has a slot. -/
def mapped (drive : DriveCompactIndex) (frs : UInt64) : Bool := slot_of drive frs != NO_ENTRY

theorem look_isSome (drive : DriveCompactIndex) (frs : UInt64) : (look drive frs).isSome = mapped drive frs := by
  rw [look, mapped]
  split_ifs with h <;> simp [h]

/-- What the parent of a change resolves to, when nothing but its own create can matter: the
record numbers mapped before, and the net changes of the batch. -/
def found (before : UInt64 → Bool) (net : UInt64 → Option FileChange) (change : FileChange) : Option UInt64 :=
  if change.parent_frs = change.frs then if before change.parent_frs then some change.parent_frs else none
  else
    match net change.parent_frs with
    | none => if before change.parent_frs then some change.parent_frs else none
    | some parent => if mapped_after parent (before change.parent_frs) then some change.parent_frs else none

/-- The parent of the change is not deleted in the batch, or has no slot anyway: otherwise the
iteration order of the map decides. -/
def Undisputed (before : UInt64 → Bool) (net : UInt64 → Option FileChange) (change : FileChange) : Prop :=
  change.parent_frs ≠ change.frs → ∀ parent, net change.parent_frs = some parent → parent.deleted = true →
    before change.parent_frs = false

variable {path_changes : List PathChange} {tombstones : List UInt32} {frs : UInt64} {records : List UsnRecord}
  {start result : DriveCompactIndex}

/-- A row shows the same after the tables are rebuilt. -/
theorem seen_of_rebuilt (h : Rebuilt start result path_changes tombstones) {row row' : CompactRecord}
    (hcore : row'.core = row.core) : seen result row' = seen start row := by
  rw [seen, seen, parent_frs_of, parent_frs_of, h.names, parent_idx_of_core hcore, CompactRecord.name_bytes,
    CompactRecord.name_bytes, name_range_of_core hcore]
  split_ifs
  · rfl
  · congr 1
    cases hparent : start.records[row.parent_idx.toNat]? with
    | none =>
      have hlen := h.core.length_eq
      rw [List.getElem?_eq_none (by rw [hlen]; exact List.getElem?_eq_none_iff.mp hparent)]
    | some parent =>
      obtain ⟨parent', hget'', hcore'⟩ := SameCore.exists_core h.core.symm hparent
      rw [hget'', Option.map_some, Option.map_some, CompactRecord.frs, CompactRecord.frs, file_ref_of_core hcore']

theorem look_of_rebuilt (h : Rebuilt start result path_changes tombstones) (f : UInt64) : look result f = look start f := by
  have hslot := slot_of_of_map h.map f
  have hrow : ∀ i : Nat, result.records[i]?.bind (fun row => if row.name_len = 0 then none else some (seen result row)) =
      start.records[i]?.bind fun row => if row.name_len = 0 then none else some (seen start row) := by
    intro i
    cases hget : start.records[i]? with
    | none =>
      have hlen := h.core.length_eq
      rw [List.getElem?_eq_none (by rw [hlen]; exact List.getElem?_eq_none_iff.mp hget)]
      rfl
    | some row =>
      obtain ⟨row', hget', hcore⟩ := SameCore.exists_core h.core.symm hget
      rw [hget', Option.bind_some, Option.bind_some, name_len_of_core hcore, seen_of_rebuilt h hcore]
  rw [look, look, hslot, hrow]

theorem Sighted.of_rebuilt {touched : UInt64 → Prop} (hsighted : Sighted touched start)
    (h : Rebuilt start result path_changes tombstones) :
    Sighted touched result where
  linked := h.map ▸ hsighted.linked.of_core h.core
  distinct := by
    intro f g
    rw [slot_of_of_map h.map, slot_of_of_map h.map]
    exact hsighted.distinct f g
  fits := by
    rw [h.names]
    exact fits_of_core h.core hsighted.fits
  owned := by
    intro f htouched
    rw [slot_of_of_map h.map]
    intro hf
    obtain ⟨row, hget, hfrs⟩ := hsighted.owned f htouched hf
    obtain ⟨row', hget', hcore⟩ := SameCore.exists_core h.core.symm hget
    exact ⟨row', hget', by rw [CompactRecord.frs, file_ref_of_core hcore]; exact hfrs⟩

variable {change : FileChange}

section Batch

/-- The batch is applied and the rebuild done, whatever path lengths it writes. -/
abbrev Applied (env : Env) (drive : DriveCompactIndex) (batch : List FileChange) (result : DriveCompactIndex) : Prop :=
  Rebuilt (mutated env drive batch).drive result (mutated env drive batch).path_changes (mutated env drive batch).tombstones

variable {touched : UInt64 → Prop} {env : Env} {drive result : DriveCompactIndex} {batch : List FileChange}

/-- What a batch may contain for the view to be determined. -/
structure Readable (touched : UInt64 → Prop) (env : Env) (drive : DriveCompactIndex) (batch : List FileChange)
    (result : DriveCompactIndex) : Prop where
  applied : Applied env drive batch result
  sighted : Sighted touched drive
  concerns : Concerns touched batch
  nodup : (batch.map FileChange.frs).Nodup
  acyclic : Acyclic batch
  room : Fits result

theorem Readable.ordered (h : Readable touched env drive batch result) :
    Concerns touched (order_parent_first batch) ∧ ((order_parent_first batch).map FileChange.frs).Nodup ∧
      Fits ((order_parent_first batch).foldl (apply_change env) { drive := drive }).drive := by
  have hperm := order_parent_first_perm batch
  have hrebuilt := h.applied
  have hroom := h.room
  refine ⟨fun change hchange => h.concerns change (hperm.mem_iff.mp hchange), (hperm.map _).nodup_iff.mpr h.nodup, ?_, ?_⟩
  · have := hroom.records
    rwa [hrebuilt.length_eq] at this
  · have := hroom.names
    rwa [hrebuilt.names] at this

theorem Readable.sighted_after (h : Readable touched env drive batch result) : Sighted touched result := by
  obtain ⟨hconcerns, -, hfits⟩ := h.ordered
  exact (h.sighted.foldl hconcerns hfits).of_rebuilt h.applied

/-- Where the parent of a change is undisputed, it resolves the same in every iteration order. -/
theorem Readable.resolved_eq (h : Readable touched env drive batch result) {first rest : List FileChange}
    (hsplit : order_parent_first batch = first ++ change :: rest) (hwrites : change.created = true ∨ change.renamed = true)
    (hparent : Undisputed (mapped drive) (change_of batch) change) :
    resolved (first.foldl (apply_change env) { drive := drive }).drive change.parent_frs =
      found (mapped drive) (change_of batch) change := by
  obtain ⟨hconcerns, hnodup, hfits⟩ := h.ordered
  have hperm := order_parent_first_perm batch
  have hlookup := fun frs => change_of_perm hperm h.nodup frs
  have hfirsts := order_parent_first_parents h.acyclic first change rest hsplit
  rw [hsplit] at hconcerns hnodup hfits hlookup
  have hfirst : Concerns touched first := fun ch hch => hconcerns ch (List.mem_append_left _ hch)
  have hnodupFirst : (first.map FileChange.frs).Nodup := by
    rw [List.map_append] at hnodup
    exact (List.nodup_append.mp hnodup).1
  rw [List.foldl_append] at hfits
  rw [resolved_eq_of_mapped, foldl_mapped h.sighted hfirst hfits.before hnodupFirst, look_isSome, found]
  have hnotFirst : change_of first change.frs = none := by
    rw [List.map_append, List.map_cons, List.nodup_append] at hnodup
    cases hfind : change_of first change.frs with
    | none => rfl
    | some other =>
      obtain ⟨hmem, hfrs⟩ := (change_of_eq_some hnodupFirst).mp hfind
      exact absurd hfrs (hnodup.2.2 _ (List.mem_map_of_mem hmem) _ List.mem_cons_self)
  by_cases hself : change.parent_frs = change.frs
  · rw [if_pos hself, hself, hnotFirst]
  · rw [if_neg hself, ← hlookup]
    cases hfind : change_of first change.parent_frs with
    | some parent =>
      have : change_of (first ++ change :: rest) change.parent_frs = some parent := by
        rw [change_of, List.find?_append]
        exact Option.or_of_isSome (by rw [← change_of, hfind]; rfl) |>.trans (by rw [← change_of, hfind])
      rw [this]
    | none =>
      cases hlater : change_of (first ++ change :: rest) change.parent_frs with
      | none => rfl
      | some parent =>
        -- the parent's own change comes later, so it is no create
        have hsame : mapped_after parent (mapped drive change.parent_frs) = mapped drive change.parent_frs := by
          rw [mapped_after]
          split_ifs with hdeleted hcreated
          · rw [hlookup] at hlater
            exact (hparent hself parent hlater hdeleted).symm
          · exfalso
            simp only [Bool.and_eq_true] at hcreated
            obtain ⟨hmem, hfrs⟩ := (change_of_eq_some hnodup).mp hlater
            have hcreates : change.parent_frs ∈ batch_creates batch :=
              mem_batch_creates.mpr ⟨parent, hperm.mem_iff.mp (hsplit ▸ hmem), hcreated.1, hfrs⟩
            obtain ⟨other, hother, -, hotherFrs⟩ := hfirsts ⟨hwrites, hself, hcreates⟩
            have := (change_of_eq_some hnodupFirst).mpr ⟨hother, hotherFrs⟩
            rw [hfind] at this
            cases this
          · rfl
        dsimp only
        rw [hsame]

/-- The change of a file in a batch settles it. -/
theorem Readable.look_eq (h : Readable touched env drive batch result) {f : UInt64}
    (hparent : ∀ change, change_of batch f = some change → Writes drive change → Undisputed (mapped drive) (change_of batch) change) :
    look result f =
      match change_of batch f with
      | none => look drive f
      | some change => settle change (found (mapped drive) (change_of batch) change) (look drive f) := by
  obtain ⟨hconcerns, hnodup, hfits⟩ := h.ordered
  have hperm := order_parent_first_perm batch
  rw [look_of_rebuilt h.applied, mutated, run_changes]
  cases hfind : change_of batch f with
  | none =>
    have hnot : f ∉ (order_parent_first batch).map FileChange.frs := by
      intro hmem
      obtain ⟨change, hchange, rfl⟩ := List.mem_map.mp hmem
      simpa using List.find?_eq_none.mp hfind change (hperm.mem_iff.mp hchange)
    exact foldl_look_other h.sighted hconcerns hfits hnot
  | some change =>
    obtain ⟨hmem, rfl⟩ := (change_of_eq_some h.nodup).mp hfind
    obtain ⟨first, rest, hsplit⟩ := List.append_of_mem (hperm.mem_iff.mpr hmem)
    have hlook := hsplit ▸ @foldl_look_self touched { drive := drive } change env first rest h.sighted (hsplit ▸ hconcerns)
      (hsplit ▸ hfits) (hsplit ▸ hnodup)
    rw [hlook]
    dsimp only
    by_cases hwrites : Writes drive change
    · have hkind : change.created = true ∨ change.renamed = true := hwrites.2.2.imp id And.left
      rw [h.resolved_eq hsplit hkind (hparent change hfind hwrites)]
    · by_cases hdeleted : change.deleted = true
      · rw [settle, settle, if_pos hdeleted, if_pos hdeleted]
      · have hkind : change.deleted = false := by simpa using hdeleted
        rw [settle_of_not_writes hkind hwrites, settle_of_not_writes hkind hwrites]

/-- The record numbers mapped after a batch. -/
def mapped_by (before : UInt64 → Bool) (net : UInt64 → Option FileChange) (f : UInt64) : Bool :=
  match net f with
  | none => before f
  | some change => mapped_after change (before f)

theorem Readable.mapped_eq (h : Readable touched env drive batch result) (f : UInt64) :
    mapped result f = mapped_by (mapped drive) (change_of batch) f := by
  obtain ⟨hconcerns, hnodup, hfits⟩ := h.ordered
  have hmapped := @foldl_mapped touched { drive := drive } _ env h.sighted hconcerns hfits hnodup f
  rw [← look_isSome, look_of_rebuilt h.applied, mutated, run_changes, hmapped,
    change_of_perm (order_parent_first_perm batch) h.nodup]
  unfold mapped_by
  cases change_of batch f with
  | none => exact look_isSome drive f
  | some change => exact congrArg (mapped_after change) (look_isSome drive f)

end Batch

/-- The event creates or deletes: it settles the flags whatever came before. -/
def UsnRecord.resets (self : UsnRecord) : Bool := self.change_type == .Created || self.change_type == .Deleted

/-- The stretch of the journal has a create or a delete of the file. -/
def resets (records : List UsnRecord) (frs : UInt64) : Bool := records.any fun record => frs = record.frs && record.resets

/-- The net change of a file over two stretches, from those of each. -/
def net_over (before : FileChange) (after : FileChange) (resets : Bool) : FileChange :=
  { after with
    filename := if after.filename.isEmpty then before.filename else after.filename
    created := if resets then after.created else before.created
    deleted := if resets then after.deleted else before.deleted && !after.renamed
    renamed := if resets then after.renamed else before.renamed || after.renamed
    size_changed := before.size_changed || after.size_changed
    metadata_changed := before.metadata_changed || after.metadata_changed }

theorem note_record_over (before after : FileChange) (resets : Bool) (record : UsnRecord) :
    note_record (net_over before after resets) record = net_over before (note_record after record) (resets || record.resets) := by
  rw [note_record, note_record, UsnRecord.resets]
  by_cases hempty : record.filename = [] <;> cases record.change_type <;> cases resets <;> simp [note_event, net_over, hempty]

theorem note_record_first (hfrs : change.frs = frs) (hmd : change.md = none) (record : UsnRecord) :
    note_record change record = net_over change (note_record (empty_change frs) record) record.resets := by
  rw [note_record, note_record, UsnRecord.resets, empty_change]
  by_cases hempty : record.filename = [] <;> cases record.change_type <;> simp [note_event, net_over, hfrs, hmd, hempty]

theorem net_change_append_singleton (records : List UsnRecord) (record : UsnRecord) (frs : UInt64) :
    net_change (records ++ [record]) frs =
      if frs = record.frs then some (note_record ((net_change records frs).getD (empty_change frs)) record)
      else net_change records frs :=
  List.foldl_append

/-- A net change carries its own record number and no backfilled metadata. -/
theorem net_change_frs (h : net_change records frs = some change) :
    change.frs = frs ∧ change.md = none := by
  induction records using List.reverseRecOn generalizing change with
  | nil => simp [net_change] at h
  | append_singleton records record ih =>
    rw [net_change_append_singleton] at h
    split_ifs at h with hrecord
    · rw [Option.some.injEq] at h
      subst h
      rw [note_record_frs, note_record_md]
      cases hprev : net_change records frs with
      | none => exact ⟨rfl, rfl⟩
      | some prev => exact ih hprev
    · exact ih h

theorem resets_eq_false (h : net_change records frs = none) : resets records frs = false := by
  induction records using List.reverseRecOn with
  | nil => rfl
  | append_singleton records record ih =>
    rw [net_change_append_singleton] at h
    split_ifs at h with hrecord
    rw [resets, List.any_append, ← resets, ih h]
    simp [hrecord]

/-- The net change over a journal that is cut in two. -/
theorem net_change_append (first second : List UsnRecord) (frs : UInt64) :
    net_change (first ++ second) frs =
      match net_change first frs, net_change second frs with
      | before, none => before
      | none, after => after
      | some before, some after => some (net_over before after (resets second frs)) := by
  induction second using List.reverseRecOn with
  | nil =>
    rw [List.append_nil]
    cases net_change first frs <;> rfl
  | append_singleton second record ih =>
    have hsnoc : ∀ records, net_change (records ++ [record]) frs =
        if frs = record.frs then some (note_record ((net_change records frs).getD (empty_change frs)) record)
        else net_change records frs := by
      intro records
      rw [net_change_append_singleton]
    have hresets : resets (second ++ [record]) frs = (resets second frs || (decide (frs = record.frs) && record.resets)) := by
      rw [resets, List.any_append, ← resets]
      simp
    rw [← List.append_assoc, hsnoc, hsnoc, ih, hresets]
    by_cases hrecord : frs = record.frs
    · rw [if_pos hrecord, if_pos hrecord]
      cases hfirst : net_change first frs with
      | none =>
        cases hsecond : net_change second frs with
        | none => rfl
        | some after => rfl
      | some before =>
        obtain ⟨hfrs, hmd⟩ := net_change_frs hfirst
        cases hsecond : net_change second frs with
        | none =>
          dsimp only [Option.getD]
          rw [note_record_first hfrs hmd, resets_eq_false hsecond]
          simp [hrecord]
        | some after =>
          dsimp only [Option.getD]
          rw [note_record_over]
          simp [hrecord]
    · rw [if_neg hrecord, if_neg hrecord]
      simp [hrecord]

/-- How the flags of a net change come about. -/
structure NetFlags (records : List UsnRecord) (frs : UInt64) (change : FileChange) : Prop where
  deleted : change.deleted = true → change.created = false ∧ change.renamed = false ∧ resets records frs = true
  created : change.created = true → resets records frs = true
  event : resets records frs = true → change.created = true ∨ change.deleted = true ∨ change.renamed = true

theorem net_change_flags (h : net_change records frs = some change) : NetFlags records frs change := by
  induction records using List.reverseRecOn generalizing change with
  | nil => simp [net_change] at h
  | append_singleton records record ih =>
    have hresets : resets (records ++ [record]) frs = (resets records frs || (decide (frs = record.frs) && record.resets)) := by
      rw [resets, List.any_append, ← resets]
      simp
    rw [net_change_append_singleton] at h
    split_ifs at h with hrecord
    · rw [Option.some.injEq] at h
      subst h
      have hprev : NetFlags records frs ((net_change records frs).getD (empty_change frs)) := by
        cases hnet : net_change records frs with
        | none => exact ⟨nofun, nofun, fun h => absurd h (by simp [resets_eq_false hnet])⟩
        | some prev => exact ih hnet
      obtain ⟨hdeleted, hcreated, hevent⟩ := hprev
      generalize (net_change records frs).getD (empty_change frs) = prev at *
      rw [note_record]
      constructor <;> rw [hresets, UsnRecord.resets] <;> cases record.change_type <;> simp_all [note_event]
    · obtain ⟨hdeleted, hcreated, hevent⟩ := ih h
      constructor <;> simp_all

/-- Every record of the journal names its file. -/
def Named (records : List UsnRecord) : Prop := ∀ record ∈ records, record.filename ≠ []

theorem Named.net_change (hnamed : Named records) (h : usn.net_change records frs = some change) :
    change.filename ≠ [] := by
  induction records using List.reverseRecOn generalizing change with
  | nil => simp [usn.net_change] at h
  | append_singleton records record ih =>
    have hrest : Named records := fun r hr => hnamed r (List.mem_append_left _ hr)
    have hrecord := hnamed record (List.mem_append_right _ List.mem_cons_self)
    rw [net_change_append_singleton] at h
    split_ifs at h with hfrs
    · rw [Option.some.injEq] at h
      rw [← h, note_record_filename]
      simp [hrecord]
    · exact ih hrest h

/-- The change writes a row on top of the given record numbers. -/
def WritesOn (before : UInt64 → Bool) (change : FileChange) : Prop :=
  change.deleted = false ∧ (change.created = true ∨ change.renamed = true ∧ before change.frs = true)

theorem writes_iff {drive : DriveCompactIndex} (hname : change.filename ≠ []) :
    Writes drive change ↔ WritesOn (mapped drive) change := by
  simp [Writes, WritesOn, mapped, hname]

/-- The file has the same net effect over the cut as over the whole: its parent is found alike, no
rename falls on a file that a delete has taken away, and no other event brings a new name or
parent to a change of the first part. -/
structure Steady (before : UInt64 → Bool) (first second : List UsnRecord) (f : UInt64) : Prop where
  parent_kept : ∀ a, net_change first f = some a → net_change second f = none → WritesOn before a →
    found before (net_change first) a = found before (net_change (first ++ second)) a
  parent_same : ∀ b, net_change second f = some b → WritesOn (mapped_by before (net_change first)) b →
    found (mapped_by before (net_change first)) (net_change second) b = found before (net_change (first ++ second)) b
  no_late_rename : ∀ a b, net_change first f = some a → net_change second f = some b → b.renamed = true → b.created = false →
    (a.deleted = true → before f = false) ∧ (a.created = true → resets second f = true → before f = true)
  same_name : ∀ a b, net_change first f = some a → net_change second f = some b → b.created = false → b.deleted = false →
    b.renamed = false → WritesOn before a → stored_name b.filename = stored_name a.filename ∧
      found before (net_change first) a = found before (net_change (first ++ second)) b

/-- The iteration order of the map decides nothing, in none of the three batches. -/
structure Settled (before : UInt64 → Bool) (first second : List UsnRecord) : Prop where
  acyclic_first : Acyclic (aggregate_changes first)
  acyclic_second : Acyclic (aggregate_changes second)
  acyclic_whole : Acyclic (aggregate_changes (first ++ second))
  undisputed_first : ∀ f a, net_change first f = some a → WritesOn before a →
    (∀ b, net_change second f = some b → b.created = false ∧ b.deleted = false ∧ b.renamed = false) →
      Undisputed before (net_change first) a
  undisputed_second : ∀ f b, net_change second f = some b → WritesOn (mapped_by before (net_change first)) b →
    Undisputed (mapped_by before (net_change first)) (net_change second) b
  undisputed_whole : ∀ f c, net_change (first ++ second) f = some c → WritesOn before c → Undisputed before (net_change (first ++ second)) c

theorem Acyclic.perm {changes batch : List FileChange} (hperm : batch.Perm changes) (h : Acyclic changes) : Acyclic batch := by
  obtain ⟨rank, hrank⟩ := h
  refine ⟨rank, fun change hchange hcreated hwaits => hrank change (hperm.mem_iff.mp hchange) hcreated ?_⟩
  refine ⟨hwaits.1, hwaits.2.1, mem_batch_creates.mpr ?_⟩
  exact (mem_batch_creates.mp hwaits.2.2).mono fun ch hch => hperm.mem_iff.mp hch

/-- Record numbers the journal speaks of, as files or as parents. -/
def Touches (records : List UsnRecord) (frs : UInt64) : Prop := ∃ record ∈ records, frs = record.frs ∨ frs = record.parent_frs

/-- A net change has the record number and the parent of a record of the journal. -/
theorem net_change_source (h : net_change records frs = some change) :
    ∃ record ∈ records, record.frs = frs ∧ record.parent_frs = change.parent_frs := by
  induction records using List.reverseRecOn generalizing change with
  | nil => simp [net_change] at h
  | append_singleton records record ih =>
    rw [net_change_append_singleton] at h
    split_ifs at h with hrecord
    · rw [Option.some.injEq] at h
      exact ⟨record, List.mem_append_right _ List.mem_cons_self, hrecord.symm, by rw [← h, note_record_parent_frs]⟩
    · obtain ⟨source, hmem, hsource⟩ := ih h
      exact ⟨source, List.mem_append_left _ hmem, hsource⟩

theorem BatchOf.concerns {records all : List UsnRecord} {batch : List FileChange} (h : BatchOf records batch)
    (hsub : ∀ record ∈ records, record ∈ all) (hfrs : ∀ record ∈ all, record.frs.toNat < 2 ^ 48) : Concerns (Touches all) batch := by
  intro change hchange
  have hnet := (h.change_of_eq change.frs).symm.trans ((change_of_eq_some h.nodup).mpr ⟨hchange, rfl⟩)
  obtain ⟨record, hmem, hrecord, hparent⟩ := net_change_source hnet
  refine ⟨?_, record, hsub record hmem, Or.inr hparent.symm⟩
  rw [FileChange.FromJournal, ← hrecord]
  exact hfrs record (hsub record hmem)

theorem found_congr {before : UInt64 → Bool} {net : UInt64 → Option FileChange} {a b : FileChange} (hparent : a.parent_frs = b.parent_frs)
    (hfrs : a.frs = b.frs) : found before net a = found before net b := by
  rw [found, found, hparent, hfrs]

section Settle

variable {parent : Option UInt64} {entry : Option (Option Seen)}

theorem settle_deleted (h : change.deleted = true) : settle change parent entry = none := by
  rw [settle, if_pos h]

theorem settle_created (hname : change.filename ≠ []) (hdeleted : change.deleted = false) (h : change.created = true) :
    settle change parent entry = some (some (stored_name change.filename, parent)) := by
  simp [settle, hdeleted, hname, h]

theorem settle_renamed (hname : change.filename ≠ []) (hdeleted : change.deleted = false) (hcreated : change.created = false)
    (h : change.renamed = true) : settle change parent entry = entry.map fun _ => some (stored_name change.filename, parent) := by
  simp [settle, hdeleted, hname, hcreated, h]

theorem settle_other (hdeleted : change.deleted = false) (hcreated : change.created = false) (h : change.renamed = false) :
    settle change parent entry = entry := by
  simp [settle, hdeleted, hcreated, h]

end Settle

/-- Two states of the index, reached by the whole journal and by its two parts. -/
structure Polled (env : Env) (drive between rest whole : DriveCompactIndex) (first second : List UsnRecord) (one two both : List FileChange) : Prop where
  sighted : Sighted (Touches (first ++ second)) drive
  numbers : ∀ record ∈ first ++ second, record.frs.toNat < 2 ^ 48
  named : Named (first ++ second)
  batch_first : BatchOf first one
  batch_second : BatchOf second two
  batch_both : BatchOf (first ++ second) both
  applied_first : Applied env drive one between
  applied_second : Applied env between two rest
  applied_both : Applied env drive both whole
  room_first : Fits between
  room_second : Fits rest
  room_both : Fits whole

section Polled

variable {env : Env} {drive between rest whole : DriveCompactIndex} {first second : List UsnRecord} {one two both : List FileChange}

section

variable (h : Polled env drive between rest whole first second one two both)

include h

theorem Polled.named_first : Named first :=
  fun record hrecord => h.named record (List.mem_append_left _ hrecord)

theorem Polled.named_second : Named second :=
  fun record hrecord => h.named record (List.mem_append_right _ hrecord)

theorem Polled.readable_first (hsettled : Settled (mapped drive) first second) :
    Readable (Touches (first ++ second)) env drive one between :=
  ⟨h.applied_first, h.sighted, h.batch_first.concerns (fun _ hr => List.mem_append_left _ hr) h.numbers, h.batch_first.nodup,
    hsettled.acyclic_first.perm h.batch_first, h.room_first⟩

theorem Polled.readable_second (hsettled : Settled (mapped drive) first second) :
    Readable (Touches (first ++ second)) env between two rest :=
  ⟨h.applied_second, (h.readable_first hsettled).sighted_after, h.batch_second.concerns (fun _ hr => List.mem_append_right _ hr) h.numbers,
    h.batch_second.nodup, hsettled.acyclic_second.perm h.batch_second, h.room_second⟩

theorem Polled.readable_both (hsettled : Settled (mapped drive) first second) :
    Readable (Touches (first ++ second)) env drive both whole :=
  ⟨h.applied_both, h.sighted, h.batch_both.concerns (fun _ hr => hr) h.numbers, h.batch_both.nodup, hsettled.acyclic_whole.perm h.batch_both, h.room_both⟩

/-- The record numbers mapped between the two batches. -/
theorem Polled.mapped_between (hsettled : Settled (mapped drive) first second) :
    mapped between = mapped_by (mapped drive) (net_change first) := by
  funext f
  rw [(h.readable_first hsettled).mapped_eq, mapped_by, mapped_by, h.batch_first.change_of_eq]

end

theorem Polled.look_first (h : Polled env drive between rest whole first second one two both) (hsettled : Settled (mapped drive) first second) {f : UInt64}
    (hother : ∀ b, net_change second f = some b → b.created = false ∧ b.deleted = false ∧ b.renamed = false) :
    look between f =
      match net_change first f with
      | none => look drive f
      | some a => settle a (found (mapped drive) (net_change first) a) (look drive f) := by
  have hnet : change_of one = net_change first := funext h.batch_first.change_of_eq
  have hlook := @Readable.look_eq _ _ _ _ _ (h.readable_first hsettled) f
  rw [hnet] at hlook
  apply hlook
  intro a ha hwrites
  have hname := h.named_first.net_change ha
  exact hsettled.undisputed_first f a ha ((writes_iff hname).mp hwrites) hother

section

variable (h : Polled env drive between rest whole first second one two both) (hsettled : Settled (mapped drive) first second) (f : UInt64)

include h hsettled f

theorem Polled.look_second :
    look rest f =
      match net_change second f with
      | none => look between f
      | some b => settle b (found (mapped_by (mapped drive) (net_change first)) (net_change second) b)
          (look between f) := by
  have hnet : change_of two = net_change second := funext h.batch_second.change_of_eq
  have hlook := @Readable.look_eq _ _ _ _ _ (h.readable_second hsettled) f
  rw [hnet, h.mapped_between hsettled] at hlook
  apply hlook
  intro b hb hwrites
  have hname := h.named_second.net_change hb
  rw [writes_iff hname, h.mapped_between hsettled] at hwrites
  exact hsettled.undisputed_second f b hb hwrites

theorem Polled.look_both :
    look whole f =
      match net_change (first ++ second) f with
      | none => look drive f
      | some c => settle c (found (mapped drive) (net_change (first ++ second)) c) (look drive f) := by
  have hnet : change_of both = net_change (first ++ second) := funext h.batch_both.change_of_eq
  have hlook := @Readable.look_eq _ _ _ _ _ (h.readable_both hsettled) f
  rw [hnet] at hlook
  apply hlook
  intro c hc hwrites
  exact hsettled.undisputed_whole f c hc ((writes_iff (h.named.net_change hc)).mp hwrites)

end

variable {f : UInt64} {b : FileChange}

/-- A file without records in the second part. -/
theorem Polled.view_kept (h : Polled env drive between rest whole first second one two both) (hsettled : Settled (mapped drive) first second)
    (hnone : net_change second f = none) :
    view whole f = view rest f ↔
      ∀ a, net_change first f = some a → WritesOn (mapped drive) a →
        found (mapped drive) (net_change first) a = found (mapped drive) (net_change (first ++ second)) a := by
  have hwhole := h.look_both hsettled f
  have hsplit := h.look_second hsettled f
  have hbetween := @Polled.look_first _ _ _ _ _ _ _ _ _ _ h hsettled f (by simp [hnone])
  rw [net_change_append, hnone] at hwhole
  rw [hnone] at hsplit
  rw [view, view, hwhole, hsplit, hbetween]
  cases hfirst : net_change first f with
  | none => simp
  | some a =>
    have hname := h.named_first.net_change hfirst
    obtain ⟨hfrs, -⟩ := net_change_frs hfirst
    simp only [Option.some.injEq, forall_eq']
    by_cases hwrites : WritesOn (mapped drive) a
    · have hwrites' := (writes_iff hname).mpr hwrites
      rw [← hfrs, settle_of_writes hwrites', settle_of_writes hwrites']
      simp [hwrites, eq_comm]
    · rw [← writes_iff hname] at hwrites
      by_cases hdeleted : a.deleted = true
      · simp [settle_deleted hdeleted, WritesOn, hdeleted]
      · have hkind : a.deleted = false := by simpa using hdeleted
        rw [← hfrs, settle_of_not_writes hkind hwrites, settle_of_not_writes hkind hwrites]
        simp [← writes_iff hname, hwrites]

/-- The net change of a file over the whole, given the one of the second part. -/
theorem net_change_append_some {f : UInt64} {b : FileChange} (hb : net_change second f = some b) :
    ∃ c, net_change (first ++ second) f = some c ∧ c.frs = b.frs ∧ c.parent_frs = b.parent_frs ∧
      (b.filename ≠ [] → c.filename = b.filename) ∧
      (net_change first f = none → c = b) ∧ ∀ a, net_change first f = some a → c = net_over a b (resets second f) := by
  rw [net_change_append, hb]
  cases net_change first f with
  | none => exact ⟨b, rfl, rfl, rfl, fun _ => rfl, fun _ => rfl, nofun⟩
  | some a =>
    refine ⟨net_over a b (resets second f), rfl, rfl, rfl, ?_, nofun, ?_⟩
    · intro hname
      simp [net_over, hname]
    · rintro a' ha'
      cases ha'
      rfl

section

variable (h : Polled env drive between rest whole first second one two both) (hsettled : Settled (mapped drive) first second)
  (hb : net_change second f = some b)

include h hsettled hb

theorem Polled.view_deleted (hdeleted : b.deleted = true) :
    view whole f = view rest f := by
  obtain ⟨c, hc, -, -, -, hnone, hsome⟩ := @net_change_append_some first second f b hb
  have hflag : c.deleted = true := by
    cases hfirst : net_change first f with
    | none => rw [hnone hfirst, hdeleted]
    | some a => simp [hsome a hfirst, net_over, ((net_change_flags hb).deleted hdeleted).2.2, hdeleted]
  rw [view, view, h.look_both hsettled, h.look_second hsettled, hc, hb]
  dsimp only
  rw [settle_deleted hflag, settle_deleted hdeleted]

theorem Polled.view_created (hcreated : b.created = true) :
    view whole f = view rest f ↔
      found (mapped_by (mapped drive) (net_change first)) (net_change second) b =
        found (mapped drive) (net_change (first ++ second)) b := by
  obtain ⟨c, hc, hfrs, hparent, hsame, hnone, hsome⟩ := @net_change_append_some first second f b hb
  have hflags := net_change_flags hb
  have hname := h.named_second.net_change hb
  have hdeleted : b.deleted = false := by
    by_contra hdel
    have := (hflags.deleted (by simpa using hdel)).1
    rw [hcreated] at this
    cases this
  have hkind : c.created = true ∧ c.deleted = false := by
    cases hfirst : net_change first f with
    | none => rw [hnone hfirst]; exact ⟨hcreated, hdeleted⟩
    | some a => simp [hsome a hfirst, net_over, hflags.created hcreated, hcreated, hdeleted]
  have hcname : c.filename ≠ [] := by rw [hsame hname]; exact hname
  rw [view, view, h.look_both hsettled, h.look_second hsettled, hc, hb]
  dsimp only
  rw [settle_created hcname hkind.2 hkind.1, settle_created hname hdeleted hcreated, hsame hname, found_congr hparent hfrs]
  simp [eq_comm]

theorem Polled.view_other (hcreated : b.created = false) (hdeleted : b.deleted = false) (hrenamed : b.renamed = false) :
    view whole f = view rest f ↔
      ∀ a, net_change first f = some a → WritesOn (mapped drive) a → stored_name b.filename = stored_name a.filename ∧
        found (mapped drive) (net_change first) a = found (mapped drive) (net_change (first ++ second)) b := by
  obtain ⟨c, hc, hfrs, hparent, hsame, hnone, hsome⟩ := @net_change_append_some first second f b hb
  have hname := h.named_second.net_change hb
  have hcname : c.filename ≠ [] := by rw [hsame hname]; exact hname
  have hresets : resets second f = false := by
    by_contra hreset
    have := (net_change_flags hb).event (by simpa using hreset)
    simp [hcreated, hdeleted, hrenamed] at this
  have hbetween := @Polled.look_first _ _ _ _ _ _ _ _ _ _ h hsettled f (by
    intro b' hb'
    cases hb.symm.trans hb'
    exact ⟨hcreated, hdeleted, hrenamed⟩)
  rw [view, view, h.look_both hsettled, h.look_second hsettled, hc, hb]
  dsimp only
  rw [settle_other hdeleted hcreated hrenamed, hbetween]
  cases hfirst : net_change first f with
  | none =>
    rw [hnone hfirst, settle_other hdeleted hcreated hrenamed]
    simp
  | some a =>
    have haname := h.named_first.net_change hfirst
    obtain ⟨hafrs, -⟩ := net_change_frs hfirst
    have hcfrs : c.frs = f := (net_change_frs hc).1
    have hflags : c.created = a.created ∧ c.deleted = a.deleted ∧ c.renamed = a.renamed := by
      simp [hsome a hfirst, net_over, hresets, hrenamed]
    have hwrites_iff : WritesOn (mapped drive) c ↔ WritesOn (mapped drive) a := by
      rw [WritesOn, WritesOn, hflags.1, hflags.2.1, hflags.2.2, hcfrs, hafrs]
    simp only [Option.some.injEq, forall_eq']
    by_cases hwrites : WritesOn (mapped drive) a
    · have hwritesA := (writes_iff haname).mpr hwrites
      have hwritesC := (writes_iff hcname).mpr (hwrites_iff.mpr hwrites)
      have hlookC := settle_of_writes hwritesC (found (mapped drive) (net_change (first ++ second)) c)
      have hlookA := settle_of_writes hwritesA (found (mapped drive) (net_change first) a)
      rw [hcfrs, found_congr hparent hfrs, hsame hname] at hlookC
      rw [hafrs] at hlookA
      rw [found_congr hparent hfrs, hlookC, hlookA]
      simp [hwrites, eq_comm]
    · by_cases hgone : a.deleted = true
      · rw [settle_deleted (hflags.2.1.trans hgone), settle_deleted hgone]
        simp [WritesOn, hgone]
      · have hkindA : a.deleted = false := by simpa using hgone
        have hnotA := fun hw => hwrites ((writes_iff haname).mp hw)
        have hnotC := fun hw => hwrites (hwrites_iff.mp ((writes_iff hcname).mp hw))
        have hlookC := settle_of_not_writes (hflags.2.1.trans hkindA) hnotC (found (mapped drive) (net_change (first ++ second)) c)
        have hlookA := settle_of_not_writes hkindA hnotA (found (mapped drive) (net_change first) a)
        rw [hcfrs] at hlookC
        rw [hafrs] at hlookA
        rw [hlookC, hlookA]
        simp [hwrites]

end

theorem join_map_some {entry : Option (Option Seen)} {shown : Seen} :
    (entry.map fun _ => some shown).join = if entry.isSome then some shown else none := by
  cases entry <;> rfl

section

variable (h : Polled env drive between rest whole first second one two both) (hsettled : Settled (mapped drive) first second)

include h hsettled

/-- A file whose net change in the second part is a rename: it is there afterwards when it was
there before, in both runs, and then with the same parent. -/
theorem Polled.view_renamed (hb : net_change second f = some b) (hcreated : b.created = false) (hrenamed : b.renamed = true) :
    view whole f = view rest f ↔
      (∀ a, net_change first f = some a → (a.deleted = true → mapped drive f = false) ∧
        (a.created = true → resets second f = true → mapped drive f = true)) ∧
      (WritesOn (mapped_by (mapped drive) (net_change first)) b →
        found (mapped_by (mapped drive) (net_change first)) (net_change second) b =
          found (mapped drive) (net_change (first ++ second)) b) := by
  obtain ⟨c, hc, hfrs, hparent, hsame, hnone, hsome⟩ := @net_change_append_some first second f b hb
  have hname := h.named_second.net_change hb
  have hcname : c.filename ≠ [] := by rw [hsame hname]; exact hname
  have hbfrs : b.frs = f := (net_change_frs hb).1
  have hdeleted : b.deleted = false := by
    by_contra hdel
    have := ((net_change_flags hb).deleted (by simpa using hdel)).2.1
    rw [hrenamed] at this
    cases this
  have hkind : c.deleted = false ∧ c.renamed = true := by
    cases hfirst : net_change first f with
    | none => rw [hnone hfirst]; exact ⟨hdeleted, hrenamed⟩
    | some a => simp [hsome a hfirst, net_over, hdeleted, hrenamed]
  have hpresent : (look between f).isSome = mapped_by (mapped drive) (net_change first) f := by
    rw [look_isSome, h.mapped_between hsettled]
  have hsplit : view rest f =
      if mapped_by (mapped drive) (net_change first) f then
        some (stored_name b.filename, found (mapped_by (mapped drive) (net_change first)) (net_change second) b) else none := by
    rw [view, h.look_second hsettled, hb]
    dsimp only
    rw [settle_renamed hname hdeleted hcreated hrenamed, join_map_some, hpresent]
  have hwhole : view whole f =
      if c.created || mapped drive f then
        some (stored_name b.filename, found (mapped drive) (net_change (first ++ second)) b) else none := by
    rw [view, h.look_both hsettled, hc]
    dsimp only
    rw [found_congr hparent hfrs]
    cases hcc : c.created with
    | true => rw [settle_created hcname hkind.1 hcc, hsame hname]; rfl
    | false => rw [settle_renamed hcname hkind.1 hcc hkind.2, join_map_some, look_isSome, hsame hname, Bool.false_or]
  have hwrites : WritesOn (mapped_by (mapped drive) (net_change first)) b ↔ mapped_by (mapped drive) (net_change first) f = true := by
    simp [WritesOn, hdeleted, hcreated, hrenamed, hbfrs]
  -- the file is there in both runs or in neither
  have hagree : (c.created || mapped drive f) = mapped_by (mapped drive) (net_change first) f ↔
      ∀ a, net_change first f = some a → (a.deleted = true → mapped drive f = false) ∧
        (a.created = true → resets second f = true → mapped drive f = true) := by
    rw [mapped_by]
    cases hfirst : net_change first f with
    | none => simp [hnone hfirst, hcreated]
    | some a =>
      have haname := h.named_first.net_change hfirst
      have hflags := net_change_flags hfirst
      simp only [Option.some.injEq, forall_eq', hsome a hfirst, net_over, mapped_after, hcreated]
      cases hdel : a.deleted with
      | true =>
        have hac := (hflags.deleted hdel).1
        cases resets second f <;> cases mapped drive f <;> simp [hac]
      | false => cases hac : a.created <;> cases resets second f <;> cases mapped drive f <;> simp [haname]
  rw [hsplit, hwhole, hwrites, ← hagree]
  cases hone : mapped_by (mapped drive) (net_change first) f <;> cases htwo : (c.created || mapped drive f) <;> simp [eq_comm]

/-- The cut of the journal does not show if and only if every file has the same net effect over the
two parts as over the whole. -/
theorem poll_cut_invisible_iff :
    (∀ f, view whole f = view rest f) ↔
      ∀ f, Steady (mapped drive) first second f := by
  apply forall_congr'
  intro f
  cases hsecond : net_change second f with
  | none =>
    rw [h.view_kept hsettled hsecond]
    constructor
    · intro hparent
      exact ⟨fun a ha _ => hparent a ha, by simp [hsecond], by simp [hsecond], by simp [hsecond]⟩
    · intro hsteady a ha hwrites
      exact hsteady.parent_kept a ha hsecond hwrites
  | some b =>
    have hflags := net_change_flags hsecond
    cases hdeleted : b.deleted with
    | true =>
      obtain ⟨hcreated, hrenamed, -⟩ := hflags.deleted hdeleted
      have hview := h.view_deleted hsettled hsecond hdeleted
      refine ⟨fun _ => ⟨by simp [hsecond], ?_, ?_, ?_⟩, fun _ => hview⟩
      · rintro b' hb' ⟨hnot, -⟩
        cases hsecond.symm.trans hb'
        simp [hdeleted] at hnot
      · rintro a b' - hb' hren
        cases hsecond.symm.trans hb'
        simp [hrenamed] at hren
      · rintro a b' - hb' - hnot
        cases hsecond.symm.trans hb'
        simp [hdeleted] at hnot
    | false =>
      cases hcreated : b.created with
      | true =>
        rw [h.view_created hsettled hsecond hcreated]
        constructor
        · intro hparent
          refine ⟨by simp [hsecond], ?_, ?_, ?_⟩
          · rintro b' hb' -
            cases hsecond.symm.trans hb'
            exact hparent
          · rintro a b' - hb' - hnot
            cases hsecond.symm.trans hb'
            simp [hcreated] at hnot
          · rintro a b' - hb' hnot
            cases hsecond.symm.trans hb'
            simp [hcreated] at hnot
        · intro hsteady
          exact hsteady.parent_same b hsecond ⟨hdeleted, Or.inl hcreated⟩
      | false =>
        cases hrenamed : b.renamed with
        | true =>
          rw [h.view_renamed hsettled hsecond hcreated hrenamed]
          constructor
          · rintro ⟨hlate, hparent⟩
            refine ⟨by simp [hsecond], ?_, ?_, ?_⟩
            · intro b' hb' hwrites
              cases hsecond.symm.trans hb'
              exact hparent hwrites
            · rintro a b' ha - - -
              exact hlate a ha
            · rintro a b' - hb' - - hnot
              cases hsecond.symm.trans hb'
              simp [hrenamed] at hnot
          · intro hsteady
            exact ⟨fun a ha => hsteady.no_late_rename a b ha hsecond hrenamed hcreated, hsteady.parent_same b hsecond⟩
        | false =>
          rw [h.view_other hsettled hsecond hcreated hdeleted hrenamed]
          constructor
          · intro hname
            refine ⟨by simp [hsecond], ?_, ?_, ?_⟩
            · rintro b' hb' ⟨-, hwrites⟩
              cases hsecond.symm.trans hb'
              simp [hcreated, hrenamed] at hwrites
            · rintro a b' - hb' hren
              cases hsecond.symm.trans hb'
              simp [hrenamed] at hren
            · rintro a b' ha hb' - - - hwrites
              cases hsecond.symm.trans hb'
              exact hname a ha hwrites
          · intro hsteady a ha hwrites
            exact hsteady.same_name a b ha hsecond hcreated hdeleted hrenamed hwrites

end

end Polled

end uffs.usn
