import Uffs.Usn.Effect

open uffs.lib uffs.mft uffs.bloom uffs.compact

namespace uffs.usn

/-- Slots the batch so far has marked for an overlay addition. -/
def Patch.Adds (patch : Patch) (c : Nat) : Prop := ∃ change ∈ patch.path_changes, change.idx.toNat = c

/-- Slots whose base postings the batch so far has masked. -/
def Patch.Masks (patch : Patch) (c : Nat) : Prop := ∃ slot ∈ patch.tombstones, slot.toNat = c

/-- Slot by slot account of a batch: a slot is as it was and in neither change set, or it is dead
and detached, or it is live and in the add set. -/
structure Loop (start : DriveCompactIndex) (patch : Patch) : Prop where
  tables : SameTables start patch.drive
  names : ∃ tail, patch.drive.names = start.names ++ tail
  length : start.records.length ≤ patch.drive.records.length
  slot : ∀ c rec, patch.drive.records[c]? = some rec →
    (start.records[c]? = some rec ∧ ¬ patch.Adds c ∧ ¬ patch.Masks c) ∨
    (¬ rec.Live ∧ rec.parent_idx = NO_ENTRY) ∨
    (rec.Live ∧ rec.InRange patch.drive.names ∧ patch.Adds c)

theorem Loop.start (drive : DriveCompactIndex) : Loop drive { drive := drive } := by
  refine ⟨SameTables.refl drive, ⟨[], (List.append_nil _).symm⟩, Nat.le_refl _, fun c rec hget => ?_⟩
  refine Or.inl ⟨hget, ?_, ?_⟩
  · rintro ⟨change, hmem, -⟩
    cases hmem
  · rintro ⟨slot, hmem, -⟩
    cases hmem

theorem Effect.length_le {change : FileChange} {before after : Patch} (heffect : Effect change before after) :
    before.drive.records.length ≤ after.drive.records.length := by
  cases heffect with
  | idle hrecords => rw [hrecords]
  | deleted rec _ _ _ hrecords => rw [hrecords, List.length_set]
  | appended rec _ _ _ _ hrecords => rw [hrecords, List.length_append]; omega
  | rewritten rec rec' _ _ _ _ _ _ _ _ hrecords => rw [hrecords, List.length_set]

theorem adds_append {patch after : Patch} {change : PathChange} {c : Nat}
    (hpath : after.path_changes = patch.path_changes ++ [change]) :
    after.Adds c ↔ patch.Adds c ∨ change.idx.toNat = c := by
  simp only [Patch.Adds, hpath, List.mem_append, List.mem_singleton]
  constructor
  · rintro ⟨ch, hch | rfl, hc⟩
    · exact Or.inl ⟨ch, hch, hc⟩
    · exact Or.inr hc
  · rintro (⟨ch, hch, hc⟩ | hc)
    · exact ⟨ch, Or.inl hch, hc⟩
    · exact ⟨change, Or.inr rfl, hc⟩

theorem masks_append {patch after : Patch} {slot : UInt32} {c : Nat}
    (htombstones : after.tombstones = patch.tombstones ++ [slot]) :
    after.Masks c ↔ patch.Masks c ∨ slot.toNat = c := by
  simp only [Patch.Masks, htombstones, List.mem_append, List.mem_singleton]
  constructor
  · rintro ⟨s, hs | rfl, hc⟩
    · exact Or.inl ⟨s, hs, hc⟩
    · exact Or.inr hc
  · rintro (⟨s, hs, hc⟩ | hc)
    · exact ⟨s, Or.inl hs, hc⟩
    · exact ⟨slot, Or.inr rfl, hc⟩

/-- One step keeps the account. -/
theorem Loop.step {env : Env} {start : DriveCompactIndex} {patch : Patch} (hloop : Loop start patch)
    (change : FileChange) (hroom : (apply_change env patch change).drive.records.length < UInt32.size) :
    Loop start (apply_change env patch change) := by
  obtain ⟨htables, tail, hnames⟩ := apply_change_frame env patch change
  have heffect := apply_change_effect env patch change
  generalize apply_change env patch change = after at *
  obtain ⟨earlier, hearlier⟩ := hloop.names
  refine ⟨hloop.tables.trans htables, ⟨earlier ++ tail, by rw [hnames, hearlier, List.append_assoc]⟩,
    hloop.length.trans heffect.length_le, fun c rec hget => ?_⟩
  -- A slot the step leaves alone keeps its account; only the names blob has grown.
  have hkeep : patch.drive.records[c]? = some rec → (after.Adds c ↔ patch.Adds c) →
      (after.Masks c ↔ patch.Masks c) →
      (start.records[c]? = some rec ∧ ¬ after.Adds c ∧ ¬ after.Masks c) ∨
      (¬ rec.Live ∧ rec.parent_idx = NO_ENTRY) ∨
      (rec.Live ∧ rec.InRange after.drive.names ∧ after.Adds c) := fun hold hadds hmasks => by
    cases hloop.slot c rec hold with
    | inl h => exact Or.inl ⟨h.1, fun ha => h.2.1 (hadds.mp ha), fun hm => h.2.2 (hmasks.mp hm)⟩
    | inr h =>
      cases h with
      | inl h => exact Or.inr (Or.inl h)
      | inr h => exact Or.inr (Or.inr ⟨h.1, hnames ▸ h.2.1.append tail, hadds.mpr h.2.2⟩)
  cases heffect with
  | idle hrecords _ hpath htombstones =>
    rw [hrecords] at hget
    exact hkeep hget (by simp only [Patch.Adds, hpath]) (by simp only [Patch.Masks, htombstones])
  | deleted old _ _ _ hrecords _ hpath htombstones =>
    rw [hrecords, List.getElem?_set] at hget
    split at hget
    next =>
      refine Or.inr (Or.inl ?_)
      split at hget
      · obtain rfl := Option.some.inj hget
        exact ⟨by simp [CompactRecord.Live], rfl⟩
      · cases hget
    next hne =>
      exact hkeep hget (by simp only [Patch.Adds, hpath])
        ((masks_append htombstones).trans (or_iff_left hne))
  | appended new _ _ hfresh _ hrecords _ hpath htombstones =>
    have hslot : (len_to_u32 patch.drive.records.length).toNat = patch.drive.records.length := by
      apply len_to_u32_toNat
      rw [hrecords, List.length_append] at hroom
      omega
    rw [hrecords] at hget
    by_cases hc : c = patch.drive.records.length
    · subst hc
      rw [List.getElem?_concat_length] at hget
      obtain rfl := Option.some.inj hget
      exact Or.inr (Or.inr ⟨hfresh.live, hfresh.inRange, (adds_append hpath).mpr (Or.inr hslot)⟩)
    · have hlt : c < patch.drive.records.length := by
        have hbound := (List.getElem?_eq_some_iff.mp hget).1
        rw [List.length_append, List.length_singleton] at hbound
        omega
      rw [List.getElem?_append_left hlt] at hget
      refine hkeep hget ((adds_append hpath).trans (or_iff_left ?_)) (by simp only [Patch.Masks, htombstones])
      dsimp only
      omega
  | rewritten old new _ _ _ _ hfresh _ _ _ hrecords _ hpath htombstones =>
    rw [hrecords, List.getElem?_set] at hget
    split at hget
    next hc =>
      split at hget
      · obtain rfl := Option.some.inj hget
        exact Or.inr (Or.inr ⟨hfresh.live, hfresh.inRange, (adds_append hpath).mpr (Or.inr hc)⟩)
      · cases hget
    next hne =>
      exact hkeep hget ((adds_append hpath).trans (or_iff_left hne))
        ((masks_append htombstones).trans (or_iff_left hne))

theorem foldl_apply_change_length_le (env : Env) (changes : List FileChange) (patch : Patch) :
    patch.drive.records.length ≤ (changes.foldl (apply_change env) patch).drive.records.length := by
  induction changes generalizing patch with
  | nil => exact Nat.le_refl _
  | cons change changes ih =>
    exact (apply_change_effect env patch change).length_le.trans (ih (apply_change env patch change))

/-- Induction over the mutation loop: what every step preserves holds after the batch. The
capacity bound on the final record column holds at every step, since the column only grows. -/
theorem run_changes_induction {env : Env} {motive : Patch → Prop} {drive : DriveCompactIndex}
    {ordered : List FileChange} {limit : Nat}
    (hroom : (run_changes env drive ordered).drive.records.length < limit)
    (hstart : motive { drive := drive })
    (hstep : ∀ patch change, motive patch → change ∈ ordered →
      (apply_change env patch change).drive.records.length < limit →
      motive (apply_change env patch change)) :
    motive (run_changes env drive ordered) := by
  have hrun : ∀ (changes : List FileChange) (patch : Patch), (∀ change ∈ changes, change ∈ ordered) →
      (changes.foldl (apply_change env) patch).drive.records.length < limit → motive patch →
      motive (changes.foldl (apply_change env) patch) := by
    intro changes
    induction changes with
    | nil => intro patch _ _ hpatch; exact hpatch
    | cons change changes ih =>
      intro patch hsub hspace hpatch
      refine ih (apply_change env patch change) (fun ch hch => hsub ch (List.mem_cons_of_mem _ hch)) hspace ?_
      refine hstep patch change hpatch (hsub change List.mem_cons_self) ?_
      exact Nat.lt_of_le_of_lt (foldl_apply_change_length_le env changes _) hspace
  exact hrun ordered { drive := drive } (fun _ h => h) hroom hstart

/-- The loop leaves the tables and the filters alone. -/
theorem run_changes_tables (env : Env) (drive : DriveCompactIndex) (ordered : List FileChange) :
    SameTables drive (run_changes env drive ordered).drive :=
  foldl_invariant (motive := fun patch : Patch => SameTables drive patch.drive) (SameTables.refl drive)
    fun patch change _ h => h.trans (apply_change_frame env patch change).1

/-- The account of a whole batch. -/
theorem run_changes_loop {env : Env} {drive : DriveCompactIndex} {ordered : List FileChange}
    (hroom : (run_changes env drive ordered).drive.records.length < UInt32.size) :
    Loop drive (run_changes env drive ordered) :=
  run_changes_induction hroom (Loop.start drive) fun _ change hloop _ hspace => hloop.step change hspace

end uffs.usn
