import Mathlib.Data.Finset.Card
import Uffs.Usn.FrsMap
import Uffs.Usn.Order

open uffs.mft uffs.bloom uffs.compact

namespace uffs.usn

/-- The change `x` writes into the directory that the change `y` of the batch creates. -/
structure WaitsFor (changes : List FileChange) (x y : FileChange) : Prop where
  mem : x ∈ changes
  mem_create : y ∈ changes
  writes : x.created = true ∨ x.renamed = true
  parent_ne : x.parent_frs ≠ x.frs
  created : y.created = true
  frs_eq : y.frs = x.parent_frs

/-- No change waits for itself, directly or through others. -/
def NoCycle (changes : List FileChange) : Prop := ∀ x, ¬ Relation.TransGen (WaitsFor changes) x x

variable {changes : List FileChange}

theorem waits_iff {x : FileChange} (hx : x ∈ changes) : Waits (batch_creates changes) x ↔ ∃ y, WaitsFor changes x y := by
  rw [Waits, mem_batch_creates]
  constructor
  · rintro ⟨hwrites, hparent, y, hy, hcreated, hfrs⟩
    exact ⟨y, hx, hy, hwrites, hparent, hcreated, hfrs⟩
  · rintro ⟨y, h⟩
    exact ⟨h.writes, h.parent_ne, y, h.mem_create, h.created, h.frs_eq⟩

/-- What waits for one create of a record number waits for every other. -/
theorem transGen_create {x y z : FileChange} (h : Relation.TransGen (WaitsFor changes) x y) (hz : z ∈ changes)
    (hcreated : z.created = true) (hfrs : z.frs = y.frs) : Relation.TransGen (WaitsFor changes) x z := by
  cases h with
  | single h => exact .single ⟨h.mem, hz, h.writes, h.parent_ne, hcreated, hfrs.trans h.frs_eq⟩
  | tail h hlast => exact h.tail ⟨hlast.mem, hz, hlast.writes, hlast.parent_ne, hcreated, hfrs.trans hlast.frs_eq⟩

/-- The creates of a record number, and all that they wait for, counted. -/
theorem NoCycle.acyclic (h : NoCycle changes) : Acyclic changes := by
  classical
  let below : UInt64 → Finset FileChange := fun frs =>
    changes.toFinset.filter fun z => ∃ x ∈ changes, x.created = true ∧ x.frs = frs ∧ Relation.TransGen (WaitsFor changes) x z
  refine ⟨fun frs => (below frs).card, ?_⟩
  intro change hchange hcreated hwaits
  obtain ⟨y, hy⟩ := (waits_iff hchange).mp hwaits
  apply Finset.card_lt_card
  refine ⟨?_, ?_⟩
  · intro z hz
    obtain ⟨hmem, x, hx, hxcreated, hxfrs, hpath⟩ := Finset.mem_filter.mp hz
    have hstep : WaitsFor changes change x := ⟨hchange, hx, Or.inl hcreated, hy.parent_ne, hxcreated, hxfrs⟩
    exact Finset.mem_filter.mpr ⟨hmem, change, hchange, hcreated, rfl, .head hstep hpath⟩
  · intro hsub
    have hmem : y ∈ below change.frs :=
      Finset.mem_filter.mpr ⟨List.mem_toFinset.mpr hy.mem_create, change, hchange, hcreated, rfl, .single hy⟩
    obtain ⟨-, x, hx, hxcreated, hxfrs, hpath⟩ := Finset.mem_filter.mp (hsub hmem)
    exact h x (transGen_create hpath hx hxcreated (hxfrs.trans hy.frs_eq.symm))

/-- Ranks of the record numbers that fall along the batch rule out a cycle. -/
theorem noCycle_of_rank (rank : UInt64 → Nat) (hrank : ∀ x y, WaitsFor changes x y → rank y.frs < rank x.frs) :
    NoCycle changes := by
  have hpath : ∀ x y, Relation.TransGen (WaitsFor changes) x y → rank y.frs < rank x.frs := by
    intro x y h
    induction h with
    | single h => exact hrank _ _ h
    | tail _ h ih => exact Nat.lt_trans (hrank _ _ h) ih
  exact fun x h => Nat.lt_irrefl _ (hpath x x h)

section Slots

variable {env : Env}

theorem Effect.length_le_succ {change : FileChange} {before after : Patch} (heffect : Effect change before after) :
    after.drive.records.length ≤ before.drive.records.length + 1 := by
  cases heffect with
  | idle hrecords => rw [hrecords]; exact Nat.le_succ _
  | deleted _ _ _ _ hrecords => rw [hrecords, List.length_set]; exact Nat.le_succ _
  | appended _ _ _ _ _ hrecords => rw [hrecords, List.length_append, List.length_singleton]
  | rewritten _ _ _ _ _ _ _ _ _ _ hrecords => rw [hrecords, List.length_set]; exact Nat.le_succ _

theorem len_to_u32_ne_no_entry {n : Nat} (hroom : n + 1 < UInt32.size) : len_to_u32 n ≠ NO_ENTRY := by
  intro h
  have hnat := congrArg UInt32.toNat h
  rw [len_to_u32_toNat (by omega)] at hnat
  have hentry : NO_ENTRY.toNat = UInt32.size - 1 := rfl
  omega

/-- A create of a named file leaves its record number mapped. -/
theorem slot_of_created {patch : Patch} {change : FileChange} (hkind : change.deleted = false) (hcreated : change.created = true)
    (hname : change.filename ≠ []) (hroom : patch.drive.records.length + 1 < UInt32.size) :
    slot_of (apply_change env patch change).drive change.frs ≠ NO_ENTRY := by
  by_cases hslot : slot_of patch.drive change.frs = NO_ENTRY
  · have hstaged := stage_create_staged env patch.drive change
    have hmap := congrArg DriveCompactIndex.frs_to_compact (apply_change_append_drive env hkind hcreated hname hslot)
    rw [hstaged.map, hstaged.records] at hmap
    rw [slot_of_map_frs hmap, if_pos rfl]
    exact len_to_u32_ne_no_entry hroom
  · cases apply_change_effect env patch change with
    | idle _ hmap => rwa [slot_of_of_map hmap]
    | deleted _ hdeleted => rw [hkind] at hdeleted; cases hdeleted
    | appended _ _ hnone => exact absurd hnone hslot
    | rewritten _ _ _ _ _ _ _ _ _ _ _ hmap => rwa [slot_of_of_map hmap]

/-- Only a delete of its own takes a mapped record number its slot. -/
theorem slot_of_kept {patch : Patch} {change : FileChange} {f : UInt64} (hkind : change.frs = f → change.deleted = false)
    (hslot : slot_of patch.drive f ≠ NO_ENTRY) : slot_of (apply_change env patch change).drive f ≠ NO_ENTRY := by
  have heffect := apply_change_effect env patch change
  by_cases hf : f = change.frs
  · subst hf
    cases heffect with
    | idle _ hmap => rwa [slot_of_of_map hmap]
    | deleted _ hdeleted => rw [hkind rfl] at hdeleted; cases hdeleted
    | appended _ _ hnone => exact absurd hnone hslot
    | rewritten _ _ _ _ _ _ _ _ _ _ _ hmap => rwa [slot_of_of_map hmap]
  · rwa [heffect.slot_of_other hf]

/-- The batch does not delete the record number, and creates it under a name if at all. -/
def KeepsFrs (changes : List FileChange) (f : UInt64) : Prop :=
  ∀ change ∈ changes, change.frs = f → change.deleted = false ∧ (change.created = true → change.filename ≠ [])

/-- Once the create of a record number that the batch keeps is out, the number is mapped. -/
theorem slot_of_run {changes : List FileChange} {f : UInt64} (hkeeps : KeepsFrs changes f) {patch : Patch}
    (hroom : patch.drive.records.length + changes.length < UInt32.size)
    (hmapped : slot_of patch.drive f ≠ NO_ENTRY ∨ Creates changes f) :
    slot_of (changes.foldl (apply_change env) patch).drive f ≠ NO_ENTRY := by
  induction changes generalizing patch with
  | nil =>
    rcases hmapped with h | ⟨change, hmem, -⟩
    · exact h
    · exact absurd hmem List.not_mem_nil
  | cons change changes ih =>
    have hone := (apply_change_effect env patch change).length_le_succ
    rw [List.length_cons] at hroom
    rw [List.foldl_cons]
    apply ih (fun ch hch => hkeeps ch (List.mem_cons_of_mem _ hch)) (by omega)
    rcases hmapped with h | ⟨other, hmem, hcreated, hfrs⟩
    · exact Or.inl (slot_of_kept (fun hf => (hkeeps change List.mem_cons_self hf).1) h)
    · rcases List.mem_cons.mp hmem with rfl | hmem
      · subst hfrs
        obtain ⟨hkind, hname⟩ := hkeeps other List.mem_cons_self rfl
        exact Or.inl (slot_of_created hkind hcreated (hname hcreated) (by omega))
      · exact Or.inr ⟨other, hmem, hcreated, hfrs⟩

end Slots

/-- The ordering is a permutation that puts a create of its parent before what is created or
renamed there, so that no such change is staged without a parent. -/
theorem order_parent_first_respects (env : Env) (drive : DriveCompactIndex) (changes : List FileChange) :
    (order_parent_first changes).Perm changes ∧
      (NoCycle changes → ∀ first x rest, order_parent_first changes = first ++ x :: rest → ∀ y, WaitsFor changes x y →
        Creates first x.parent_frs ∧
          ((∀ z ∈ changes, z.created = true → z.frs = x.parent_frs → z = y) → y ∈ first) ∧
          (KeepsFrs changes x.parent_frs → drive.records.length + changes.length < UInt32.size →
            (stage_create env (run_changes env drive first).drive x).2.parent_idx ≠ NO_ENTRY)) := by
  have hperm := order_parent_first_perm changes
  refine ⟨hperm, ?_⟩
  intro hcycle first x rest hsplit y hwaits
  have hsub : ∀ change ∈ first, change ∈ changes := by
    intro change hmem
    apply hperm.mem_iff.mp
    rw [hsplit]
    exact List.mem_append_left _ hmem
  have hcreates : Creates first x.parent_frs :=
    order_parent_first_parents hcycle.acyclic first x rest hsplit ((waits_iff hwaits.mem).mpr ⟨y, hwaits⟩)
  refine ⟨hcreates, ?_, ?_⟩
  · intro honly
    obtain ⟨create, hmem, hcreated, hfrs⟩ := hcreates
    rw [← honly create (hsub create hmem) hcreated hfrs]
    exact hmem
  · intro hkeeps hroom
    have hlength := hperm.length_eq
    rw [hsplit, List.length_append] at hlength
    rw [(stage_create_staged env (run_changes env drive first).drive x).parent]
    apply slot_of_run (fun change hmem => hkeeps change (hsub change hmem))
    · change drive.records.length + first.length < UInt32.size
      omega
    · exact Or.inr hcreates

/-- A new directory, and a file in it. -/
def folder_created : FileChange where
  frs := 32
  parent_frs := 5
  filename := ['d']
  created := true

def nested_created : FileChange where
  frs := 33
  parent_frs := 32
  filename := ['f']
  created := true

def nested_deleted : FileChange where
  frs := 33
  parent_frs := 32
  filename := ['f']
  deleted := true

def folder_deleted : FileChange where
  frs := 32
  parent_frs := 5
  filename := ['d']
  deleted := true

/-- The file comes first in the batch and last in the output, and finds its folder. -/
theorem order_parent_first_respects_file :
    Creates [folder_created] 32 ∧
      (stage_create sample_env (run_changes sample_env bare_drive [folder_created]).drive nested_created).2.parent_idx ≠ NO_ENTRY := by
  have hcycle : NoCycle [nested_created, folder_created] := by
    apply noCycle_of_rank UInt64.toNat
    intro x y h
    have hfrs := h.frs_eq
    rcases List.mem_pair.mp h.mem with rfl | rfl
    · rw [hfrs]
      decide
    · rcases List.mem_pair.mp h.mem_create with rfl | rfl
      · exact absurd hfrs (by decide)
      · exact absurd hfrs (by decide)
  have hwaits : WaitsFor [nested_created, folder_created] nested_created folder_created :=
    ⟨by decide, by decide, by decide, by decide, rfl, rfl⟩
  obtain ⟨hcreates, -, hstaged⟩ := (order_parent_first_respects sample_env bare_drive [nested_created, folder_created]).2 hcycle
    [folder_created] nested_created [] (by decide) folder_created hwaits
  refine ⟨hcreates, hstaged ?_ (by decide)⟩
  intro change hmem
  rcases List.mem_pair.mp hmem with rfl | rfl
  · exact fun h => absurd h (by decide)
  · exact fun _ => ⟨rfl, fun _ => by decide⟩

/-- A delete does not wait for the create of its parent, and a create whose parent the batch deletes
again is staged without one. -/
theorem order_parent_first_leaves_deletes :
    (∃ rank : UInt64 → Nat, ∀ x ∈ [nested_deleted, folder_created], ∀ y ∈ [nested_deleted, folder_created],
        y.created = true → y.frs = x.parent_frs → rank y.frs < rank x.frs) ∧
      folder_created.created = true ∧ folder_created.frs = nested_deleted.parent_frs ∧
      order_parent_first [nested_deleted, folder_created] = [nested_deleted, folder_created] ∧
      order_parent_first [folder_created, folder_deleted, nested_created] = [folder_created, folder_deleted] ++ [nested_created] ∧
      (stage_create sample_env (run_changes sample_env bare_drive [folder_created, folder_deleted]).drive nested_created).2.parent_idx =
        NO_ENTRY := by
  refine ⟨⟨UInt64.toNat, by decide⟩, rfl, rfl, by decide, by decide, by decide⟩

end uffs.usn
