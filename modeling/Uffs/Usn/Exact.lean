import Uffs.Usn.OverlayRun

open uffs.lib uffs.mft uffs.bloom uffs.compact

namespace uffs.usn

/-- The ascending list of the live slots whose row satisfies `P`. -/
structure LiveList (records : List CompactRecord) (P : CompactRecord → Prop) (list : List UInt32) : Prop where
  ascending : postings.Ascending list
  mem : ∀ c : UInt32, c ∈ list ↔ ∃ rec, records[c.toNat]? = some rec ∧ rec.Live ∧ P rec

theorem LiveList.unique {records : List CompactRecord} {P : CompactRecord → Prop} {left right : List UInt32}
    (hleft : LiveList records P left) (hright : LiveList records P right) : left = right :=
  hleft.ascending.eq_of_mem_iff hright.ascending fun c => (hleft.mem c).trans (hright.mem c).symm

/-- Children and extension lookups are exact, now and after folding the overlay. -/
structure OverlayExact (drive : DriveCompactIndex) : Prop where
  children : ∀ p : UInt32, p.toNat < drive.records.length →
    LiveList drive.records (fun rec => rec.parent_idx = p) (drive.children_of p)
  ext : ∀ e : UInt16, LiveList drive.records (fun rec => rec.extension_id = e) (drive.records_with_ext e)
  children_compact : ∀ p : UInt32, p.toNat < drive.records.length →
    drive.compact_base.children_of p = drive.children_of p
  children_fold : ∀ p : UInt32, p.toNat < drive.records.length →
    drive.fold_delta_for_save.children_of p = drive.children_of p
  ext_compact : ∀ e : UInt16, drive.compact_base.records_with_ext e = drive.records_with_ext e
  ext_fold : ∀ e : UInt16, drive.fold_delta_for_save.records_with_ext e = drive.records_with_ext e

/-- Rows without a name have no parent. -/
def Detached (records : List CompactRecord) : Prop :=
  ∀ rec ∈ records, ¬ rec.Live → rec.parent_idx = NO_ENTRY

variable {drive : DriveCompactIndex} {base : List CompactRecord} {base_names : List UInt8} {delta : IndexDelta}

section

variable (h : Overlaid drive base base_names delta) (hroomy : Roomy drive)

include h hroomy

theorem Overlaid.base_length_lt : base.length < UInt32.size :=
  Nat.lt_of_le_of_lt h.length hroomy.lt_size

/-- A live row is listed under its extension by the base or by the overlay. -/
theorem Overlaid.mem_ext {c : UInt32} {rec : CompactRecord} (hget : drive.records[c.toNat]? = some rec) (hlive : rec.Live) :
    c ∈ drive.ext_index.get rec.extension_id.toNat ∨ c ∈ delta.ext rec.extension_id := by
  cases h.slot c rec hget hlive with
  | inl huntouched =>
    obtain ⟨rec0, hget0, hcore⟩ := huntouched.same
    left
    rw [h.ext_index, ExtensionIndex.mem_build_get (h.base_length_lt hroomy)]
    exact ⟨rec0, hget0, (live_of_core hcore).mpr hlive, by rw [extension_id_of_core hcore]⟩
  | inr hadded => exact Or.inr hadded.ext

/-- A live row is listed under its parent by the base or by the overlay. -/
theorem Overlaid.mem_children {c : UInt32} {rec : CompactRecord} (hget : drive.records[c.toNat]? = some rec)
    (hlive : rec.Live) (hparent : rec.parent_idx ≠ NO_ENTRY) :
    c ∈ drive.children.get rec.parent_idx.toNat ∨ c ∈ delta.children rec.parent_idx := by
  cases h.slot c rec hget hlive with
  | inl huntouched =>
    obtain ⟨rec0, hget0, hcore⟩ := huntouched.same
    have hparentEq := parent_idx_of_core hcore
    left
    rw [h.children, ChildrenIndex.mem_build_get (h.base_length_lt hroomy)]
    refine ⟨?_, rec0, hget0, by rwa [hparentEq], by rw [hparentEq]⟩
    cases h.base_parents rec0 (List.mem_of_getElem? hget0) with
    | inl hnone => exact absurd (hparentEq ▸ hnone) hparent
    | inr hlt => exact hparentEq ▸ hlt
  | inr hadded => exact Or.inr (hadded.children hparent)

theorem Overlaid.children_ascending (p : Nat) : postings.Ascending (drive.children.get p) :=
  h.children ▸ ChildrenIndex.build_get_ascending (h.base_length_lt hroomy) p

theorem Overlaid.ext_ascending (e : Nat) : postings.Ascending (drive.ext_index.get e) :=
  h.ext_index ▸ ExtensionIndex.build_get_ascending (h.base_length_lt hroomy) e

end

/-- Extension lookups are exact in every state of a run. -/
theorem records_with_ext_exact (h : OverlayInv drive base base_names) (hroomy : Roomy drive) (e : UInt16) :
    LiveList drive.records (fun rec => rec.extension_id = e) (drive.records_with_ext e) := by
  have hbase := h.1.ext_ascending hroomy e.toNat
  unfold DriveCompactIndex.records_with_ext
  cases hdelta : drive.delta with
  | none =>
    obtain ⟨hcore, -⟩ := h.2 hdelta
    refine ⟨hbase, fun c => ?_⟩
    rw [h.1.ext_index, ExtensionIndex.mem_build_get (h.1.base_length_lt hroomy)]
    constructor
    · rintro ⟨rec0, hget0, hlive, hext⟩
      have hsame := hcore.getElem? c.toNat
      rw [hget0, Option.map_some] at hsame
      obtain ⟨rec, hget, hrec⟩ := Option.map_eq_some_iff.mp hsame
      refine ⟨rec, hget, (live_of_core hrec).mpr hlive, ?_⟩
      rw [extension_id_of_core hrec]
      exact UInt16.toNat.inj hext
    · rintro ⟨rec, hget, hlive, rfl⟩
      obtain ⟨rec0, hget0, hrec0⟩ := SameCore.exists_core hcore hget
      exact ⟨rec0, hget0, (live_of_core hrec0).mpr hlive, by rw [extension_id_of_core hrec0]⟩
  | some delta =>
    have hoverlaid := h.1
    rw [hdelta, Option.getD_some] at hoverlaid
    dsimp only
    rw [merge_postings_eq_union]
    refine ⟨(postings.union_ascending hbase (hoverlaid.sorted.ext_ascending e)).filter _, fun c => ?_⟩
    rw [List.mem_filter, postings.mem_union]
    constructor
    · rintro ⟨-, hvalid⟩
      split at hvalid
      · cases hvalid
      next rec hget =>
        obtain ⟨hext, hlen⟩ : rec.extension_id = e ∧ rec.name_len ≠ 0 := by simpa using hvalid
        exact ⟨rec, hget, hlen, hext⟩
    · rintro ⟨rec, hget, hlive, rfl⟩
      refine ⟨hoverlaid.mem_ext hroomy hget hlive, ?_⟩
      rw [hget]
      simpa [CompactRecord.Live] using hlive

/-- A live row is listed under its parent. -/
theorem mem_children_of (h : OverlayInv drive base base_names) (hroomy : Roomy drive) {c : UInt32} {rec : CompactRecord}
    (hget : drive.records[c.toNat]? = some rec) (hlive : rec.Live) (hp : rec.parent_idx.toNat < drive.records.length) :
    c ∈ drive.children_of rec.parent_idx := by
  have hne : rec.parent_idx ≠ NO_ENTRY := fun heq => by
    unfold Roomy at hroomy
    rw [heq] at hp
    omega
  unfold DriveCompactIndex.children_of
  cases hdelta : drive.delta with
  | none =>
    obtain ⟨hcore, -⟩ := h.2 hdelta
    rw [h.1.children, ChildrenIndex.mem_build_get (h.1.base_length_lt hroomy)]
    obtain ⟨rec0, hget0, hrec0⟩ := SameCore.exists_core hcore hget
    have hparentEq := parent_idx_of_core hrec0
    exact ⟨hcore.length_eq ▸ hp, rec0, hget0, by rwa [hparentEq], by rw [hparentEq]⟩
  | some delta =>
    have hoverlaid := h.1
    rw [hdelta, Option.getD_some] at hoverlaid
    dsimp only [merge_filter]
    rw [List.mem_filter, postings.mem_union]
    refine ⟨hoverlaid.mem_children hroomy hget hlive hne, ?_⟩
    rw [hget]
    simpa [CompactRecord.Live] using hlive

theorem children_of_ascending (h : OverlayInv drive base base_names) (hroomy : Roomy drive) (p : UInt32) :
    postings.Ascending (drive.children_of p) := by
  have hbase := h.1.children_ascending hroomy p.toNat
  unfold DriveCompactIndex.children_of
  cases hdelta : drive.delta with
  | none => exact hbase
  | some delta =>
    have hoverlaid := h.1
    rw [hdelta, Option.getD_some] at hoverlaid
    exact (postings.union_ascending hbase (hoverlaid.sorted.children_ascending p)).filter _

/-- Only children are listed; through an overlay only live ones. -/
theorem children_of_sound (h : OverlayInv drive base base_names) (hroomy : Roomy drive) {c p : UInt32}
    (hc : c ∈ drive.children_of p) :
    ∃ rec, drive.records[c.toNat]? = some rec ∧ rec.parent_idx = p ∧ (drive.delta = none ∨ rec.Live) := by
  unfold DriveCompactIndex.children_of at hc
  cases hdelta : drive.delta with
  | none =>
    obtain ⟨hcore, -⟩ := h.2 hdelta
    rw [hdelta] at hc
    rw [h.1.children, ChildrenIndex.mem_build_get (h.1.base_length_lt hroomy)] at hc
    obtain ⟨-, rec0, hget0, -, hparent⟩ := hc
    obtain ⟨rec, hget, hrec⟩ := SameCore.exists_core hcore.symm hget0
    exact ⟨rec, hget, (parent_idx_of_core hrec).trans (UInt32.toNat.inj hparent), Or.inl rfl⟩
  | some delta =>
    rw [hdelta] at hc
    obtain ⟨-, hvalid⟩ := List.mem_filter.mp hc
    split at hvalid
    · cases hvalid
    next rec hget =>
      obtain ⟨hparent, hlen⟩ : rec.parent_idx = p ∧ rec.name_len ≠ 0 := by simpa using hvalid
      exact ⟨rec, hget, hparent, Or.inr hlen⟩

/-- Children lookups through an overlay are exact; without one they are when no dead row has a
parent, since the base table is built from all rows. -/
theorem children_of_exact (h : OverlayInv drive base base_names) (hroomy : Roomy drive) (hdetached : Detached drive.records)
    {p : UInt32} (hp : p.toNat < drive.records.length) :
    LiveList drive.records (fun rec => rec.parent_idx = p) (drive.children_of p) := by
  refine ⟨children_of_ascending h hroomy p, fun c => ⟨fun hc => ?_, ?_⟩⟩
  · obtain ⟨rec, hget, hparent, -⟩ := children_of_sound h hroomy hc
    refine ⟨rec, hget, ?_, hparent⟩
    by_contra hdead
    rw [← hparent, hdetached rec (List.mem_of_getElem? hget) hdead] at hp
    exact absurd hroomy (Nat.not_lt.mpr (Nat.le_of_lt hp))
  · rintro ⟨rec, hget, hlive, rfl⟩
    exact mem_children_of h hroomy hget hlive hp

/-- State by state: the overlay is exact if and only if no dead row has a parent. -/
theorem overlayExact_iff_detached (h : OverlayInv drive base base_names)
    (hlinked : Linked drive.records drive.frs_to_compact) (hroomy : Roomy drive) :
    OverlayExact drive ↔ Detached drive.records := by
  have hcompact := overlayInv_compact_base hlinked h.1.fits
  constructor
  · intro hexact rec hmem hdead
    by_contra hparent
    obtain ⟨i, hget⟩ := List.getElem?_of_mem hmem
    have hi : i < drive.records.length := (List.getElem?_eq_some_iff.mp hget).1
    have hslot : (len_to_u32 i).toNat = i := len_to_u32_toNat (hi.trans hroomy.lt_size)
    have hp : rec.parent_idx.toNat < drive.records.length := by
      cases hlinked.parents rec hmem with
      | inl hnone => exact absurd hnone hparent
      | inr hlt => exact hlt
    -- The rebuilt table lists the dead row under its parent.
    have hlisted : len_to_u32 i ∈ drive.compact_base.children_of rec.parent_idx := by
      change len_to_u32 i ∈ (ChildrenIndex.build drive.records).get rec.parent_idx.toNat
      rw [ChildrenIndex.mem_build_get hroomy.lt_size]
      exact ⟨hp, rec, by rw [hslot]; exact hget, hparent, rfl⟩
    rw [hexact.children_compact _ hp, (hexact.children _ hp).mem, hslot, hget] at hlisted
    obtain ⟨rec', heq, hlive, -⟩ := hlisted
    exact hdead (Option.some.inj heq ▸ hlive)
  · intro hdetached
    have hchildren : ∀ p : UInt32, p.toNat < drive.records.length →
        drive.compact_base.children_of p = drive.children_of p := fun p hp =>
      (children_of_exact hcompact hroomy hdetached hp).unique (children_of_exact h hroomy hdetached hp)
    have hext : ∀ e : UInt16, drive.compact_base.records_with_ext e = drive.records_with_ext e := fun e =>
      (records_with_ext_exact hcompact hroomy e).unique (records_with_ext_exact h hroomy e)
    refine ⟨fun p hp => children_of_exact h hroomy hdetached hp, records_with_ext_exact h hroomy, hchildren, ?_,
      hext, ?_⟩
    · intro p hp
      cases fold_delta_for_save_eq drive with
      | inl heq => rw [heq]
      | inr heq => rw [heq, hchildren p hp]
    · intro e
      cases fold_delta_for_save_eq drive with
      | inl heq => rw [heq]
      | inr heq => rw [heq, hext e]

theorem detached_of_core {records records' : List CompactRecord} (hcore : SameCore records records')
    (h : Detached records) : Detached records' := by
  intro rec hmem hdead
  obtain ⟨c, hget⟩ := List.getElem?_of_mem hmem
  obtain ⟨rec0, hget0, hrec0⟩ := SameCore.exists_core hcore hget
  rw [← parent_idx_of_core hrec0]
  exact h rec0 (List.mem_of_getElem? hget0) fun hlive => hdead ((live_of_core hrec0).mp hlive)

/-- A batch leaves no dead row under a parent: deletes detach the slot. -/
theorem Loop.detached {start : DriveCompactIndex} {patch : Patch} (hloop : Loop start patch)
    (h : Detached start.records) : Detached patch.drive.records := by
  intro rec hmem hdead
  obtain ⟨c, hget⟩ := List.getElem?_of_mem hmem
  cases hloop.slot c rec hget with
  | inl hkept => exact h rec (List.mem_of_getElem? hkept.1) hdead
  | inr hchanged =>
    cases hchanged with
    | inl hcut => exact hcut.2
    | inr hfresh => exact absurd hfresh.1 hdead

theorem Reachable.detached {env : Env} {start drive : DriveCompactIndex} {P : DriveCompactIndex → Prop}
    (hP : ∀ drive, P drive → Roomy drive) (hreach : Reachable env start P drive) (h : Detached start.records) :
    Detached drive.records := by
  refine hreach.induction (motive := fun drive => Detached drive.records) (fun _ => h) ?_ fun _ h => h
  intro drive changes h hok
  have hrebuilt := apply_usn_patch_rebuilt env drive changes
  have hroom := (hP _ hok).lt_size
  rw [hrebuilt.length_eq] at hroom
  exact detached_of_core hrebuilt.core ((run_changes_loop hroom).detached h)

/-- Every record of the table has a valid path, and none of its names is both empty and below a
known parent. -/
def NoStrayRows (index : MftIndex) : Prop :=
  ∀ idx record, index.records[idx]? = some record →
    PathResolver.is_valid_idx (PathResolver.build index) idx = true ∧
    ∀ link ∈ row_links index record, link.name.length = 0 →
      resolve_parent_compact_idx index link.parent_frs record.frs = NO_ENTRY

/-- The rows of a fresh index are detached exactly when the table leaves no stray row. -/
theorem detached_expanded_rows_iff (index : MftIndex) : Detached (expanded_rows index).2 ↔ NoStrayRows index := by
  constructor
  · intro h idx record hget
    have hprimary := expanded_rows_primary hget
    have hvalid : PathResolver.is_valid_idx (PathResolver.build index) idx = true := by
      by_contra hinvalid
      rw [if_neg hinvalid] at hprimary
      exact absurd (h {} (List.mem_of_getElem? hprimary) (fun hlive => hlive rfl)) (by decide)
    refine ⟨hvalid, fun link hlink hempty => ?_⟩
    rw [if_pos hvalid] at hprimary
    have hdead : ∀ names, ¬ (name_row index names record link).Live := fun names hlive => hlive hempty
    have hfirst : link = record.first_name →
        resolve_parent_compact_idx index link.parent_frs record.frs = NO_ENTRY := fun heq => by
      subst heq
      exact h _ (List.mem_of_getElem? hprimary) (hdead index.names)
    cases List.mem_cons.mp hlink with
    | inl heq => exact hfirst heq
    | inr hmore =>
      obtain ⟨row, hrow, names, rfl⟩ := link_row_mem hget hvalid hmore
      exact h _ (List.mem_append_right _ hrow) (hdead names)
  · intro h row hmem hdead
    cases mem_expanded_rows hmem with
    | inl hrow =>
      obtain ⟨idx, record, hget, -, hof⟩ := hrow
      cases hof with
      | name names link hlink heq =>
        subst heq
        exact (h idx record hget).2 link hlink (by simpa [CompactRecord.Live, name_row] using hdead)
      | stream names stream owner _ _ heq =>
        subst heq
        exact absurd (stream_row_live record stream names index owner.1 owner.2) hdead
    | inr hstray =>
      obtain ⟨-, idx, record, hget, hinvalid⟩ := hstray
      rw [(h idx record hget).1] at hinvalid
      cases hinvalid

end uffs.usn
