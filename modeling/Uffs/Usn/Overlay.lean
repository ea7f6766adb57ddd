import Uffs.Usn.Linked
import Uffs.Compact.TrigramBuild

open uffs.lib uffs.mft uffs.text uffs.trigram uffs.compact

namespace uffs.usn

/-- The overlay has all postings of a row. -/
structure Added (drive : DriveCompactIndex) (delta : IndexDelta) (c : UInt32) (rec : CompactRecord) : Prop where
  ext : c ∈ delta.ext rec.extension_id
  children : rec.parent_idx ≠ NO_ENTRY → c ∈ delta.children rec.parent_idx
  trigram : ∀ key ∈ record_trigrams drive.names drive.fold rec, c ∈ delta.trigram key

/-- The overlay knows nothing of a row, which is still the one the base was built from. -/
structure Untouched (base : List CompactRecord) (delta : IndexDelta) (c : UInt32) (rec : CompactRecord) : Prop where
  same : ∃ rec0, base[c.toNat]? = some rec0 ∧ rec0.core = rec.core
  unmasked : c ∉ delta.tombstones
  trigram : ∀ key, c ∉ delta.trigram key

/-- The tables were built from `base`, and every live row is served by them or by `delta`. -/
structure Overlaid (drive : DriveCompactIndex) (base : List CompactRecord) (base_names : List UInt8)
    (delta : IndexDelta) : Prop where
  children : drive.children = ChildrenIndex.build base
  ext_index : drive.ext_index = ExtensionIndex.build base
  trigram : drive.trigram = TrigramIndex.build base base_names drive.fold
  length : base.length ≤ drive.records.length
  names : ∃ tail, drive.names = base_names ++ tail
  base_fits : ∀ rec ∈ base, RowFits base_names rec
  base_parents : ∀ rec ∈ base, rec.parent_idx = NO_ENTRY ∨ rec.parent_idx.toNat < base.length
  fits : ∀ rec ∈ drive.records, RowFits drive.names rec
  sorted : delta.Sorted
  slot : ∀ (c : UInt32) rec, drive.records[c.toNat]? = some rec → rec.Live →
    Untouched base delta c rec ∨ Added drive delta c rec

/-- The overlay invariant of an index. Without an overlay the base is the current rows. -/
def OverlayInv (drive : DriveCompactIndex) (base : List CompactRecord) (base_names : List UInt8) : Prop :=
  Overlaid drive base base_names (drive.delta.getD {}) ∧
    (drive.delta = none → SameCore base drive.records ∧ base_names = drive.names)

/-- Rows of one overlay are rows of another. -/
structure DeltaLe (before after : IndexDelta) : Prop where
  trigram : ∀ key, before.trigram key ⊆ after.trigram key
  ext : ∀ key, before.ext key ⊆ after.ext key
  children : ∀ key, before.children key ⊆ after.children key

theorem DeltaLe.refl (delta : IndexDelta) : DeltaLe delta delta :=
  ⟨fun _ _ h => h, fun _ _ h => h, fun _ _ h => h⟩

theorem DeltaLe.trans {a b c : IndexDelta} (hab : DeltaLe a b) (hbc : DeltaLe b c) : DeltaLe a c :=
  ⟨fun key _ h => hbc.trigram key (hab.trigram key h), fun key _ h => hbc.ext key (hab.ext key h),
    fun key _ h => hbc.children key (hab.children key h)⟩

theorem add_record_le (delta : IndexDelta) (idx : UInt32) (trigrams : List UInt64) (ext_id : UInt16)
    (parent_idx : UInt32) : DeltaLe delta (delta.add_record idx trigrams ext_id parent_idx) := by
  refine ⟨fun key c hc => mem_foldl_insert_at.mpr (Or.inr hc), fun key c hc => mem_insert_at.mpr (Or.inr hc),
    fun key c hc => ?_⟩
  unfold IndexDelta.add_record
  split
  · exact mem_insert_at.mpr (Or.inr hc)
  · exact hc

theorem overlay_add_le (drive : DriveCompactIndex) (delta : IndexDelta) (change : PathChange) :
    DeltaLe delta (drive.overlay_add delta change) := by
  unfold DriveCompactIndex.overlay_add
  split
  · exact DeltaLe.refl delta
  · split
    · exact DeltaLe.refl delta
    · exact add_record_le delta _ _ _ _

variable {delta : IndexDelta} {drive : DriveCompactIndex}

theorem overlay_add_sorted (drive : DriveCompactIndex) (hsorted : delta.Sorted) (change : PathChange) :
    (drive.overlay_add delta change).Sorted := by
  unfold DriveCompactIndex.overlay_add
  split
  · exact hsorted
  · split
    · exact hsorted
    · exact hsorted.add_record _ _ _ _

theorem overlay_add_tombstones (drive : DriveCompactIndex) (delta : IndexDelta) (change : PathChange) :
    (drive.overlay_add delta change).tombstones = delta.tombstones := by
  unfold DriveCompactIndex.overlay_add
  split
  · rfl
  · split <;> rfl

/-- Only the changed slot can enter a trigram row. -/
theorem mem_trigram_overlay_add {change : PathChange} {c : UInt32} {key : UInt64}
    (hmem : c ∈ (drive.overlay_add delta change).trigram key) : c = change.idx ∨ c ∈ delta.trigram key := by
  unfold DriveCompactIndex.overlay_add at hmem
  split at hmem
  · exact Or.inr hmem
  · split at hmem
    · exact Or.inr hmem
    · cases mem_foldl_insert_at.mp hmem with
      | inl h => exact Or.inl h.2
      | inr h => exact Or.inr h

theorem overlay_add_added (delta : IndexDelta) {change : PathChange} {rec : CompactRecord}
    (hget : drive.records[change.idx.toNat]? = some rec) (hlive : rec.Live) :
    Added drive (drive.overlay_add delta change) change.idx rec := by
  have heq : drive.overlay_add delta change = delta.add_record change.idx
      (record_trigrams drive.names drive.fold rec) rec.extension_id rec.parent_idx := by
    unfold DriveCompactIndex.overlay_add
    rw [hget, record_trigrams_eq]
    exact if_neg hlive
  rw [heq]
  refine ⟨mem_insert_at.mpr (Or.inl ⟨rfl, rfl⟩), fun hparent => ?_, fun key hkey => ?_⟩
  · simp only [IndexDelta.add_record, if_pos hparent]
    exact mem_insert_at.mpr (Or.inl ⟨rfl, rfl⟩)
  · exact mem_foldl_insert_at.mpr (Or.inl ⟨hkey, rfl⟩)

theorem Added.mono {delta delta' : IndexDelta} {c : UInt32} {rec : CompactRecord} (h : Added drive delta c rec)
    (hle : DeltaLe delta delta') : Added drive delta' c rec :=
  ⟨hle.ext _ h.ext, fun hparent => hle.children _ (h.children hparent), fun key hkey => hle.trigram key (h.trigram key hkey)⟩

theorem foldl_tombstone_sorted (hsorted : delta.Sorted) (tombstones : List UInt32) :
    (tombstones.foldl IndexDelta.tombstone delta).Sorted :=
  foldl_invariant hsorted fun _ idx _ hs => hs.tombstone idx

theorem foldl_tombstone_postings (delta : IndexDelta) (tombstones : List UInt32) :
    (tombstones.foldl IndexDelta.tombstone delta).trigram = delta.trigram ∧
      DeltaLe delta (tombstones.foldl IndexDelta.tombstone delta) := by
  refine foldl_invariant (motive := fun d => d.trigram = delta.trigram ∧ DeltaLe delta d)
    ⟨rfl, DeltaLe.refl delta⟩ fun s idx _ hs => ?_
  obtain ⟨htrigram, hext, hchildren⟩ := s.tombstone_postings idx
  refine ⟨htrigram.trans hs.1, hs.2.trans ⟨fun key => ?_, fun key => ?_, fun key => ?_⟩⟩
  · rw [htrigram]
    exact fun _ h => h
  · rw [hext]
    exact fun _ h => h
  · rw [hchildren]
    exact fun _ h => h

theorem mem_foldl_tombstone {tombstones : List UInt32} {c : UInt32} :
    c ∈ (tombstones.foldl IndexDelta.tombstone delta).tombstones ↔ c ∈ tombstones ∨ c ∈ delta.tombstones := by
  induction tombstones generalizing delta with
  | nil => simp
  | cons idx tombstones ih =>
    rw [List.foldl_cons, ih, IndexDelta.mem_tombstones_tombstone, List.mem_cons]
    tauto

/-- Rows that agree up to path lengths have the same postings. -/
theorem record_trigrams_of_core {a b : CompactRecord} (h : a.core = b.core) (names : List UInt8) (fold : CaseFold) :
    record_trigrams names fold a = record_trigrams names fold b := by
  simp only [record_trigrams, name_range_of_core h]

theorem record_trigrams_append {rec : CompactRecord} {names : List UInt8} (hfits : RowFits names rec)
    (hlive : rec.Live) (tail : List UInt8) (fold : CaseFold) :
    record_trigrams (names ++ tail) fold rec = record_trigrams names fold rec := by
  simp only [record_trigrams, CompactRecord.name_range_append (hfits hlive)]

end uffs.usn
