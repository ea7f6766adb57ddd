import Uffs.Compact.Index

open uffs.mft uffs.text

namespace uffs.compact

/-- Characters of a name; its byte length when the range or the encoding is bad. -/
def name_char_count (rec : CompactRecord) (names : List UInt8) : Nat :=
  match (rec.name_range names).bind from_utf8 with
  | none => rec.name_len.toNat
  | some name => name.length

/-- Letter and colon. -/
def DRIVE_PREFIX_CHARS : Nat := 2

/-- `slot.path_len = value` for a slot in range. -/
def set_path_len (records : List CompactRecord) (idx : UInt32) (value : UInt16) : List CompactRecord :=
  records.modify idx.toNat fun rec => { rec with path_len := value }

/-- Length of a root's path. -/
def root_path_len (rec : CompactRecord) (names : List UInt8) : Nat :=
  let name_chars := name_char_count rec names
  if name_chars = 0 then DRIVE_PREFIX_CHARS + 1 else DRIVE_PREFIX_CHARS + 1 + name_chars

/-- Children of a record in slot order, dead ones included. -/
def siblings_of (records : List CompactRecord) (parent : UInt32) : List UInt32 :=
  ((List.range records.length).map len_to_u32).filter fun idx =>
    match records[idx.toNat]? with
    | none => false
    | some rec => rec.parent_idx != NO_ENTRY && rec.parent_idx == parent

def roots_of (records : List CompactRecord) : List UInt32 :=
  ((List.range records.length).map len_to_u32).filter fun idx =>
    match records[idx.toNat]? with
    | none => false
    | some rec => rec.parent_idx == NO_ENTRY

/-- Path length of a child from the stored length of its parent. -/
def child_path_len (parent_pl : UInt16) (rec : CompactRecord) (names : List UInt8) : Nat :=
  parent_pl.toNat + 1 + name_char_count rec names

/-- One pop of the breadth-first queue: every child gets its length from the popped record. -/
def visit_children (names : List UInt8) (records : List CompactRecord) (idx : UInt32) : List CompactRecord :=
  let parent_pl := (records[idx.toNat]?.map CompactRecord.path_len).getD 0
  (siblings_of records idx).foldl (fun recs child =>
    match recs[child.toNat]? with
    | none => recs
    | some rec => set_path_len recs child (len_to_u16 (child_path_len parent_pl rec names))) records

/-- Breadth-first loop. Every record has one parent, so each enters the queue at most once and
`fuel` pops, one per record, empty it. -/
def path_len_bfs (names : List UInt8) : Nat → List UInt32 → List CompactRecord → List CompactRecord
  | 0, _, records => records
  | _ + 1, [], records => records
  | fuel + 1, idx :: queue, records =>
    path_len_bfs names fuel (queue ++ siblings_of records idx) (visit_children names records idx)

def seed_roots (names : List UInt8) (records : List CompactRecord) : List CompactRecord :=
  (roots_of records).foldl (fun recs root =>
    match recs[root.toNat]? with
    | none => recs
    | some rec => set_path_len recs root (len_to_u16 (root_path_len rec names))) records

/-- Full recomputation of every path length. -/
def compute_path_lengths (records : List CompactRecord) (names : List UInt8) : List CompactRecord :=
  path_len_bfs names records.length (roots_of records) (seed_roots names records)

/-- Path length of one record from the stored length of its parent. -/
def path_len_from_parent (records : List CompactRecord) (names : List UInt8) (idx : UInt32) : Nat :=
  match records[idx.toNat]? with
  | none => 0
  | some rec =>
    if rec.parent_idx = NO_ENTRY then root_path_len rec names
    else child_path_len ((records[rec.parent_idx.toNat]?.map CompactRecord.path_len).getD 0) rec names

/-- Children the subtree walk pushes: the base row as it stands without an overlay, else the
merged row restricted to live children. -/
def push_children (records : List CompactRecord) (children : ChildrenIndex) (delta : Option IndexDelta)
    (parent : UInt32) : List UInt32 :=
  let base := children.get parent.toNat
  match delta with
  | none => base
  | some overlay =>
    merge_filter base (overlay.children parent) fun child =>
      match records[child.toNat]? with
      | none => false
      | some rec => rec.parent_idx == parent && rec.name_len != 0

/-- Depth-first collection of descendants. The stack is kept with its top first. In a forest
every descendant is popped once; on a parent cycle the source loop does not end, the model stops
when `fuel` is used up. -/
def collect_descendants (records : List CompactRecord) (children : ChildrenIndex) (delta : Option IndexDelta) :
    Nat → List UInt32 → List UInt32
  | 0, _ => []
  | _ + 1, [] => []
  | fuel + 1, idx :: stack =>
    idx :: collect_descendants records children delta fuel
      ((push_children records children delta idx).reverse ++ stack)

/-- `(path_len + shift).clamp(0, u16::MAX)`. -/
def shift_path_len (path_len : UInt16) (shift : Int) : UInt16 :=
  UInt16.ofNat (min 65535 (max 0 ((path_len.toNat : Int) + shift))).toNat

def shift_one (shift : Int) (records : List CompactRecord) (idx : UInt32) : List CompactRecord :=
  records.modify idx.toNat fun rec => { rec with path_len := shift_path_len rec.path_len shift }

def shift_subtree_path_len (records : List CompactRecord) (children : ChildrenIndex) (delta : Option IndexDelta)
    (root : UInt32) (shift : Int) : List CompactRecord :=
  let descendants := collect_descendants records children delta records.length
    (push_children records children delta root).reverse
  descendants.foldl (shift_one shift) records

/-- One entry of the change set. -/
def refresh_path_len (names : List UInt8) (children : ChildrenIndex) (delta : Option IndexDelta)
    (records : List CompactRecord) (change : PathChange) : List CompactRecord :=
  match records[change.idx.toNat]? with
  | none => records
  | some rec =>
    if rec.name_len = 0 ∧ rec.parent_idx = NO_ENTRY then records
    else
      let new_pl := path_len_from_parent records names change.idx
      let updated := set_path_len records change.idx (len_to_u16 new_pl)
      let shift : Int := new_pl - rec.path_len.toNat
      if change.subtree && shift != 0 then shift_subtree_path_len updated children delta change.idx shift
      else updated

def update_path_lengths_incremental (records : List CompactRecord) (names : List UInt8) (children : ChildrenIndex)
    (delta : Option IndexDelta) (changed : List PathChange) : List CompactRecord :=
  changed.foldl (refresh_path_len names children delta) records

variable {before after : List CompactRecord}

section frame

/-- Everything but the path length. -/
def CompactRecord.core (rec : CompactRecord) : CompactRecord := { rec with path_len := 0 }

/-- The two record columns agree on everything but path lengths. -/
def SameCore (before after : List CompactRecord) : Prop :=
  before.map CompactRecord.core = after.map CompactRecord.core

variable (records : List CompactRecord) (names : List UInt8)

theorem SameCore.refl : SameCore records records := rfl

theorem SameCore.trans {a b c : List CompactRecord} (hab : SameCore a b) (hbc : SameCore b c) : SameCore a c :=
  Eq.trans hab hbc

theorem SameCore.symm {a b : List CompactRecord} (h : SameCore a b) : SameCore b a := Eq.symm h

theorem sameCore_modify (i : Nat) (f : CompactRecord → UInt16) :
    SameCore records (records.modify i fun rec => { rec with path_len := f rec }) := by
  unfold SameCore
  apply List.ext_getElem?
  intro j
  rw [List.getElem?_map, List.getElem?_map, List.getElem?_modify]
  cases records[j]? with
  | none => rfl
  | some rec =>
    by_cases hij : i = j
    · simp [hij, CompactRecord.core]
    · simp [hij]

theorem sameCore_foldl {α : Type} {f : List CompactRecord → α → List CompactRecord}
    (hf : ∀ records a, SameCore records (f records a)) (list : List α) (records : List CompactRecord) :
    SameCore records (list.foldl f records) := by
  induction list generalizing records with
  | nil => exact SameCore.refl records
  | cons a list ih => exact (hf records a).trans (ih (f records a))

theorem sameCore_seed_roots (records : List CompactRecord) : SameCore records (seed_roots names records) := by
  apply sameCore_foldl
  intro recs root
  split
  · exact SameCore.refl recs
  · exact sameCore_modify recs _ _

theorem sameCore_visit_children (records : List CompactRecord) (idx : UInt32) :
    SameCore records (visit_children names records idx) := by
  apply sameCore_foldl
  intro recs child
  split
  · exact SameCore.refl recs
  · exact sameCore_modify recs _ _

theorem sameCore_path_len_bfs (fuel : Nat) (queue : List UInt32) (records : List CompactRecord) :
    SameCore records (path_len_bfs names fuel queue records) := by
  induction fuel generalizing queue records with
  | zero => exact SameCore.refl records
  | succ fuel ih =>
    cases queue with
    | nil => exact SameCore.refl records
    | cons idx queue => exact (sameCore_visit_children names records idx).trans (ih _ _)

/-- A full recomputation touches path lengths only. -/
theorem sameCore_compute_path_lengths : SameCore records (compute_path_lengths records names) :=
  (sameCore_seed_roots names records).trans (sameCore_path_len_bfs names _ _ _)

theorem sameCore_refresh_path_len (children : ChildrenIndex) (delta : Option IndexDelta) (records : List CompactRecord)
    (change : PathChange) : SameCore records (refresh_path_len names children delta records change) := by
  unfold refresh_path_len
  split
  · exact SameCore.refl records
  · split
    · exact SameCore.refl records
    · dsimp only
      have hset : ∀ value, SameCore records (set_path_len records change.idx value) := fun value =>
        sameCore_modify records _ _
      split
      · exact (hset _).trans (sameCore_foldl (fun recs idx => sameCore_modify recs _ _) _ _)
      · exact hset _

/-- An incremental update touches path lengths only. -/
theorem sameCore_update_path_lengths_incremental (children : ChildrenIndex) (delta : Option IndexDelta)
    (changed : List PathChange) : SameCore records (update_path_lengths_incremental records names children delta changed) :=
  sameCore_foldl (sameCore_refresh_path_len names children delta) changed records

theorem SameCore.length_eq (h : SameCore before after) :
    after.length = before.length := by
  have hlen := congrArg List.length h
  rw [List.length_map, List.length_map] at hlen
  exact hlen.symm

/-- Slot by slot view of `SameCore`. -/
theorem SameCore.getElem? (h : SameCore before after) (i : Nat) :
    after[i]?.map CompactRecord.core = before[i]?.map CompactRecord.core := by
  have hget := congrArg (fun list => list[i]?) h
  simpa only [List.getElem?_map] using hget.symm

end frame

/-- A property of single rows that the path length does not affect, as `SameCore` transports it. -/
theorem SameCore.exists_core (h : SameCore before after) {c : Nat}
    {rec : CompactRecord} (hget : after[c]? = some rec) :
    ∃ rec0, before[c]? = some rec0 ∧ rec0.core = rec.core := by
  have hcore := h.getElem? c
  rw [hget, Option.map_some] at hcore
  obtain ⟨rec0, hget0, hrec0⟩ := Option.map_eq_some_iff.mp hcore.symm
  exact ⟨rec0, hget0, hrec0⟩

section core

variable {a b : CompactRecord}

section

variable (h : a.core = b.core)

include h

theorem name_offset_of_core : a.name_offset = b.name_offset := by
  have hfield := congrArg CompactRecord.name_offset h
  exact hfield

theorem name_len_of_core : a.name_len = b.name_len := by
  have hfield := congrArg CompactRecord.name_len h
  exact hfield

theorem parent_idx_of_core : a.parent_idx = b.parent_idx := by
  have hfield := congrArg CompactRecord.parent_idx h
  exact hfield

theorem extension_id_of_core : a.extension_id = b.extension_id := by
  have hfield := congrArg CompactRecord.extension_id h
  exact hfield

theorem file_ref_of_core : a.file_ref = b.file_ref := by
  have hfield := congrArg CompactRecord.file_ref h
  exact hfield

theorem live_of_core : a.Live ↔ b.Live := by
  unfold CompactRecord.Live
  rw [name_len_of_core h]

theorem inRange_of_core (names : List UInt8) : a.InRange names ↔ b.InRange names := by
  unfold CompactRecord.InRange
  rw [name_len_of_core h, name_offset_of_core h]

theorem name_range_of_core (names : List UInt8) : a.name_range names = b.name_range names := by
  unfold CompactRecord.name_range
  rw [name_len_of_core h, name_offset_of_core h]

end

end core

end uffs.compact
