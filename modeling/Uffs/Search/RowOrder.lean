import Uffs.Lib.TopN
import Uffs.Search.MatchAll

open uffs.lib uffs.text

namespace uffs.search

/-! The order of result rows by a column. -/

structure SortSpec where
  column : FieldId
  descending : Bool
  deriving DecidableEq

/-- The folded texts of a row that the comparisons read. -/
structure RowSortKey where
  name : Str
  path : Str
  path_only : Str
  ext : Str
  file_type : Str
  deriving DecidableEq

/-- Some column of the sort reads the folded text of this one. -/
def key_needed (text_column column : FieldId) (extra_tiers : List SortSpec) : Bool :=
  column == text_column || extra_tiers.any fun tier => tier.column == text_column

def is_strict_numeric : FieldId → Bool
  | .Size | .SizeOnDisk | .Created | .Modified | .Accessed | .Drive | .Descendants | .TreeSize | .TreeAllocated
  | .Bulkiness | .NameLength | .PathLength | .Hidden | .System | .Archive | .ReadOnly | .Compressed | .Encrypted
  | .Sparse | .Reparse | .Offline | .NotIndexed | .Temporary | .Virtual | .Pinned | .Unpinned | .Integrity | .NoScrub
  | .DirectoryFlag | .RecallOnOpen | .RecallOnDataAccess => true
  | _ => false

/-- The bit of a column that is one attribute. -/
def field_to_attr_bit : FieldId → UInt32
  | .Hidden => 0x0002
  | .System => 0x0004
  | .Archive => 0x0020
  | .ReadOnly => 0x0001
  | .Compressed => 0x0800
  | .Encrypted => 0x4000
  | .Sparse => 0x0200
  | .Reparse => 0x0400
  | .Offline => 0x1000
  | .NotIndexed => 0x2000
  | .Temporary => 0x0100
  | .Virtual => 0x00010000
  | .Pinned => 0x00080000
  | .Unpinned => 0x00100000
  | .Integrity => 0x8000
  | .NoScrub => 0x00020000
  | .DirectoryFlag => 0x0010
  | .RecallOnOpen => 0x00040000
  | .RecallOnDataAccess => 0x00400000
  | _ => 0

/-- The attribute of a column is set. -/
def attr_set (column : FieldId) (row : DisplayRow) : Bool := row.flags &&& field_to_attr_bit column != 0

/-- Two rows by a column of numbers or flags; columns of text tie. -/
def compare_numeric_column (column : FieldId) : DisplayRow → DisplayRow → Ordering :=
  match column with
  | .Size => compareOn (·.size)
  | .SizeOnDisk => compareOn (·.allocated)
  | .Created => compareOn (·.created)
  | .Modified => compareOn (·.modified)
  | .Accessed => compareOn (·.accessed)
  | .Drive => compareOn (·.drive)
  | .Descendants => compareOn (·.descendants)
  | .TreeSize => compareOn (·.treesize)
  | .TreeAllocated => compareOn tree_allocated_for_row
  | .Bulkiness => compareOn bulkiness_for_row
  | .NameLength => compareOn fun row => row.name.length
  | .PathLength => compareOn fun row => row.path.length
  | .Malformed => compareLex (compareOn (·.malformed)) (compareOn (·.name))
  | .MalformedPath => compareLex (compareOn (·.malformed_path)) (compareOn (·.name))
  | .Name | .Path | .PathOnly | .Extension | .Type | .Attributes | .AttributeValue | .ParityAttributes | .NameHex =>
    fun _ _ => .eq
  | column => compareLex (compareOn (attr_set column)) (compareOn (·.name))

/-- A row with the texts it is compared by. -/
abbrev Decorated := DisplayRow × RowSortKey

section order

variable (categories : List (Str × List Str)) (fold : CaseFold)

def build_row_sort_key (column : FieldId) (extra_tiers : List SortSpec) (row : DisplayRow) : RowSortKey where
  name := fold.fold_into row.name
  path := if key_needed .Path column extra_tiers then fold.fold_into row.path else []
  path_only := if key_needed .PathOnly column extra_tiers then fold.fold_into row.path_dir else []
  ext := if key_needed .Extension column extra_tiers then fold.fold_into (extract_extension_after_dot row.name) else []
  file_type := if key_needed .Type column extra_tiers then fold.fold_into (semantic_type_for_row categories row) else []

/-- By the folded name, then by the name. -/
def compare_names : Decorated → Decorated → Ordering := compareLex (compareOn (·.2.name)) (compareOn (·.1.name))

/-- Two rows by one column, ascending. -/
def compare_by_column (column : FieldId) : Decorated → Decorated → Ordering :=
  match column with
  | .Path => compareLex (compareOn (·.2.path)) (compareOn (·.1.path))
  | .PathOnly => compareLex (compareOn (·.2.path_only)) (compareOn (·.1.path_dir))
  | .Extension => compareLex (compareOn (·.2.ext)) (compareOn fun entry => extract_extension_after_dot entry.1.name)
  | .Type => compareLex (compareOn (·.2.file_type)) (compareOn fun entry => semantic_type_for_row categories entry.1)
  | .Size => compareOn (·.1.size)
  | .SizeOnDisk => compareOn (·.1.allocated)
  | .Created => compareOn (·.1.created)
  | .Modified => compareOn (·.1.modified)
  | .Accessed => compareOn (·.1.accessed)
  | .Drive => compareOn (·.1.drive)
  | .Descendants => compareOn (·.1.descendants)
  | .TreeSize => compareOn (·.1.treesize)
  | .TreeAllocated => compareOn fun entry => tree_allocated_for_row entry.1
  | .Bulkiness => compareOn fun entry => bulkiness_for_row entry.1
  | .NameLength => compareOn fun entry => entry.1.name.length
  | .PathLength => compareOn fun entry => entry.1.path.length
  | .Malformed => compareLex (compareOn (·.1.malformed)) compare_names
  | .MalformedPath => compareLex (compareOn (·.1.malformed_path)) compare_names
  | .Name | .Attributes | .AttributeValue | .ParityAttributes | .NameHex => compare_names
  | column => compareLex (compareOn fun entry => attr_set column entry.1) compare_names

/-- By the column in its direction, then by the further tiers. -/
def compare_tiers {α : Type} (by_column : FieldId → α → α → Ordering) (column : FieldId) (descending : Bool)
    (extra_tiers : List SortSpec) : α → α → Ordering :=
  extra_tiers.foldl (fun cmp tier => compareLex cmp (directed tier.descending (by_column tier.column)))
    (directed descending (by_column column))

def numeric_order (column : FieldId) (descending : Bool) (extra_tiers : List SortSpec) : DisplayRow → DisplayRow → Ordering :=
  compareLex (compare_tiers compare_numeric_column column descending extra_tiers) (compareOn (·.name))

def decorated_order (column : FieldId) (descending : Bool) (extra_tiers : List SortSpec) : Decorated → Decorated → Ordering :=
  let cmp := compare_tiers (compare_by_column categories) column descending extra_tiers
  if column == .Name || extra_tiers.any fun tier => tier.column == .Name then cmp else compareLex cmp compare_names

variable (sort : UnstableSort)

def sort_rows_numeric_fast (rows : List DisplayRow) (column : FieldId) (descending : Bool) (extra_tiers : List SortSpec) :
    List DisplayRow := sort.run (numeric_order column descending extra_tiers) rows

/-- Sort rows by a column and further tiers, then by name. Columns of numbers need no folded texts. -/
def sort_rows (rows : List DisplayRow) (column : FieldId) (descending : Bool) (extra_tiers : List SortSpec) :
    List DisplayRow :=
  if rows.length ≤ 1 then rows
  else if is_strict_numeric column && extra_tiers.all fun tier => is_strict_numeric tier.column then
    sort_rows_numeric_fast sort rows column descending extra_tiers
  else
    let decorated := rows.map fun row => (row, build_row_sort_key categories fold column extra_tiers row)
    (sort.run (decorated_order categories column descending extra_tiers) decorated).map Prod.fst

end order

instance transCmpEq {α : Type} : Std.TransCmp fun _ _ : α => Ordering.eq where
  eq_swap := rfl
  isLE_trans _ _ := rfl

instance (column : FieldId) : Std.TransCmp (compare_numeric_column column) := by
  cases column <;> unfold compare_numeric_column <;> infer_instance

instance : Std.TransCmp compare_names := by
  unfold compare_names
  infer_instance

instance (categories : List (Str × List Str)) (column : FieldId) : Std.TransCmp (compare_by_column categories column) := by
  cases column <;> unfold compare_by_column <;> infer_instance

instance {α : Type} (by_column : FieldId → α → α → Ordering) [∀ column, Std.TransCmp (by_column column)]
    (column : FieldId) (descending : Bool) (extra_tiers : List SortSpec) :
    Std.TransCmp (compare_tiers by_column column descending extra_tiers) := by
  unfold compare_tiers
  have hstart : Std.TransCmp (directed descending (by_column column)) := inferInstance
  generalize directed descending (by_column column) = cmp at *
  induction extra_tiers generalizing cmp with
  | nil => exact hstart
  | cons tier rest ih =>
    apply ih
    infer_instance

instance (column : FieldId) (descending : Bool) (extra_tiers : List SortSpec) :
    Std.TransCmp (numeric_order column descending extra_tiers) := by
  unfold numeric_order
  infer_instance

instance (categories : List (Str × List Str)) (column : FieldId) (descending : Bool) (extra_tiers : List SortSpec) :
    Std.TransCmp (decorated_order categories column descending extra_tiers) := by
  unfold decorated_order
  dsimp only
  split <;> infer_instance

theorem isLE_compare_char {a b : Char} : (compare a b).isLE ↔ a ≤ b :=
  isLE_compareOfLessAndEq Char.le_antisymm Char.not_le Char.le_total

theorem isLE_of_compareLex {α : Type} {first second : α → α → Ordering} {a b : α} (h : (compareLex first second a b).isLE) :
    (first a b).isLE := by
  unfold compareLex at h
  cases hfirst : first a b <;> simp_all

section sorted

variable (categories : List (Str × List Str)) (fold : CaseFold) (sort : UnstableSort)

/-- A row as a sort by this column alone decorates it. -/
def decorate (column : FieldId) (row : DisplayRow) : Decorated := (row, build_row_sort_key categories fold column [] row)

/-- Two rows by one column, ascending, with their texts folded. -/
def row_order (column : FieldId) (row_a row_b : DisplayRow) : Ordering :=
  compare_by_column categories column (decorate categories fold column row_a) (decorate categories fold column row_b)

instance (column : FieldId) : Std.TransCmp (row_order categories fold column) where
  eq_swap := cmp_flip (compare_by_column categories column) _ _
  isLE_trans {_ _ _} hab hbc := @Std.TransCmp.isLE_trans _ (compare_by_column categories column) _ _ _ _ hab hbc

theorem sort_rows_perm (rows : List DisplayRow) (column : FieldId) (descending : Bool) (extra_tiers : List SortSpec) :
    (sort_rows categories fold sort rows column descending extra_tiers).Perm rows := by
  unfold sort_rows
  split
  · exact List.Perm.refl rows
  · split
    · exact sort.perm _ rows
    · have hperm := (sort.perm (decorated_order categories column descending extra_tiers)
        (rows.map fun row => (row, build_row_sort_key categories fold column extra_tiers row))).map Prod.fst
      rwa [List.map_map, show Prod.fst ∘ (fun row => (row, build_row_sort_key categories fold column extra_tiers row)) = id
        from rfl, List.map_id] at hperm

/-- The fast comparison of numbers is the one of the column. -/
theorem compare_numeric_eq {column : FieldId} (hnumeric : is_strict_numeric column = true) (hplain : field_to_attr_bit column = 0) :
    compare_numeric_column column = row_order categories fold column := by
  funext row_a row_b
  cases column <;> first | rfl | exact absurd hnumeric (by decide) | exact absurd hplain (by decide)

/-- Beside the flags, which are sorted with the name, the rows come out in the order of the column. -/
theorem sort_rows_sorted (rows : List DisplayRow) {column : FieldId} (hplain : field_to_attr_bit column = 0)
    (descending : Bool) :
    (sort_rows categories fold sort rows column descending []).Pairwise fun row_a row_b =>
      (directed descending (row_order categories fold column) row_a row_b).isLE := by
  unfold sort_rows
  split
  next hshort =>
    match rows with
    | [] => exact List.Pairwise.nil
    | [row] => exact List.pairwise_singleton _ row
    | row_a :: row_b :: rest => simp at hshort
  next =>
    split
    next hnumeric =>
      rw [List.all_nil, Bool.and_true] at hnumeric
      refine (sort.sorted (numeric_order column descending []) rows).imp fun hle => ?_
      have hfirst := isLE_of_compareLex hle
      rwa [compare_tiers, List.foldl_nil, compare_numeric_eq categories fold hnumeric hplain] at hfirst
    next =>
      change (List.map Prod.fst (sort.run _ (rows.map (decorate categories fold column)))).Pairwise _
      rw [List.pairwise_map]
      refine (sort.sorted (decorated_order categories column descending []) _).imp_of_mem fun {entry_a entry_b} ha hb hle => ?_
      have hown : ∀ {entry : Decorated}, entry ∈ sort.run (decorated_order categories column descending [])
          (rows.map (decorate categories fold column)) → entry = decorate categories fold column entry.1 := by
        intro entry hmem
        obtain ⟨row, -, rfl⟩ := List.mem_map.mp ((sort.perm _ _).mem_iff.mp hmem)
        rfl
      have hfirst : (directed descending (compare_by_column categories column) entry_a entry_b).isLE := by
        unfold decorated_order at hle
        split at hle
        · exact hle
        · exact isLE_of_compareLex hle
      rw [hown ha, hown hb] at hfirst
      exact hfirst

end sorted

end uffs.search
