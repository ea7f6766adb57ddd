import Uffs.Search.RowFilter
import Uffs.Search.TopN

open uffs.lib uffs.mft uffs.text uffs.bloom uffs.compact uffs.usn

namespace uffs.search.bounded

/-! Columns of which the key is only a stand-in for what the rows are compared by. -/

def PROXY_COLUMNS : List FieldId := [.Name, .Extension, .Type, .Drive, .PathLength, .NameLength, .TreeSize]

/-- The order of two texts in a sort: folded, then as they are. -/
def text_le (fold : CaseFold) (lhs rhs : Str) : Bool :=
  ((compare (fold.fold_into lhs) (fold.fold_into rhs)).then (compare lhs rhs)).isLE

/-- What stands for the size of the tree below a record. -/
def tree_bytes (rec : CompactRecord) : Int64 := if rec.is_directory then rec.treesize.toInt64 else rec.size.toInt64

/-- The first folded characters of a name, a byte for each. -/
def name_proxy (drive : DriveCompactIndex) (rec : CompactRecord) : Int64 :=
  i64_from_be_bytes (name_key_bytes drive.fold (rec.name drive.names) 8)

/-- The name a row shows: what stands behind the last backslash of the name, nothing for the root
directory. -/
def shown_name (render : Render) (rec : CompactRecord) (names : List UInt8) : Str :=
  if ends_climb (rec.name_bytes names) then [] else last_segment (name_display_with render rec names)

/-- The category of a row, by what the record is and by the shown name. -/
def shown_type (categories : List (Str × List Str)) (render : Render) (rec : CompactRecord) (names : List UInt8) : Str :=
  let ext := extract_extension_after_dot (shown_name render rec names)
  if rec.is_directory && !decide (':' ∈ rec.name names) then "directory".toList
  else if ext.isEmpty then "file".toList else semantic_type_from_extension categories (to_ascii_lowercase ext)

/-- A path that goes down through these names, the last one in front, ends in a backslash. -/
def open_below : List Str → Bool
  | [] => true
  | name :: _ => name.isEmpty || name.getLast? == some '\\'

/-- Characters of a path: three for the drive, and each name with a backslash in front, unless one
stands there. -/
def path_chars : List Str → Nat
  | [] => 3
  | name :: above => path_chars above + (if open_below above then 0 else 1) + name.length

/-- The names from a slot up to the root, as they are shown. -/
def names_above (drive : DriveCompactIndex) (render : Render) (idx : UInt32) : List Str :=
  (path_chain drive.records drive.names (MAX_DEPTH + 1) idx.toNat).map fun rec => name_display_with render rec drive.names

/-- Of two records, the one with the smaller number also comes first by what the column shows: by the
first folded characters and the name, by the extension's id and its text or its category, by the
length of the name's text and the length of the name or of all names down to it, and by the size
and the tree size. -/
def ProxyAgrees (categories : List (Str × List Str)) (fold : CaseFold) (render : Render) (sort_column : FieldId)
    (drive_a drive_b : DriveCompactIndex) (idx_a idx_b : UInt32) (rec_a rec_b : CompactRecord) : Prop :=
  let name_a := shown_name render rec_a drive_a.names
  let name_b := shown_name render rec_b drive_b.names
  let shorter := (rec_a.name drive_a.names).length < (rec_b.name drive_b.names).length
  match sort_column with
  | .Name => name_proxy drive_a rec_a < name_proxy drive_b rec_b → text_le fold name_a name_b = true
  | .Extension => rec_a.extension_id < rec_b.extension_id →
    text_le fold (extract_extension_after_dot name_a) (extract_extension_after_dot name_b) = true
  | .Type => rec_a.extension_id < rec_b.extension_id →
    text_le fold (shown_type categories render rec_a drive_a.names) (shown_type categories render rec_b drive_b.names) = true
  | .NameLength => shorter → name_a.length ≤ name_b.length
  | .PathLength => shorter → path_chars (names_above drive_a render idx_a) ≤ path_chars (names_above drive_b render idx_b)
  | .TreeSize => tree_bytes rec_a < tree_bytes rec_b → rec_a.treesize ≤ rec_b.treesize
  | _ => True

def HitsAgree (categories : List (Str × List Str)) (fold : CaseFold) (render : Render)
    (drives : List DriveCompactIndex) (sort_column : FieldId) (a b : Hit) : Prop :=
  ∀ drive_a rec_a drive_b rec_b, hit_record drives a = some (drive_a, rec_a) → hit_record drives b = some (drive_b, rec_b) →
    ProxyAgrees categories fold render sort_column drive_a drive_b a.2 b.2 rec_a rec_b

section shown

variable {render : Render} {drive : DriveCompactIndex} {idx : UInt32} {rec : CompactRecord}
  (hget : drive.records[idx.toNat]? = some rec)

theorem path_chain_named {records : List CompactRecord} {names : List UInt8} {fuel i : Nat} :
    ∀ rec ∈ path_chain records names fuel i, ends_climb (rec.name_bytes names) = false := by
  induction fuel generalizing i with
  | zero => exact List.forall_mem_nil _
  | succ fuel ih =>
    rw [path_chain]
    split
    · exact List.forall_mem_nil _
    · split
      · exact List.forall_mem_nil _
      · next hclimb =>
        have hname := Bool.not_eq_true _ |>.mp hclimb
        split
        · exact fun _ hmem => List.mem_singleton.mp hmem ▸ hname
        · exact List.forall_mem_cons.mpr ⟨hname, ih⟩

/-- The path of a slot goes down through the names above it. -/
theorem resolve_path_eq_join (drive : DriveCompactIndex) (render : Render) (idx : UInt32) :
    resolve_path drive idx.toNat ( stack_volume_prefix drive.letter) render =
      join_path ( stack_volume_prefix drive.letter) (names_above drive render idx) := by
  have hnamed := @path_chain_named drive.records drive.names (MAX_DEPTH + 1) idx.toNat
  have hshown : List.Forall₂ (fun rec name => ends_climb (rec.name_bytes drive.names) = false ∧
      name_display_with render rec drive.names = name) (path_chain drive.records drive.names (MAX_DEPTH + 1) idx.toNat)
      (names_above drive render idx) := by
    unfold names_above
    generalize path_chain drive.records drive.names (MAX_DEPTH + 1) idx.toNat = chain at hnamed
    rw [List.forall₂_map_right_iff, List.forall₂_same]
    exact fun rec hmem => ⟨hnamed rec hmem, rfl⟩
  unfold resolve_path join_path
  rw [List.foldl_reverse]
  revert hshown
  generalize path_chain drive.records drive.names (MAX_DEPTH + 1) idx.toNat = chain, names_above drive render idx = shown
  intro hshown
  induction hshown with
  | nil => rfl
  | cons hname _ ih =>
    rw [List.foldr_cons, List.foldr_cons, ih, hname.1, hname.2]
    rfl

theorem join_path_chars (letter : Char) (shown : List Str) :
    let path := join_path ( stack_volume_prefix letter) shown
    path ≠ [] ∧ (path.getLast? = some '\\' ↔ open_below shown = true) ∧ path.length = path_chars shown := by
  induction shown with
  | nil => exact ⟨List.cons_ne_nil _ _, by simp [join_path, stack_volume_prefix, open_below], rfl⟩
  | cons name above ih =>
    obtain ⟨hne, hlast, hlen⟩ := ih
    change push_component (join_path _ above) name ≠ [] ∧ ((push_component (join_path _ above) name).getLast? = _ ↔ _) ∧
      (push_component (join_path _ above) name).length = _
    rw [push_component, path_chars, open_below, ← hlen]
    by_cases hopen : (join_path ( stack_volume_prefix letter) above).getLast? = some '\\'
    · rw [if_neg fun h => h.1 hopen, hlast.mp hopen, List.length_append]
      refine ⟨List.append_ne_nil_of_left_ne_nil hne _, ?_, rfl⟩
      cases name with
      | nil => simp [hopen]
      | cons ch name => simp
    · rw [if_pos ⟨hopen, hne⟩, Bool.eq_false_iff.mpr fun h => hopen (hlast.mpr h), List.length_append, List.length_append]
      refine ⟨by simp, ?_, rfl⟩
      cases name with
      | nil => simp
      | cons ch name => simp

theorem build_row_path_length : (build_row drive idx rec render).path.length = path_chars (names_above drive render idx) := by
  change (resolve_path drive idx.toNat ( stack_volume_prefix drive.letter) render).length = _
  rw [resolve_path_eq_join]
  exact (join_path_chars drive.letter _).2.2

include hget

theorem build_row_name_eq : (build_row drive idx rec render).name = shown_name render rec drive.names := by
  change last_segment (resolve_path drive idx.toNat ( stack_volume_prefix drive.letter) render) = _
  rw [resolve_path_eq_join, names_above, path_chain, hget, shown_name]
  dsimp only
  cases hclimb : ends_climb (rec.name_bytes drive.names) with
  | true => simp [join_path, last_segment_eq, stack_volume_prefix]
  | false =>
    have hlast : ∀ above : List Str, last_segment (push_component (join_path ( stack_volume_prefix drive.letter) above)
        (name_display_with render rec drive.names)) = last_segment (name_display_with render rec drive.names) := by
      intro above
      obtain ⟨dir, hdir⟩ := push_component_eq (join_path_chars drive.letter above).1 (name_display_with render rec drive.names)
      rw [hdir, last_segment_append]
    rw [if_neg Bool.false_ne_true, if_neg Bool.false_ne_true]
    split
    · exact hlast []
    · exact hlast (List.map _ _)

theorem build_row_type_eq (categories : List (Str × List Str)) :
    semantic_type_for_row categories (build_row drive idx rec render) = shown_type categories render rec drive.names := by
  rw [semantic_type_for_row, build_row_name_eq hget, shown_type, extract_extension_after_dot]
  change (if (rec.is_directory && !decide (':' ∈ rec.name drive.names)) = true then _ else _) = _
  split
  · rfl
  · cases rsplit_dot (shown_name render rec drive.names) with
    | none => rfl
    | some parts =>
      dsimp only
      split
      · rfl
      · next hboth =>
        rw [Bool.not_eq_true, Bool.or_eq_false_iff] at hboth
        rw [hboth.2]
        rfl

end shown

/-- Whatever the limit, no record that is let go stands before one whose row is shown, unless their keys tie. -/
def KeepsBest (env : Env) (categories : List (Str × List Str)) (fold : CaseFold) (render : Render)
    (sort : UnstableSort) (drives : List DriveCompactIndex) (sort_column : FieldId) (sort_desc : Bool)
    (filter_mode : FilterMode) (filters : SearchFilters) : Prop :=
  ∀ limit, ∀ a ∈ selected_hits env sort drives limit sort_column sort_desc filter_mode filters,
    ∀ b ∈ search.collect_global_top_n_numeric env drives filter_mode filters,
      b ∉ selected_hits env sort drives limit sort_column sort_desc filter_mode filters →
        hit_sort_key drives sort_column a ≠ hit_sort_key drives sort_column b →
          ¬hit_before categories fold render drives sort_column sort_desc b a

theorem name_length_lt (rec : CompactRecord) (names : List UInt8) : (rec.name names).length < 2 ^ 16 := by
  have hbytes := length_name_bytes_le rec names
  have hlt := rec.name_len.toNat_lt
  unfold CompactRecord.name
  cases htext : from_utf8 (rec.name_bytes names) with
  | none => simp
  | some text =>
    have hle := length_le_as_bytes text
    rw [as_bytes_of_from_utf8 htext] at hle
    rw [Option.getD_some]
    omega

theorem i64_of_count_lt_iff {a b : Nat} (ha : a < 2 ^ 16) (hb : b < 2 ^ 16) : i64_of_count a < i64_of_count b ↔ a < b := by
  rw [i64_of_count, i64_of_count, if_pos (by omega), if_pos (by omega), Int64.lt_iff_toInt_lt,
    Int64.toInt_ofNat_of_lt (by omega), Int64.toInt_ofNat_of_lt (by omega), Int.ofNat_lt]

theorem extension_key_lt_iff (a b : UInt16) : a.toUInt64.toInt64 < b.toUInt64.toInt64 ↔ a < b := by
  have hsmall : ∀ id : UInt16, id.toUInt64.toInt64.toInt = id.toNat := by
    intro id
    have hlt := id.toNat_lt
    rw [toInt_toInt64 (by rw [UInt16.toNat_toUInt64]; omega), UInt16.toNat_toUInt64]
  rw [Int64.lt_iff_toInt_lt, hsmall, hsmall, UInt16.lt_iff_toNat_lt, Int.ofNat_lt]

theorem name_key_bytes_length (fold : CaseFold) (name : Str) (len : Nat) : (name_key_bytes fold name len).length = len := by
  simp [name_key_bytes]

/-- The letter of the drive decides before the name. -/
theorem letter_le_of_drive_key {rec_a rec_b : CompactRecord} {drive_a drive_b : DriveCompactIndex}
    (hletter_a : drive_a.letter.toNat < 0x80) (hletter_b : drive_b.letter.toNat < 0x80)
    (hlt : extract_sort_key rec_a .Drive drive_a < extract_sort_key rec_b .Drive drive_b) :
    drive_a.letter ≤ drive_b.letter := by
  have hkey : ∀ (drive : DriveCompactIndex) (rec : CompactRecord), drive.letter.toNat < 0x80 → ∃ rest < 256 ^ 7,
      (extract_sort_key rec .Drive drive).toInt = (drive.letter.toNat * 256 ^ 7 + rest : Nat) := by
    intro drive rec hletter
    let tail := name_key_bytes drive.fold (rec.name drive.names) 7
    have hlen : tail.length = 7 := name_key_bytes_length _ _ _
    have hrest : bytes.from_be_bytes tail < 256 ^ 7 := hlen ▸ bytes.from_be_bytes_lt tail
    have hbyte : (UInt8.ofNat drive.letter.toNat).toNat = drive.letter.toNat := by
      rw [UInt8.toNat_ofNat']
      exact Nat.mod_eq_of_lt (by omega)
    have hvalue : bytes.from_be_bytes (UInt8.ofNat drive.letter.toNat :: tail) =
        drive.letter.toNat * 256 ^ 7 + bytes.from_be_bytes tail := by
      rw [bytes.from_be_bytes_cons, hbyte, hlen]
    refine ⟨bytes.from_be_bytes tail, hrest, ?_⟩
    change (i64_from_be_bytes (UInt8.ofNat drive.letter.toNat :: tail)).toInt = _
    have hnat : (UInt64.ofNat (drive.letter.toNat * 256 ^ 7 + bytes.from_be_bytes tail)).toNat =
        drive.letter.toNat * 256 ^ 7 + bytes.from_be_bytes tail := by
      rw [UInt64.toNat_ofNat']
      exact Nat.mod_eq_of_lt (by omega)
    rw [i64_from_be_bytes, hvalue, toInt_toInt64 (by rw [hnat]; omega), hnat]
  obtain ⟨rest_a, hrest_a, hkey_a⟩ := hkey drive_a rec_a hletter_a
  obtain ⟨rest_b, hrest_b, hkey_b⟩ := hkey drive_b rec_b hletter_b
  rw [Int64.lt_iff_toInt_lt, hkey_a, hkey_b, Int.ofNat_lt] at hlt
  have hle : drive_a.letter.toNat ≤ drive_b.letter.toNat := by omega
  exact hle

theorem get_of_hit_record {drives : List DriveCompactIndex} {hit : Hit} {drive : DriveCompactIndex} {rec : CompactRecord}
    (h : hit_record drives hit = some (drive, rec)) : drives[hit.1]? = some drive ∧ drive.records[hit.2.toNat]? = some rec := by
  obtain ⟨drive', hdrive, hrec⟩ := Option.bind_eq_some_iff.mp h
  obtain ⟨rec', hget, heq⟩ := Option.map_eq_some_iff.mp hrec
  obtain ⟨rfl, rfl⟩ := Prod.mk.inj heq
  exact ⟨hdrive, hget⟩

section columns

variable (categories : List (Str × List Str)) (fold : CaseFold) (render : Render) {sort_column : FieldId}
  (hcolumn : sort_column ∈ PROXY_COLUMNS)

include hcolumn

/-- The key of a column never contradicts its comparison where the stand-in does not. -/
theorem proxyAgrees_iff {drive_a drive_b : DriveCompactIndex} {idx_a idx_b : UInt32} {rec_a rec_b : CompactRecord}
    (hget_a : drive_a.records[idx_a.toNat]? = some rec_a) (hget_b : drive_b.records[idx_b.toNat]? = some rec_b)
    (hletter_a : drive_a.letter.toNat < 0x80) (hletter_b : drive_b.letter.toNat < 0x80) :
    (extract_sort_key rec_a sort_column drive_a < extract_sort_key rec_b sort_column drive_b →
      (row_order categories fold sort_column (build_row drive_a idx_a rec_a render) (build_row drive_b idx_b rec_b render)).isLE) ↔
      ProxyAgrees categories fold render sort_column drive_a drive_b idx_a idx_b rec_a rec_b := by
  have hcount := i64_of_count_lt_iff (name_length_lt rec_a drive_a.names) (name_length_lt rec_b drive_b.names)
  have hext := extension_key_lt_iff rec_a.extension_id rec_b.extension_id
  obtain ⟨row_a, hrow_a⟩ : ∃ row, row = build_row drive_a idx_a rec_a render := ⟨_, rfl⟩
  obtain ⟨row_b, hrow_b⟩ : ∃ row, row = build_row drive_b idx_b rec_b render := ⟨_, rfl⟩
  unfold ProxyAgrees
  rw [← build_row_name_eq hget_a, ← build_row_name_eq hget_b, ← build_row_type_eq hget_a, ← build_row_type_eq hget_b,
    ← @build_row_path_length render drive_a idx_a rec_a, ← @build_row_path_length render drive_b idx_b rec_b, ← hrow_a, ← hrow_b]
  have hdrive_a : row_a.drive = drive_a.letter := hrow_a ▸ rfl
  have hdrive_b : row_b.drive = drive_b.letter := hrow_b ▸ rfl
  have htree_a : row_a.treesize = rec_a.treesize := hrow_a ▸ rfl
  have htree_b : row_b.treesize = rec_b.treesize := hrow_b ▸ rfl
  clear hrow_a hrow_b
  simp only [PROXY_COLUMNS, List.mem_cons, List.not_mem_nil, or_false] at hcolumn
  rcases hcolumn with rfl | rfl | rfl | rfl | rfl | rfl | rfl
  · exact Iff.rfl
  · exact imp_congr_left hext
  · exact imp_congr_left hext
  · refine iff_of_true (fun hlt => ?_) trivial
    change (compare row_a.drive row_b.drive).isLE
    rw [isLE_compare_char, hdrive_a, hdrive_b]
    exact letter_le_of_drive_key hletter_a hletter_b hlt
  · change (_ → (compare row_a.path.length row_b.path.length).isLE) ↔ (_ → row_a.path.length ≤ row_b.path.length)
    exact imp_congr hcount Std.isLE_compare
  · change (_ → (compare row_a.name.length row_b.name.length).isLE) ↔ (_ → row_a.name.length ≤ row_b.name.length)
    exact imp_congr hcount Std.isLE_compare
  · change (_ → (compare row_a.treesize row_b.treesize).isLE) ↔ (_ → rec_a.treesize ≤ rec_b.treesize)
    rw [htree_a, htree_b]
    exact imp_congr_right fun _ => Std.isLE_compare

omit hcolumn in
/-- Descending, the hits change sides. -/
theorem hit_before_desc {drives : List DriveCompactIndex} {a b : Hit} :
    hit_before categories fold render drives sort_column true b a ↔
      hit_before categories fold render drives sort_column false a b := by
  have hflip : ∀ row_a row_b, sorts_before categories fold sort_column true row_b row_a ↔
      sorts_before categories fold sort_column false row_a row_b := by
    intro row_a row_b
    change (row_order categories fold sort_column row_b row_a).swap = .lt ↔ row_order categories fold sort_column row_a row_b = .lt
    rw [← cmp_flip (row_order categories fold sort_column)]
  constructor
  · rintro ⟨row_b, row_a, hrow_b, hrow_a, hbefore⟩
    exact ⟨row_a, row_b, hrow_a, hrow_b, (hflip row_a row_b).mp hbefore⟩
  · rintro ⟨row_a, row_b, hrow_a, hrow_b, hbefore⟩
    exact ⟨row_b, row_a, hrow_b, hrow_a, (hflip row_a row_b).mpr hbefore⟩

variable (env : Env) (sort : UnstableSort) {drives : List DriveCompactIndex}
  (hfits : ∀ drive ∈ drives, drive.records.length < UInt32.size) (hletters : ∀ drive ∈ drives, drive.letter.toNat < 0x80)
  (sort_desc : Bool) (filter_mode : FilterMode) (filters : SearchFilters)

include hfits hletters

/-- For two hits, the key contradicts the rows exactly where the stand-in does. -/
theorem hitsAgree_iff {a b : Hit} (ha : a ∈ search.collect_global_top_n_numeric env drives filter_mode filters)
    (hb : b ∈ search.collect_global_top_n_numeric env drives filter_mode filters) :
    HitsAgree categories fold render drives sort_column a b ↔
      (hit_sort_key drives sort_column a < hit_sort_key drives sort_column b →
        ¬hit_before categories fold render drives sort_column false b a) := by
  obtain ⟨drive_a, rec_a, hdrive_a, -, hrecord_a, hrow_a⟩ := passing_row env hfits filter_mode filters render ha
  obtain ⟨drive_b, rec_b, hdrive_b, -, hrecord_b, hrow_b⟩ := passing_row env hfits filter_mode filters render hb
  have hproxy := proxyAgrees_iff categories fold render hcolumn (get_of_hit_record hrecord_a).2 (get_of_hit_record hrecord_b).2
    (hletters drive_a hdrive_a) (hletters drive_b hdrive_b)
  have hrows : ¬hit_before categories fold render drives sort_column false b a ↔
      (row_order categories fold sort_column (build_row drive_a a.2 rec_a render) (build_row drive_b b.2 rec_b render)).isLE := by
    refine Iff.trans (not_congr ⟨?_, fun hbefore => ⟨_, _, hrow_b, hrow_a, hbefore⟩⟩) not_sorts_before_iff
    rintro ⟨row_b, row_a, hrow_b', hrow_a', hbefore⟩
    cases hrow_a.symm.trans hrow_a'
    cases hrow_b.symm.trans hrow_b'
    exact hbefore
  have hkey_a : hit_sort_key drives sort_column a = extract_sort_key rec_a sort_column drive_a := by simp [hit_sort_key, hrecord_a]
  have hkey_b : hit_sort_key drives sort_column b = extract_sort_key rec_b sort_column drive_b := by simp [hit_sort_key, hrecord_b]
  rw [hrows, hkey_a, hkey_b, hproxy]
  constructor
  · exact fun h => h drive_a rec_a drive_b rec_b hrecord_a hrecord_b
  · intro h drive_a' rec_a' drive_b' rec_b' hrecord_a' hrecord_b'
    cases hrecord_a.symm.trans hrecord_a'
    cases hrecord_b.symm.trans hrecord_b'
    exact h

end columns

/-- A volume whose index has seen the extension of the first file before that of the second. -/
def archive_film_mft : MftIndex where
  records := [{ frs := 16, first_name := { name := { offset := 0, bits := 0x10005 }, parent_frs := 5 } },
    { frs := 17, first_name := { name := { offset := 5, bits := 0x20005 }, parent_frs := 5 } }]
  frs_to_idx := List.replicate 16 NO_ENTRY ++ [0, 1]
  names := as_bytes "a.zipb.avi".toList
  extension_names := [[], "zip".toList, "avi".toList]

def archive_film_drive : DriveCompactIndex := build_compact_index sample_env 'C' sample_fold archive_film_mft

theorem archive_film_drive_shown : Shown sample_env archive_film_drive where
  served := ⟨'C', sample_fold, archive_film_mft, ⟨mapped_of_zipIdx (by decide), by decide, by decide, by decide⟩,
    Reachable.start (roomy_build (by decide) _ _ _)⟩
  shallow := shallow_of_roots (by decide)

end uffs.search.bounded
