import Uffs.Usn.OverlayRun
import Uffs.Usn.FrsMap

open uffs.lib uffs.mft uffs.text uffs.bloom uffs.trigram uffs.compact

namespace uffs.usn

/-- A live row with a UTF-8 name that contains the needle, both case-folded. -/
def Matches (drive : DriveCompactIndex) (needle : Str) (rec : CompactRecord) : Prop :=
  rec.Live ∧ ∃ name, (rec.name_range drive.names).bind from_utf8 = some name ∧
    drive.fold.contains_folded name (drive.fold.fold_to_u16 needle) = true

/-- Whatever the trigram search returns lists every matching row. -/
def SearchComplete (drive : DriveCompactIndex) (needle : Str) : Prop :=
  ∀ list, drive.trigram_search needle = some list →
    ∀ (c : UInt32) (rec : CompactRecord), drive.records[c.toNat]? = some rec → Matches drive needle rec → c ∈ list

/-- Keys of the needle. -/
def search_keys (drive : DriveCompactIndex) (needle : Str) : List UInt64 :=
  char_trigrams (drive.fold.fold_to_u16 needle)

/-- Overlay postings of a key. -/
def overlay_posting (drive : DriveCompactIndex) (key : UInt64) : List UInt32 := (drive.delta.getD {}).trigram key

/-- The base can serve the needle: it kept one of its keys, and no key it pruned has come back in
the overlay. -/
def BaseServes (drive : DriveCompactIndex) (needle : Str) : Prop :=
  (∃ key ∈ search_keys drive needle, drive.trigram.get_posting key ≠ none) ∧
    ∀ key ∈ search_keys drive needle, drive.trigram.get_posting key = none → overlay_posting drive key = []

/-- A matching row that the overlay does not list is left to the base, which then can serve it. -/
def Searchable (drive : DriveCompactIndex) (needle : Str) : Prop :=
  ∀ (c : UInt32) (rec : CompactRecord), drive.records[c.toNat]? = some rec → Matches drive needle rec →
    (∃ key ∈ search_keys drive needle, c ∉ overlay_posting drive key) → BaseServes drive needle

variable {drive : DriveCompactIndex} {needle : Str} {list : List UInt32}

/-- A matching row has every key of the needle. -/
theorem Matches.keys_subset {rec : CompactRecord} (h : Matches drive needle rec) (hlong : 3 ≤ needle.length) :
    search_keys drive needle ⊆ record_trigrams drive.names drive.fold rec := by
  obtain ⟨-, name, hname, hcontains⟩ := h
  have hinfix := CaseFold.contains_folded_iff.mp hcontains
  obtain ⟨bytes, hrange, hutf8⟩ := Option.bind_eq_some_iff.mp hname
  have hlen := hinfix.length_le
  rw [CaseFold.fold_to_u16_length] at hlen
  unfold record_trigrams
  rw [hrange]
  dsimp only
  rw [hutf8, Option.getD_some, if_neg (by omega)]
  exact char_trigrams_subset hinfix

section

variable (drive)

theorem search_keys_ne_nil (hlong : 3 ≤ needle.length) : search_keys drive needle ≠ [] := by
  apply char_trigrams_ne_nil
  rwa [CaseFold.fold_to_u16_length]

theorem needle_trigrams_eq (hlong : 3 ≤ needle.length) :
    needle_trigrams needle drive.fold = some (search_keys drive needle) := by
  unfold needle_trigrams
  dsimp only
  rw [CaseFold.fold_to_u16_length, if_neg (by omega)]
  rfl

/-- A needle of three characters or more is searched for, a shorter one is not. -/
theorem exists_trigram_search (hlong : 3 ≤ needle.length) : ∃ list, drive.trigram_search needle = some list := by
  unfold DriveCompactIndex.trigram_search TrigramIndex.search
  rw [needle_trigrams_eq drive hlong]
  simp only [Option.bind_eq_bind, Option.bind_some]
  split
  all_goals
    split
    · exact ⟨_, rfl⟩
    · split
      all_goals exact ⟨_, rfl⟩

theorem trigram_search_of_short (hshort : needle.length < 3) : drive.trigram_search needle = none := by
  have hnone : needle_trigrams needle drive.fold = none := by
    unfold needle_trigrams
    dsimp only
    rw [CaseFold.fold_to_u16_length, if_pos hshort]
  unfold DriveCompactIndex.trigram_search TrigramIndex.search
  rw [hnone]
  split <;> rfl

end

/-- The posting list a search intersects for one key. -/
def effective_posting (drive : DriveCompactIndex) (key : UInt64) : List UInt32 :=
  postings.union ((drive.trigram.get_posting key).getD []) (overlay_posting drive key)

/-- Base and overlay of a state, as searches see them. -/
structure Served (drive : DriveCompactIndex) : Prop where
  base_ascending : ∀ key list, drive.trigram.get_posting key = some list → postings.Ascending list ∧ list ≠ []
  overlay_ascending : ∀ key, postings.Ascending (overlay_posting drive key)
  row : ∀ (c : UInt32) rec, drive.records[c.toNat]? = some rec → rec.Live →
    (c ∉ (drive.delta.getD {}).tombstones ∧ (∀ key, c ∉ overlay_posting drive key) ∧
      ∀ key ∈ record_trigrams drive.names drive.fold rec, ∀ list,
        drive.trigram.get_posting key = some list → c ∈ list) ∨
    ∀ key ∈ record_trigrams drive.names drive.fold rec, c ∈ overlay_posting drive key

section

variable (h : Served drive)

include h

theorem Served.effective_ascending (key : UInt64) : postings.Ascending (effective_posting drive key) := by
  refine postings.union_ascending ?_ (h.overlay_ascending key)
  cases hget : drive.trigram.get_posting key with
  | none => exact List.Pairwise.nil
  | some list => exact (h.base_ascending key list hget).1

theorem Served.mem_intersect_all {keys : List UInt64} {lists : List (List UInt32)}
    (hlists : ∀ list, list ∈ lists ↔ ∃ key ∈ keys, effective_posting drive key = list ∧ list ≠ []) (c : UInt32) :
    c ∈ intersect_all lists ↔ (∃ key ∈ keys, effective_posting drive key ≠ []) ∧
      ∀ key ∈ keys, effective_posting drive key ≠ [] → c ∈ effective_posting drive key := by
  rw [trigram.mem_intersect_all fun list hlist => by
    obtain ⟨key, -, rfl, -⟩ := (hlists list).mp hlist
    exact h.effective_ascending key]
  constructor
  · rintro ⟨hne, hall⟩
    obtain ⟨list, hlist⟩ := List.exists_mem_of_ne_nil _ hne
    obtain ⟨key, hkey, rfl, hnonempty⟩ := (hlists list).mp hlist
    exact ⟨⟨key, hkey, hnonempty⟩, fun k hk hk' => hall _ ((hlists _).mpr ⟨k, hk, rfl, hk'⟩)⟩
  · rintro ⟨⟨key, hkey, hnonempty⟩, hall⟩
    refine ⟨List.ne_nil_of_mem ((hlists _).mpr ⟨key, hkey, rfl, hnonempty⟩), fun list hlist => ?_⟩
    obtain ⟨k, hk, rfl, hk'⟩ := (hlists list).mp hlist
    exact hall k hk hk'

/-- Members of a search result: in every non-empty posting list of the needle, of which there is
one, and not masked unless the overlay lists it under every key. -/
theorem mem_trigram_search (hlong : 3 ≤ needle.length) (hsearch : drive.trigram_search needle = some list) (c : UInt32) :
    c ∈ list ↔ (∃ key ∈ search_keys drive needle, effective_posting drive key ≠ []) ∧
      (∀ key ∈ search_keys drive needle, effective_posting drive key ≠ [] → c ∈ effective_posting drive key) ∧
      (c ∉ (drive.delta.getD {}).tombstones ∨ ∀ key ∈ search_keys drive needle, c ∈ overlay_posting drive key) := by
  have hkeys : (search_keys drive needle).isEmpty = false := by
    simpa using search_keys_ne_nil drive hlong
  unfold DriveCompactIndex.trigram_search at hsearch
  cases hdelta : drive.delta with
  | none =>
    have heffective : ∀ key, effective_posting drive key = (drive.trigram.get_posting key).getD [] := by
      intro key
      simp only [effective_posting, overlay_posting, hdelta, Option.getD_none, postings.union_nil]
    rw [hdelta] at hsearch
    simp only [TrigramIndex.search, needle_trigrams_eq drive hlong, Option.bind_eq_bind, Option.bind_some, hkeys,
      Bool.false_eq_true, if_false] at hsearch
    have hlists : ∀ l, l ∈ (search_keys drive needle).filterMap drive.trigram.get_posting ↔
        ∃ key ∈ search_keys drive needle, effective_posting drive key = l ∧ l ≠ [] := by
      intro l
      simp only [List.mem_filterMap, heffective]
      constructor
      · rintro ⟨key, hkey, hget⟩
        exact ⟨key, hkey, by rw [hget, Option.getD_some], (h.base_ascending key l hget).2⟩
      · rintro ⟨key, hkey, rfl, hne⟩
        refine ⟨key, hkey, ?_⟩
        cases hget : drive.trigram.get_posting key with
        | none => exact absurd (by rw [hget, Option.getD_none]) hne
        | some l => rfl
    have hresult : list = intersect_all ((search_keys drive needle).filterMap drive.trigram.get_posting) := by
      split at hsearch
      next hempty =>
        rw [List.isEmpty_iff.mp hempty, intersect_all_nil]
        exact (Option.some.inj hsearch).symm
      next => exact (Option.some.inj hsearch).symm
    rw [hresult, h.mem_intersect_all hlists]
    simp
  | some delta =>
    have heffective : ∀ key, merge_postings ((drive.trigram.get_posting key).getD []) (delta.trigram key) =
        effective_posting drive key := by
      intro key
      simp only [merge_postings_eq_union, effective_posting, overlay_posting, hdelta, Option.getD_some]
    rw [hdelta] at hsearch
    simp only [needle_trigrams_eq drive hlong, Option.bind_eq_bind, Option.bind_some, hkeys,
      Bool.false_eq_true, if_false, heffective] at hsearch
    have hlists : ∀ l, l ∈ ((search_keys drive needle).map (effective_posting drive)).filter (fun l => !l.isEmpty) ↔
        ∃ key ∈ search_keys drive needle, effective_posting drive key = l ∧ l ≠ [] := by
      intro l
      rw [List.mem_filter, List.mem_map]
      constructor
      · rintro ⟨⟨key, hkey, rfl⟩, hne⟩
        exact ⟨key, hkey, rfl, by simpa using hne⟩
      · rintro ⟨key, hkey, rfl, hne⟩
        exact ⟨⟨key, hkey, rfl⟩, by simpa using hne⟩
    have hkeep : ∀ d : UInt32, (!delta.is_tombstoned d || (search_keys drive needle).all fun tri =>
        decide (d ∈ delta.trigram tri)) = true ↔
        d ∉ (drive.delta.getD {}).tombstones ∨ ∀ key ∈ search_keys drive needle, d ∈ overlay_posting drive key := by
      intro d
      simp [IndexDelta.is_tombstoned, overlay_posting, hdelta]
    rw [← hdelta, ← and_assoc, ← hkeep, ← h.mem_intersect_all hlists]
    split at hsearch
    next hempty =>
      rw [List.isEmpty_iff.mp hempty, ← Option.some.inj hsearch]
      simp
    next => rw [← Option.some.inj hsearch, List.mem_filter]

/-- The search lists every slot once, in order. -/
theorem Served.trigram_search_ascending (hsearch : drive.trigram_search needle = some list) : postings.Ascending list := by
  unfold DriveCompactIndex.trigram_search at hsearch
  cases hdelta : drive.delta with
  | none =>
    rw [hdelta] at hsearch
    obtain ⟨keys, -, hsearch⟩ := Option.bind_eq_some_iff.mp hsearch
    dsimp only at hsearch
    split_ifs at hsearch
    · exact Option.some.inj hsearch ▸ List.Pairwise.nil
    · exact Option.some.inj hsearch ▸ List.Pairwise.nil
    · rw [← Option.some.inj hsearch]
      apply intersect_all_ascending
      intro posting hposting
      obtain ⟨key, -, hget⟩ := List.mem_filterMap.mp hposting
      exact (h.base_ascending key posting hget).1
  | some delta =>
    rw [hdelta] at hsearch
    obtain ⟨keys, -, hsearch⟩ := Option.bind_eq_some_iff.mp hsearch
    dsimp only at hsearch
    split_ifs at hsearch
    · exact Option.some.inj hsearch ▸ List.Pairwise.nil
    · exact Option.some.inj hsearch ▸ List.Pairwise.nil
    · rw [← Option.some.inj hsearch]
      apply List.Pairwise.filter
      apply intersect_all_ascending
      intro posting hposting
      obtain ⟨key, -, rfl⟩ := List.mem_map.mp (List.mem_filter.mp hposting).1
      have heffective := h.effective_ascending key
      rwa [effective_posting, overlay_posting, hdelta, Option.getD_some, ← merge_postings_eq_union] at heffective

theorem effective_posting_ne_nil_of_base {key : UInt64} (hkey : drive.trigram.get_posting key ≠ none) :
    effective_posting drive key ≠ [] := by
  obtain ⟨list, hlist⟩ := Option.ne_none_iff_exists'.mp hkey
  obtain ⟨c, hc⟩ := List.exists_mem_of_ne_nil _ (h.base_ascending key list hlist).2
  refine List.ne_nil_of_mem (a := c) ?_
  rw [effective_posting, postings.mem_union, hlist, Option.getD_some]
  exact Or.inl hc

/-- A row left to the base is found exactly when the base can serve the needle. -/
theorem mem_search_of_untouched (hlong : 3 ≤ needle.length) (hsearch : drive.trigram_search needle = some list) {c : UInt32}
    (hunmasked : c ∉ (drive.delta.getD {}).tombstones) (hoverlay : ∀ key, c ∉ overlay_posting drive key)
    (hbase : ∀ key ∈ search_keys drive needle, ∀ l, drive.trigram.get_posting key = some l → c ∈ l) :
    c ∈ list ↔ BaseServes drive needle := by
  rw [mem_trigram_search h hlong hsearch]
  constructor
  · rintro ⟨⟨key, hkey, hne⟩, hall, -⟩
    -- The row is in a merged list only through the base.
    have hkept : ∀ k ∈ search_keys drive needle, effective_posting drive k ≠ [] →
        drive.trigram.get_posting k ≠ none := by
      intro k hk hk' hnone
      have hmem := hall k hk hk'
      rw [effective_posting, hnone, Option.getD_none, postings.nil_union] at hmem
      exact hoverlay k hmem
    refine ⟨⟨key, hkey, hkept key hkey hne⟩, fun k hk hnone => ?_⟩
    by_contra hback
    refine hkept k hk ?_ hnone
    rwa [effective_posting, hnone, Option.getD_none, postings.nil_union]
  · rintro ⟨⟨key, hkey, hkept⟩, hpruned⟩
    refine ⟨⟨key, hkey, effective_posting_ne_nil_of_base h hkept⟩, fun k hk hne => ?_, Or.inl hunmasked⟩
    cases hget : drive.trigram.get_posting k with
    | none =>
      rw [effective_posting, hget, hpruned k hk hget] at hne
      exact absurd rfl hne
    | some l =>
      rw [effective_posting, hget, postings.mem_union]
      exact Or.inl (hbase k hk l hget)

/-- A row the overlay lists under every key of the needle is found. -/
theorem mem_search_of_overlay (hlong : 3 ≤ needle.length) (hsearch : drive.trigram_search needle = some list) {c : UInt32}
    (hoverlay : ∀ key ∈ search_keys drive needle, c ∈ overlay_posting drive key) : c ∈ list := by
  have hmem : ∀ key ∈ search_keys drive needle, c ∈ effective_posting drive key := by
    intro key hkey
    rw [effective_posting, postings.mem_union]
    exact Or.inr (hoverlay key hkey)
  rw [mem_trigram_search h hlong hsearch]
  obtain ⟨key, hkey⟩ := List.exists_mem_of_ne_nil _ (search_keys_ne_nil drive hlong)
  exact ⟨⟨key, hkey, List.ne_nil_of_mem (hmem key hkey)⟩, fun k hk _ => hmem k hk, Or.inr hoverlay⟩

/-- State by state: the search is complete exactly when the rows left to the base can be served. -/
theorem searchComplete_iff_of_served (hlong : 3 ≤ needle.length) :
    SearchComplete drive needle ↔ Searchable drive needle := by
  obtain ⟨list, hsearch⟩ := exists_trigram_search drive hlong
  constructor
  · rintro hcomplete c rec hget hmatch ⟨key, hkey, hmissing⟩
    have hkeys := hmatch.keys_subset hlong
    cases h.row c rec hget hmatch.1 with
    | inl huntouched =>
      obtain ⟨hunmasked, hoverlay, hbase⟩ := huntouched
      exact (mem_search_of_untouched h hlong hsearch hunmasked hoverlay fun k hk => hbase k (hkeys hk)).mp
        (hcomplete list hsearch c rec hget hmatch)
    | inr hadded => exact absurd (hadded key (hkeys hkey)) hmissing
  · intro hsearchable found hfound c rec hget hmatch
    have hkeys := hmatch.keys_subset hlong
    cases h.row c rec hget hmatch.1 with
    | inl huntouched =>
      obtain ⟨hunmasked, hoverlay, hbase⟩ := huntouched
      obtain ⟨key, hkey⟩ := List.exists_mem_of_ne_nil _ (search_keys_ne_nil drive hlong)
      exact (mem_search_of_untouched h hlong hfound hunmasked hoverlay fun k hk => hbase k (hkeys hk)).mpr
        (hsearchable c rec hget hmatch ⟨key, hkey, hoverlay key⟩)
    | inr hadded => exact mem_search_of_overlay h hlong hfound fun k hk => hadded k (hkeys hk)

end

/-- The capacity of the postings table, next to that of the record column. -/
def Capacious (drive : DriveCompactIndex) : Prop :=
  Roomy drive ∧ Fits drive.records drive.names drive.fold

theorem fits_postings_of_core {records records' : List CompactRecord} (hcore : SameCore records records')
    {names : List UInt8} {fold : CaseFold} (h : Fits records names fold) : Fits records' names fold := by
  have hmap : ∀ rec : CompactRecord, record_trigrams names fold rec.core = record_trigrams names fold rec :=
    fun rec => rfl
  unfold Fits
  rw [← sorted_keys_map hmap, ← hcore, sorted_keys_map hmap]
  exact h

/-- In every state of a run the base was built from rows whose postings fit the table. -/
theorem Reachable.overlayFits {env : Env} {letter : Char} {fold : CaseFold} {index : MftIndex} (hwf : WellFormed index)
    (hreach : Reachable env (build_compact_index env letter fold index) Capacious drive) :
    ∃ base base_names, OverlayInv drive base base_names ∧ Fits base base_names drive.fold := by
  have hlinked : ∀ {d}, Reachable env (build_compact_index env letter fold index) Capacious d →
      Linked d.records d.frs_to_compact := fun hd => hd.linked hwf fun _ hok => hok.1
  induction hreach with
  | start hok => exact ⟨_, _, overlayInv_build hwf env letter fold, hok.2⟩
  | @step drive _ hreach hstep hok ih =>
    obtain ⟨base, base_names, hinv, hfits⟩ := ih
    cases hstep with
    | patch changes =>
      obtain ⟨base', base_names', hinv', hsame⟩ := overlayInv_apply_usn_patch hinv (hlinked hreach) hok.1.lt_size
      refine ⟨base', base_names', hinv', ?_⟩
      by_cases hdelta : (apply_usn_patch env drive changes).1.delta = none
      · obtain ⟨hcore, hnames⟩ := hinv'.2 hdelta
        rw [hnames]
        exact fits_postings_of_core hcore.symm hok.2
      · obtain ⟨rfl, rfl⟩ := hsame hdelta
        have hrebuilt := apply_usn_patch_rebuilt env drive changes
        have hroom := hok.1.lt_size
        rw [hrebuilt.length_eq] at hroom
        have hloop : Loop drive (mutated env drive changes) := run_changes_loop hroom
        rw [hrebuilt.fold, hloop.tables.fold]
        exact hfits
    | compact => exact ⟨_, _, overlayInv_compact_base (hlinked hreach) hinv.1.fits, hok.2⟩
    | fold_save =>
      cases fold_delta_for_save_eq drive with
      | inl heq => exact ⟨base, base_names, by rw [heq]; exact hinv, by rw [heq]; exact hfits⟩
      | inr heq =>
        rw [heq] at hok ⊢
        exact ⟨_, _, overlayInv_compact_base (hlinked hreach) hinv.1.fits, hok.2⟩

/-- What a search needs of the tables follows from the overlay invariant. -/
theorem served_of_overlayInv {base : List CompactRecord} {base_names : List UInt8} (h : OverlayInv drive base base_names)
    (hfits : Fits base base_names drive.fold) (hroomy : Roomy drive) : Served drive := by
  have hbase : base.length < UInt32.size := Nat.lt_of_le_of_lt h.1.length hroomy.lt_size
  have hposting : ∀ key list, drive.trigram.get_posting key = some list →
      list = posting_list base base_names drive.fold key ∧ Kept base base_names drive.fold key := by
    intro key list hlist
    rw [h.1.trigram, TrigramIndex.get_posting_build hbase hfits] at hlist
    split at hlist
    next hkept => exact ⟨(Option.some.inj hlist).symm, hkept⟩
    next => cases hlist
  refine ⟨fun key list hlist => ?_, h.1.sorted.trigram_ascending, fun c rec hget hlive => ?_⟩
  · obtain ⟨rfl, hkept⟩ := hposting key list hlist
    refine ⟨posting_list_ascending base_names drive.fold key hbase, ?_⟩
    obtain ⟨rec, hrec, hkey⟩ := List.countP_pos_iff.mp hkept.1
    obtain ⟨i, hi⟩ := List.getElem?_of_mem hrec
    have hlt := (List.getElem?_eq_some_iff.mp hi).1
    have hmem : len_to_u32 i ∈ posting_list base base_names drive.fold key := by
      refine (mem_posting_list hbase).mpr ⟨rec, ?_, by simpa using hkey⟩
      rw [len_to_u32_toNat (by omega)]
      exact hi
    exact List.ne_nil_of_mem hmem
  · cases h.1.slot c rec hget hlive with
    | inl huntouched =>
      refine Or.inl ⟨huntouched.unmasked, huntouched.trigram, fun key hkey list hlist => ?_⟩
      obtain ⟨rfl, -⟩ := hposting key list hlist
      obtain ⟨rec0, hget0, hcore⟩ := huntouched.same
      obtain ⟨tail, htail⟩ := h.1.names
      have hfits0 := h.1.base_fits rec0 (List.mem_of_getElem? hget0)
      refine (mem_posting_list hbase).mpr ⟨rec0, hget0, ?_⟩
      rw [← record_trigrams_of_core hcore, htail,
        record_trigrams_append hfits0 ((live_of_core hcore).mpr hlive)] at hkey
      exact hkey
    | inr hadded => exact Or.inr hadded.trigram

/-- In every state of every run, and for every needle of at least three characters, the trigram
search lists every matching row if and only if each matching row that the overlay does not list
can be served by the base: some key of the needle was kept there, and no key pruned there has
overlay postings. -/
theorem search_complete_iff_searchable (env : Env) (letter : Char) (fold : CaseFold) {index : MftIndex}
    (hwf : WellFormed index) {drive : DriveCompactIndex}
    (hreach : Reachable env (build_compact_index env letter fold index) Capacious drive) {needle : Str}
    (hlong : 3 ≤ needle.length) : SearchComplete drive needle ↔ Searchable drive needle := by
  obtain ⟨base, base_names, hinv, hfits⟩ := hreach.overlayFits hwf
  exact searchComplete_iff_of_served (served_of_overlayInv hinv hfits hreach.ok.1) hlong

/-- Creates of new files, with names that fit. -/
structure Newcomers (drive : DriveCompactIndex) (changes : List FileChange) : Prop where
  create : ∀ change ∈ changes, change.deleted = false ∧ change.created = true
  name : ∀ change ∈ changes, change.filename ≠ [] ∧ (as_bytes change.filename).length ≤ 255
  distinct : (changes.map (·.frs)).Nodup
  unmapped : ∀ change ∈ changes, slot_of drive change.frs = NO_ENTRY
  space : drive.names.length + 255 * changes.length < UInt32.size

/-- A live row that carries the name of the change. -/
structure NamedBy (names : List UInt8) (change : FileChange) (row : CompactRecord) : Prop where
  live : row.Live
  inRange : row.InRange names
  name_range : row.name_range names = some (as_bytes change.filename)

theorem NamedBy.append {names : List UInt8} {change : FileChange} {row : CompactRecord}
    (h : NamedBy names change row) (tail : List UInt8) : NamedBy (names ++ tail) change row :=
  ⟨h.live, h.inRange.append tail, (CompactRecord.name_range_append h.inRange).trans h.name_range⟩

/-- A batch of newcomers appends one row for each file, named by it. -/
theorem foldl_newcomers {env : Env} {changes : List FileChange} {patch : Patch} (h : Newcomers patch.drive changes) :
    ∃ rows tail, (changes.foldl (apply_change env) patch).drive.records = patch.drive.records ++ rows ∧
      (changes.foldl (apply_change env) patch).drive.names = patch.drive.names ++ tail ∧
      List.Forall₂ (NamedBy (changes.foldl (apply_change env) patch).drive.names) changes rows := by
  induction changes generalizing patch with
  | nil => exact ⟨[], [], (List.append_nil _).symm, (List.append_nil _).symm, List.Forall₂.nil⟩
  | cons change changes ih =>
    obtain ⟨hkind, hcreated⟩ := h.create change List.mem_cons_self
    obtain ⟨hname, hbytes⟩ := h.name change List.mem_cons_self
    have hspace := h.space
    rw [List.length_cons] at hspace
    obtain ⟨rec, hfresh, hrecords⟩ :=
      apply_change_append env hkind hcreated hname (h.unmapped change List.mem_cons_self)
    have heffect := apply_change_effect env patch change
    have hdistinct := List.nodup_cons.mp h.distinct
    rw [List.foldl_cons]
    generalize apply_change env patch change = after at *
    have hrest : Newcomers after.drive changes := by
      refine ⟨fun ch hch => h.create ch (List.mem_cons_of_mem _ hch),
        fun ch hch => h.name ch (List.mem_cons_of_mem _ hch), hdistinct.2, fun ch hch => ?_, ?_⟩
      · rw [heffect.slot_of_other]
        · exact h.unmapped ch (List.mem_cons_of_mem _ hch)
        · intro heq
          exact hdistinct.1 (List.mem_map.mpr ⟨ch, hch, heq⟩)
      · rw [hfresh.names, List.length_append]
        omega
    have hnamed : NamedBy after.drive.names change rec := by
      refine ⟨hfresh.live, hfresh.inRange, hfresh.name_range (by omega) ?_⟩
      have hsize : UInt16.size = 65536 := rfl
      omega
    obtain ⟨rows, tail, hrows, htail, hforall⟩ := ih hrest
    refine ⟨rec :: rows, as_bytes change.filename ++ tail, ?_, ?_, List.Forall₂.cons ?_ hforall⟩
    · rw [hrows, hrecords, List.append_assoc, List.singleton_append]
    · rw [htail, hfresh.names, List.append_assoc]
    · rw [htail]
      exact hnamed.append tail

/-- The whole batch: the rows are those of before and one for each newcomer. -/
theorem apply_usn_patch_newcomers (env : Env) {changes : List FileChange} (h : Newcomers drive changes)
    (hroom : drive.records.length + changes.length < UInt32.size) (hordered : order_parent_first changes = changes) :
    ∃ rows, SameCore (drive.records ++ rows) (apply_usn_patch env drive changes).1.records ∧
      List.Forall₂ (NamedBy (apply_usn_patch env drive changes).1.names) changes rows ∧
      (apply_usn_patch env drive changes).1.fold = drive.fold := by
  have hrebuilt := apply_usn_patch_rebuilt env drive changes
  have hmutated : mutated env drive changes = changes.foldl (apply_change env) { drive := drive } := by
    rw [mutated, hordered]
    rfl
  obtain ⟨rows, tail, hrows, -, hforall⟩ := @foldl_newcomers env changes { drive := drive } h
  rw [← hmutated] at hrows hforall
  have hlength : (mutated env drive changes).drive.records.length = drive.records.length + changes.length := by
    rw [hrows, List.length_append, hforall.length_eq]
  have hloop : Loop drive (mutated env drive changes) := run_changes_loop (by rw [← mutated, hlength]; exact hroom)
  refine ⟨rows, ?_, ?_, hrebuilt.fold.trans hloop.tables.fold⟩
  · have hcore := hrebuilt.core
    rwa [hrows] at hcore
  · rwa [hrebuilt.names]

theorem frequency_of_core {records records' : List CompactRecord} (hcore : SameCore records records')
    (names : List UInt8) (fold : CaseFold) (key : UInt64) :
    frequency records names fold key = frequency records' names fold key := by
  have hmap : ∀ list : List CompactRecord,
      frequency list names fold key = frequency (list.map CompactRecord.core) names fold key := by
    intro list
    rw [frequency, frequency, List.countP_map]
    rfl
  rw [hmap, hcore, ← hmap]

/-- The row of a name that contains the needle matches it. -/
theorem NamedBy.matches {drive : DriveCompactIndex} {change : FileChange} {row : CompactRecord} {needle : Str}
    (h : NamedBy drive.names change row) (hneedle : needle <:+: change.filename) : Matches drive needle row := by
  refine ⟨h.live, change.filename, ?_, ?_⟩
  · rw [h.name_range, Option.bind_some, from_utf8_as_bytes]
  · rw [CaseFold.contains_folded_iff]
    exact hneedle.map _

theorem matches_of_core {a b : CompactRecord} (hcore : a.core = b.core) (h : Matches drive needle a) :
    Matches drive needle b := by
  obtain ⟨hlive, name, hname, hcontains⟩ := h
  rw [name_range_of_core hcore] at hname
  exact ⟨(live_of_core hcore).mp hlive, name, hname, hcontains⟩

/-- A crowd of newcomers that match a needle with a single key is lost to the search once the
overlay is folded: there are too many of them, and the key is pruned from the base. -/
theorem crowd_not_searchComplete (env : Env) {changes : List FileChange} (h : Newcomers drive changes) {key : UInt64}
    (hlong : 3 ≤ needle.length) (hkey : char_trigrams (drive.fold.fold_to_u16 needle) = [key])
    (hneedle : ∀ change ∈ changes, needle <:+: change.filename)
    (hcrowd : freq_cap (drive.records.length + changes.length) < changes.length)
    (hroom : drive.records.length + changes.length < UInt32.size) (hordered : order_parent_first changes = changes) :
    ¬ SearchComplete (apply_usn_patch env drive changes).1.compact_base needle := by
  obtain ⟨rows, hcore, hforall, hfold⟩ := apply_usn_patch_newcomers env h hroom hordered
  have hcount : rows.length = changes.length := hforall.length_eq.symm
  have hlen := hcore.length_eq
  rw [List.length_append, hcount] at hlen
  generalize apply_usn_patch env drive changes = out at *
  -- All rows of the crowd match, in the state after the compaction too.
  have hmatches : ∀ row ∈ rows, Matches out.1.compact_base needle row := by
    intro row hrow
    obtain ⟨change, hchange, hnamed⟩ : ∃ change ∈ changes, NamedBy out.1.names change row := by
      obtain ⟨i, hi⟩ := List.getElem?_of_mem hrow
      obtain ⟨hi', -⟩ := List.getElem?_eq_some_iff.mp hi
      have hget := hforall.get (i := i) (hcount ▸ hi') hi'
      refine ⟨_, List.get_mem changes ⟨i, hcount ▸ hi'⟩, ?_⟩
      rw [← List.getElem?_eq_some_iff.mp hi |>.2]
      exact hget
    exact @NamedBy.matches out.1.compact_base change row needle hnamed (hneedle change hchange)
  have hkeys : search_keys out.1.compact_base needle = [key] := by
    rw [← hkey, ← hfold]
    rfl
  have hfrequency : changes.length ≤ frequency out.1.records out.1.names out.1.fold key := by
    have hall : frequency rows out.1.names out.1.fold key = rows.length := by
      rw [frequency, List.countP_eq_length]
      intro row hrow
      exact decide_eq_true ((hmatches row hrow).keys_subset hlong (hkeys ▸ List.mem_singleton_self key))
    rw [← frequency_of_core hcore, frequency_append, hall, hcount]
    exact Nat.le_add_left _ _
  have hpruned : out.1.compact_base.trigram.get_posting key = none := by
    refine TrigramIndex.get_posting_build_of_not_kept (by omega) fun hkept => ?_
    have hcap := hkept.2
    rw [hlen] at hcap
    omega
  intro hcomplete
  have hsearch : out.1.compact_base.trigram_search needle = some [] := by
    change TrigramIndex.search _ _ _ = some []
    rw [TrigramIndex.search, needle_trigrams_eq out.1.compact_base hlong, hkeys]
    have hlists : [key].filterMap out.1.compact_base.trigram.get_posting = [] := by
      rw [List.filterMap_cons_none hpruned, List.filterMap_nil]
    rw [Option.bind_eq_bind, Option.bind_some, hlists]
    rfl
  obtain ⟨row, hrow⟩ := List.exists_mem_of_length_pos (show 0 < rows.length by omega)
  obtain ⟨i, hi⟩ := List.getElem?_of_mem (List.mem_append_right drive.records hrow)
  obtain ⟨row', hrow', hrowCore⟩ := SameCore.exists_core hcore.symm hi
  have hi' : i < UInt32.size := by
    have hlt := (List.getElem?_eq_some_iff.mp hi).1
    rw [List.length_append, hcount] at hlt
    omega
  have hfound := hcomplete [] hsearch (len_to_u32 i) row' (by rw [len_to_u32_toNat hi']; exact hrow')
    (matches_of_core hrowCore.symm (hmatches row hrow))
  exact List.not_mem_nil hfound

/-- A file in the root directory whose name is `abc` and one more letter. -/
def crowd_change (i : Nat) : FileChange where
  frs := UInt64.ofNat (16 + i)
  parent_frs := 5
  filename := ['a', 'b', 'c', Char.ofNat (0x4E00 + i)]
  created := true

def crowd (n : Nat) : List FileChange := (List.range n).map crowd_change

theorem crowd_newcomers : Newcomers (build_compact_index sample_env 'C' ⟨[]⟩ root_mft) (crowd 1025) := by
  obtain ⟨-, hnames, -⟩ := build_compact_index_columns sample_env 'C' ⟨[]⟩ root_mft
  refine ⟨fun change hmem => ?_, fun change hmem => ?_, ?_, fun change hmem => ?_, ?_⟩
  · obtain ⟨i, -, rfl⟩ := List.mem_map.mp hmem
    exact ⟨rfl, rfl⟩
  · obtain ⟨i, -, rfl⟩ := List.mem_map.mp hmem
    have hbytes := as_bytes_length_le (crowd_change i).filename
    exact ⟨List.cons_ne_nil _ _, hbytes.trans (by simp [crowd_change])⟩
  · rw [crowd, List.map_map]
    refine List.Nodup.map_on (fun i hi j hj heq => ?_) List.nodup_range
    have hi' := List.mem_range.mp hi
    have hj' := List.mem_range.mp hj
    have hnat := congrArg UInt64.toNat heq
    simp only [Function.comp, crowd_change, UInt64.toNat_ofNat'] at hnat
    omega
  · obtain ⟨i, hi, rfl⟩ := List.mem_map.mp hmem
    have hi' := List.mem_range.mp hi
    have hfrs : frs_to_usize (crowd_change i).frs = 16 + i := by
      simp only [frs_to_usize, crowd_change, UInt64.toNat_ofNat']
      omega
    have hnone : root_mft.frs_to_idx[16 + i]? = none := List.getElem?_eq_none (by simp [root_mft]; omega)
    rw [slot_of_build, hfrs, hnone]
    rfl
  · have hblob : (expanded_rows root_mft).1.length = 1 := by decide
    rw [hnames, hblob, crowd, List.length_map, List.length_range]
    decide

/-- A file `abc` created in the directory `b`. -/
def abc_created : FileChange where
  frs := 18
  parent_frs := 17
  filename := ['a', 'b', 'c']
  created := true

theorem abc_capacious : Capacious (sample_index dirs_mft) ∧ Capacious (apply_usn_patch sample_env (sample_index dirs_mft) [abc_created]).1 := by
  refine ⟨⟨?_, fits_of_kept (by decide)⟩, ?_, fits_of_kept (by decide)⟩
  · rw [Roomy]
    decide
  · rw [Roomy]
    decide

/-- The new file is found in the overlay. -/
theorem search_complete_iff_searchable_abc :
    WellFormed dirs_mft ∧
      Reachable sample_env (build_compact_index sample_env 'C' ⟨[]⟩ dirs_mft) Capacious
        (apply_usn_patch sample_env (build_compact_index sample_env 'C' ⟨[]⟩ dirs_mft) [abc_created]).1 ∧
      (SearchComplete (apply_usn_patch sample_env (build_compact_index sample_env 'C' ⟨[]⟩ dirs_mft) [abc_created]).1 ['a', 'b', 'c'] ↔
        Searchable (apply_usn_patch sample_env (build_compact_index sample_env 'C' ⟨[]⟩ dirs_mft) [abc_created]).1 ['a', 'b', 'c']) := by
  have hreach := (Reachable.start abc_capacious.1).step (Step.patch [abc_created]) abc_capacious.2
  exact ⟨dirs_mft_wellFormed, hreach, search_complete_iff_searchable sample_env 'C' ⟨[]⟩ dirs_mft_wellFormed hreach (by decide)⟩

/-- 1025 files whose names start with `abc` are created, the overlay is folded, and the search for
`abc` finds none of them. -/
theorem search_not_complete_crowd :
    WellFormed root_mft ∧
      Reachable sample_env (build_compact_index sample_env 'C' ⟨[]⟩ root_mft) Roomy
        (apply_usn_patch sample_env (build_compact_index sample_env 'C' ⟨[]⟩ root_mft) (crowd 1025)).1.compact_base ∧
      ¬ SearchComplete
        (apply_usn_patch sample_env (build_compact_index sample_env 'C' ⟨[]⟩ root_mft) (crowd 1025)).1.compact_base
        ['a', 'b', 'c'] := by
  have hroomy := @roomy_build root_mft (by decide) sample_env 'C' ⟨[]⟩
  obtain ⟨hcore, -, -⟩ := build_compact_index_columns sample_env 'C' ⟨[]⟩ root_mft
  have hlength : (build_compact_index sample_env 'C' ⟨[]⟩ root_mft).records.length = 1 := hcore.length_eq
  have hcount : (crowd 1025).length = 1025 := by rw [crowd, List.length_map, List.length_range]
  have hordered : order_parent_first (crowd 1025) = crowd 1025 := by
    refine order_parent_first_eq_self fun change hmem hparent => ?_
    obtain ⟨i, -, rfl⟩ := List.mem_map.mp hmem
    obtain ⟨other, hother, hfrs⟩ := List.mem_map.mp hparent
    obtain ⟨j, hj, rfl⟩ := List.mem_map.mp (List.mem_filter.mp hother).1
    have hj' := List.mem_range.mp hj
    have hnat := congrArg UInt64.toNat hfrs
    simp only [crowd_change, UInt64.toNat_ofNat'] at hnat
    change (16 + j) % 2 ^ 64 = 5 at hnat
    omega
  have hroom : (build_compact_index sample_env 'C' ⟨[]⟩ root_mft).records.length + (crowd 1025).length < UInt32.size := by
    rw [hlength, hcount]
    decide
  have hpatched : Roomy (apply_usn_patch sample_env (build_compact_index sample_env 'C' ⟨[]⟩ root_mft) (crowd 1025)).1 := by
    obtain ⟨rows, hrows, hforall, -⟩ := apply_usn_patch_newcomers sample_env crowd_newcomers hroom hordered
    unfold Roomy
    rw [hrows.length_eq, List.length_append, hlength, ← hforall.length_eq, hcount]
    decide
  have hkey : char_trigrams ((build_compact_index sample_env 'C' ⟨[]⟩ root_mft).fold.fold_to_u16 ['a', 'b', 'c']) =
      [pack_char_trigram 97 98 99] := by
    change char_trigrams (CaseFold.fold_to_u16 ⟨[]⟩ ['a', 'b', 'c']) = _
    decide
  refine ⟨root_mft_wellFormed, ?_, ?_⟩
  · exact Reachable.step (Reachable.step (Reachable.start hroomy) (Step.patch _) hpatched) Step.compact
      (roomy_compact_base hpatched)
  · refine crowd_not_searchComplete sample_env crowd_newcomers (by decide) hkey
      (fun change hmem => ?_) ?_ hroom hordered
    · obtain ⟨i, -, rfl⟩ := List.mem_map.mp hmem
      exact ⟨[], [Char.ofNat (0x4E00 + i)], rfl⟩
    · rw [hlength, hcount]
      decide

end uffs.usn
