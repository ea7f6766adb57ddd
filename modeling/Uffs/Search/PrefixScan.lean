import Uffs.Search.ExtScan
import Uffs.Usn.Search

open uffs.lib uffs.text uffs.bloom uffs.trigram uffs.compact uffs.mft uffs.usn

namespace uffs.search

/-- The prefix of a pattern that ends in its only wildcard, a star. -/
def is_prefix_pattern (pattern : Str) : Option Str := do
  let pre ← strip_last '*' pattern
  if (as_bytes pre).length < 3 then none
  else if '*' ∈ pre ∨ '?' ∈ pre ∨ '\\' ∈ pre ∨ '/' ∈ pre then none
  else some pre

/-- The first three bytes of the prefix, or all of it when they end inside a character. -/
def trigram_needle (pre : Str) : Str := (from_utf8 ((as_bytes pre).take 3)).getD pre

/-- The loop over the candidates. -/
def match_candidates (drive : DriveCompactIndex) (accepts : CompactRecord → Bool) (limit : Nat) :
    List UInt32 → List UInt32 → List UInt32
  | [], match_indices => match_indices
  | rec_idx :: candidates, match_indices =>
    match drive.records[rec_idx.toNat]? with
    | none => match_candidates drive accepts limit candidates match_indices
    | some rec =>
      if accepts rec then
        let pushed := match_indices ++ [rec_idx]
        if limit ≤ pushed.length then pushed else match_candidates drive accepts limit candidates pushed
      else match_candidates drive accepts limit candidates match_indices

/-- The tests of the loop on one record. -/
def prefix_accepts (env : Env) (drive : DriveCompactIndex) (pre : Str) (case_sensitive : Bool) (filters : SearchFilters)
    (rec : CompactRecord) : Bool :=
  let name := rec.name drive.names
  if name = [] then false
  else
    let found :=
      if case_sensitive then pre.isPrefixOf name
      else (drive.fold.fold_into pre).isPrefixOf (drive.fold.fold_into name)
    found && (filters.resolve_ext_ids_for_drive env drive).matches_record env rec drive.names drive.fold

/-- A row for each slot; slots without a name are skipped. -/
def indices_to_rows (drive : DriveCompactIndex) (indices : List UInt32) (render : Render) : List DisplayRow :=
  indices.filterMap fun idx =>
    match drive.records[idx.toNat]? with
    | none => none
    | some rec => if rec.name drive.names = [] then none else some (build_row drive idx rec render)

def search_compact_drive_prefix (env : Env) (drive : DriveCompactIndex) (pre : Str) (limit : Nat) (case_sensitive : Bool)
    (filters : SearchFilters) (render : Render) : List DisplayRow :=
  let match_indices :=
    match drive.trigram_search (trigram_needle pre) with
    | none => []
    | some candidates => match_candidates drive (prefix_accepts env drive pre case_sensitive filters) limit candidates []
  indices_to_rows drive match_indices render

/-- The search returns the live records whose folded names match the folded pattern, and no others. -/
def PrefixExact (env : Env) (drive : DriveCompactIndex) (pattern pre : Str) (limit : Nat) (render : Render) : Prop :=
  ∀ c : UInt32, c ∈ ( search_compact_drive_prefix env drive pre limit false {} render).map (·.record_index) ↔
    ∃ rec, drive.records[c.toNat]? = some rec ∧ rec.Live ∧
      name_matches (drive.fold.fold_into (rec.name drive.names)) (drive.fold.fold_into pattern) = true

theorem is_prefix_pattern_eq_some {pattern pre : Str} :
    is_prefix_pattern pattern = some pre ↔
      pattern = pre ++ ['*'] ∧ 3 ≤ (as_bytes pre).length ∧ '*' ∉ pre ∧ '?' ∉ pre ∧ '\\' ∉ pre ∧ '/' ∉ pre := by
  unfold is_prefix_pattern
  constructor
  · intro h
    obtain ⟨kept, hkept, h⟩ := Option.bind_eq_some_iff.mp h
    split_ifs at h with hshort hspecial
    obtain rfl := Option.some.inj h
    simp only [not_or] at hspecial
    exact ⟨strip_last_eq_some.mp hkept, Nat.le_of_not_lt hshort, hspecial⟩
  · rintro ⟨rfl, hlong, hspecial⟩
    have hkept : strip_last '*' (pre ++ ['*']) = some pre := strip_last_eq_some.mpr rfl
    rw [hkept, Option.bind_eq_bind, Option.bind_some, if_neg (Nat.not_lt.mpr hlong), if_neg]
    simpa only [not_or] using hspecial

theorem trigram_needle_starts (pre : Str) : trigram_needle pre <+: pre := by
  unfold trigram_needle
  cases hcut : from_utf8 ((as_bytes pre).take 3) with
  | none => exact List.prefix_refl _
  | some needle =>
    rw [Option.getD_some, ← as_bytes_prefix_iff, as_bytes_of_from_utf8 hcut]
    exact List.take_prefix _ _

/-- Without a limit in the way the loop keeps every candidate it accepts. -/
theorem match_candidates_eq {drive : DriveCompactIndex} {accepts : CompactRecord → Bool} {limit : Nat}
    {candidates match_indices : List UInt32}
    (hlimit : match_indices.length + (candidates.filter fun c => drive.records[c.toNat]?.any accepts).length ≤ limit) :
    match_candidates drive accepts limit candidates match_indices =
      match_indices ++ candidates.filter fun c => drive.records[c.toNat]?.any accepts := by
  induction candidates generalizing match_indices with
  | nil => rw [match_candidates, List.filter_nil, List.append_nil]
  | cons c candidates ih =>
    rw [match_candidates]
    cases hget : drive.records[c.toNat]? with
    | none =>
      have hout : (drive.records[c.toNat]?.any accepts) = false := by rw [hget]; rfl
      rw [List.filter_cons_of_neg (by simp [hout])] at hlimit ⊢
      exact ih hlimit
    | some rec =>
      have hany : (drive.records[c.toNat]?.any accepts) = accepts rec := by rw [hget]; rfl
      dsimp only
      by_cases haccepts : accepts rec = true
      · rw [List.filter_cons_of_pos (by rw [hany]; exact haccepts)] at hlimit ⊢
        rw [if_pos haccepts, List.length_append, List.length_singleton]
        rw [List.length_cons] at hlimit
        split_ifs with hfull
        · -- the limit is met with the last one that is accepted
          have hnone : (candidates.filter fun c => drive.records[c.toNat]?.any accepts) = [] :=
            List.length_eq_zero_iff.mp (by omega)
          rw [hnone]
        · rw [ih (by rw [List.length_append, List.length_singleton]; omega), List.append_assoc]
          rfl
      · rw [List.filter_cons_of_neg (by rw [hany]; exact haccepts)] at hlimit ⊢
        rw [if_neg haccepts]
        exact ih hlimit

/-- Filters at their defaults accept every record. -/
theorem default_filters_accept (env : Env) (drive : DriveCompactIndex) (rec : CompactRecord) :
    (({} : SearchFilters).resolve_ext_ids_for_drive env drive).matches_record env rec drive.names drive.fold = true := by
  simp [SearchFilters.resolve_ext_ids_for_drive, SearchFilters.matches_record, SearchFilters.matches_extension,
    SearchFilters.matches_derived, at_least, at_most, older_than]

/-- The folded name starts with the folded prefix. -/
def StartsWith (drive : DriveCompactIndex) (pre : Str) (rec : CompactRecord) : Prop :=
  drive.fold.fold_into pre <+: drive.fold.fold_into (rec.name drive.names)

/-- Long enough for a trigram, and the slot is in the overlay or the base can serve it. -/
def Indexed (drive : DriveCompactIndex) (needle : Str) (c : UInt32) : Prop :=
  3 ≤ needle.length ∧ ((∃ key ∈ search_keys drive needle, c ∉ overlay_posting drive key) → BaseServes drive needle)

/-- A star and something more behind the prefix; the glob loop takes that star for its own. -/
def StarFollows (drive : DriveCompactIndex) (pre : Str) (rec : CompactRecord) : Prop :=
  '|' ∉ pre ∧ ∃ ch rest, drive.fold.fold_into (rec.name drive.names) = drive.fold.fold_into pre ++ '*' :: ch :: rest

/-- When the prefix search is exact: the index lists the names that start with the prefix, apart
from those with a star behind it, and no name has only an alternative of a prefix with bars. -/
structure PrefixServed (drive : DriveCompactIndex) (pre : Str) : Prop where
  indexed : ∀ (c : UInt32) rec, drive.records[c.toNat]? = some rec → StartsWith drive pre rec →
    (Indexed drive (trigram_needle pre) c ↔ ¬ StarFollows drive pre rec)
  whole : '|' ∈ pre → ∀ (c : UInt32) rec, drive.records[c.toNat]? = some rec →
    drive.fold.fold_into (rec.name drive.names) ≠ [] → drive.fold.fold_into (rec.name drive.names) ≠ ['.'] →
    ∀ piece ∈ split '|' (drive.fold.fold_into pre ++ ['*']),
      name_matches_single (drive.fold.fold_into (rec.name drive.names)) piece = true → StartsWith drive pre rec

variable {rec : CompactRecord}

section Served

variable {drive : DriveCompactIndex} {pre : Str}

/-- A row whose name starts with the prefix has its trigrams. -/
theorem StartsWith.matches (hfold : drive.fold.Whole) (hne : pre ≠ []) (h : StartsWith drive pre rec)
    {needle : Str} (hneedle : needle <+: pre) : Matches drive needle rec := by
  have hunits := hfold.fold_to_u16_prefix h
  have hname : rec.name drive.names ≠ [] := by
    intro hnil
    have hlen := hunits.length_le
    rw [hnil, CaseFold.fold_to_u16_length, CaseFold.fold_to_u16_length] at hlen
    exact hne (List.length_eq_zero_iff.mp (Nat.le_zero.mp hlen))
  have hread : (rec.name_range drive.names).bind from_utf8 = some (rec.name drive.names) := by
    have hempty : from_utf8 [] = some [] := from_utf8_as_bytes []
    unfold CompactRecord.name CompactRecord.name_bytes at hname ⊢
    cases hrange : rec.name_range drive.names with
    | none => simp [hrange, hempty] at hname
    | some bytes =>
      rw [hrange, Option.getD_some] at hname
      cases hutf8 : from_utf8 bytes with
      | none => simp [hutf8] at hname
      | some text => simp [hutf8]
  refine ⟨CompactRecord.live_of_name hname, _, hread, ?_⟩
  · rw [CaseFold.contains_folded_iff]
    exact ((hneedle.map _).trans hunits).isInfix

/-- A row with the keys of the needle is a candidate exactly when it is indexed. -/
theorem mem_candidates_iff (h : usn.Served drive) {needle : Str} {c : UInt32}
    (hget : drive.records[c.toNat]? = some rec) (hmatch : Matches drive needle rec) :
    (∃ candidates, drive.trigram_search needle = some candidates ∧ c ∈ candidates) ↔ Indexed drive needle c := by
  by_cases hlong : 3 ≤ needle.length
  · obtain ⟨candidates, hsearch⟩ := exists_trigram_search drive hlong
    have hkeys := hmatch.keys_subset hlong
    obtain ⟨key, hkey⟩ := List.exists_mem_of_ne_nil _ (search_keys_ne_nil drive hlong)
    have hmem : (∃ list, drive.trigram_search needle = some list ∧ c ∈ list) ↔ c ∈ candidates := by
      rw [hsearch]
      constructor
      · rintro ⟨list, hlist, hc⟩
        exact Option.some.inj hlist ▸ hc
      · exact fun hc => ⟨candidates, rfl, hc⟩
    rw [hmem, Indexed]
    cases h.row c rec hget hmatch.1 with
    | inl huntouched =>
      obtain ⟨hunmasked, hoverlay, hbase⟩ := huntouched
      rw [mem_search_of_untouched h hlong hsearch hunmasked hoverlay fun k hk => hbase k (hkeys hk)]
      exact ⟨fun hserves => ⟨hlong, fun _ => hserves⟩, fun hindexed => hindexed.2 ⟨key, hkey, hoverlay key⟩⟩
    | inr hadded =>
      have hoverlay : ∀ k ∈ search_keys drive needle, c ∈ overlay_posting drive k := fun k hk => hadded k (hkeys hk)
      refine ⟨fun _ => ⟨hlong, ?_⟩, fun _ => mem_search_of_overlay h hlong hsearch hoverlay⟩
      rintro ⟨k, hk, hmissing⟩
      exact absurd (hoverlay k hk) hmissing
  · rw [trigram_search_of_short drive (Nat.lt_of_not_le hlong)]
    exact ⟨nofun, fun hindexed => absurd hindexed.1 hlong⟩

theorem prefix_accepts_iff (env : Env) (hfold : drive.fold.Whole) (hne : pre ≠ []) (rec : CompactRecord) :
    prefix_accepts env drive pre false {} rec = true ↔ StartsWith drive pre rec := by
  unfold prefix_accepts
  dsimp only
  rw [default_filters_accept, Bool.and_true]
  by_cases hname : rec.name drive.names = []
  · rw [if_pos hname]
    constructor
    · nofun
    · intro h
      have hlen := h.length_le
      rw [hname, hfold.fold_into_length, hfold.fold_into_length] at hlen
      exact absurd (List.length_eq_zero_iff.mp (Nat.le_zero.mp hlen)) hne
  · rw [if_neg hname, if_neg Bool.false_ne_true, List.isPrefixOf_iff_prefix]
    rfl

/-- The slots of an ascending list that have a record are no more than the records. -/
theorem slots_length_le {slots : List UInt32} (hslots : postings.Ascending slots) {records : List CompactRecord}
    (hlt : ∀ c ∈ slots, c.toNat < records.length) : slots.length ≤ records.length := by
  have hnodup : (slots.map UInt32.toNat).Nodup := hslots.nodup.map fun _ _ => UInt32.toNat_inj.mp
  have hsub : slots.map UInt32.toNat ⊆ List.range records.length := by
    intro n hn
    obtain ⟨c, hc, rfl⟩ := List.mem_map.mp hn
    exact List.mem_range.mpr (hlt c hc)
  have hle := (hnodup.subperm hsub).length_le
  rwa [List.length_map, List.length_range] at hle

theorem mem_indices_to_rows {indices : List UInt32} {render : Render} {c : UInt32} :
    c ∈ (indices_to_rows drive indices render).map (·.record_index) ↔
      c ∈ indices ∧ ∃ rec, drive.records[c.toNat]? = some rec ∧ rec.name drive.names ≠ [] := by
  rw [List.mem_map]
  unfold indices_to_rows
  constructor
  · rintro ⟨row, hrow, rfl⟩
    obtain ⟨idx, hidx, hmade⟩ := List.mem_filterMap.mp hrow
    cases hget : drive.records[idx.toNat]? with
    | none => simp [hget] at hmade
    | some rec =>
      simp only [hget] at hmade
      split_ifs at hmade with hname
      rw [← Option.some.inj hmade]
      exact ⟨hidx, rec, hget, hname⟩
  · rintro ⟨hmem, rec, hget, hname⟩
    refine ⟨build_row drive c rec render, List.mem_filterMap.mpr ⟨c, hmem, ?_⟩, rfl⟩
    rw [hget]
    exact if_neg hname

/-- What the search returns: the slots whose names start with the prefix and that are indexed. -/
theorem mem_prefix_rows (env : Env) (h : usn.Served drive) (hfold : drive.fold.Whole) (hne : pre ≠ []) {limit : Nat}
    (hlimit : drive.records.length ≤ limit) (render : Render) (c : UInt32) :
    c ∈ ( search_compact_drive_prefix env drive pre limit false {} render).map (·.record_index) ↔
      ∃ rec, drive.records[c.toNat]? = some rec ∧ StartsWith drive pre rec ∧ Indexed drive (trigram_needle pre) c := by
  have hindexed : ∀ rec, drive.records[c.toNat]? = some rec → StartsWith drive pre rec →
      ((∃ candidates, drive.trigram_search (trigram_needle pre) = some candidates ∧ c ∈ candidates) ↔
        Indexed drive (trigram_needle pre) c) :=
    fun rec hget hstarts => mem_candidates_iff h hget (hstarts.matches hfold hne (trigram_needle_starts pre))
  have hnamed : ∀ rec, StartsWith drive pre rec → rec.name drive.names ≠ [] := by
    intro rec hstarts hname
    have haccepts := (prefix_accepts_iff env hfold hne rec).mpr hstarts
    unfold prefix_accepts at haccepts
    rw [if_pos hname] at haccepts
    cases haccepts
  unfold search_compact_drive_prefix
  rw [mem_indices_to_rows]
  cases hsearch : drive.trigram_search (trigram_needle pre) with
  | none =>
    simp only [hsearch] at hindexed
    constructor
    · rintro ⟨hmem, -⟩
      exact absurd hmem List.not_mem_nil
    · rintro ⟨rec, hget, hstarts, hin⟩
      obtain ⟨candidates, hcandidates, -⟩ := (hindexed rec hget hstarts).mpr hin
      cases hcandidates
  | some candidates =>
    simp only [hsearch, Option.some.injEq, exists_eq_left'] at hindexed
    have hkept := (h.trigram_search_ascending hsearch).filter fun c =>
      drive.records[c.toNat]?.any (prefix_accepts env drive pre false {})
    have hfits := @slots_length_le _ hkept drive.records fun d hd => by
      have hany := (List.mem_filter.mp hd).2
      by_contra hout
      rw [List.getElem?_eq_none (Nat.le_of_not_lt hout)] at hany
      cases hany
    dsimp only
    rw [match_candidates_eq (by rw [List.length_nil]; omega), List.nil_append, List.mem_filter]
    constructor
    · rintro ⟨⟨hmem, hany⟩, rec, hget, -⟩
      rw [hget, Option.any_some, prefix_accepts_iff env hfold hne] at hany
      exact ⟨rec, hget, hany, (hindexed rec hget hany).mp hmem⟩
    · rintro ⟨rec, hget, hstarts, hin⟩
      refine ⟨⟨(hindexed rec hget hstarts).mpr hin, ?_⟩, rec, hget, hnamed rec hstarts⟩
      rw [hget, Option.any_some, prefix_accepts_iff env hfold hne]
      exact hstarts

end Served

section Pattern

variable {fold : CaseFold} {pre name : Str}

theorem fold_into_pattern (hfold : fold.Whole) : fold.fold_into (pre ++ ['*']) = fold.fold_into pre ++ ['*'] := by
  rw [hfold.fold_into_append, @CaseFold.Upcase.fold_into_ascii fold hfold.toUpcase ['*'] (List.forall_mem_singleton.mpr (by decide))]
  rfl

theorem bar_mem_fold_into (hfold : fold.Whole) : '|' ∈ fold.fold_into pre ↔ '|' ∈ pre :=
  hfold.mem_fold_into_caseless_iff (by decide) (by decide) (by decide)

theorem fold_into_pattern_ne (hfold : fold.Whole) (hne : pre ≠ []) : fold.fold_into pre ≠ [] := by
  intro h
  have hlen := hfold.fold_into_length pre
  rw [h] at hlen
  exact hne (List.length_eq_zero_iff.mp hlen.symm)

/-- A prefix without bars: what `name_matches` says of it. -/
theorem name_matches_plain_iff (hfold : fold.Whole) (hne : pre ≠ []) (hstar : '*' ∉ pre) (hany : '?' ∉ pre) (hbar : '|' ∉ pre) :
    name_matches name (fold.fold_into (pre ++ ['*'])) = true ↔
      name ≠ [] ∧ name ≠ ['.'] ∧ fold.fold_into pre <+: name ∧ ∀ ch rest, name ≠ fold.fold_into pre ++ '*' :: ch :: rest := by
  have hne' := fold_into_pattern_ne hfold hne
  have hstar' : '*' ∉ fold.fold_into pre := fun h => hstar ((hfold.mem_fold_into_iff (by decide)).mp h)
  have hany' : '?' ∉ fold.fold_into pre := fun h => hany ((hfold.mem_fold_into_iff (by decide)).mp h)
  have hbar' : '|' ∉ fold.fold_into pre ++ ['*'] := by
    rw [List.mem_append, bar_mem_fold_into hfold]
    rintro (h | h)
    · exact hbar h
    · exact absurd h (by decide)
  have hpattern : fold.fold_into pre ++ ['*'] ≠ ['*'] := by
    intro h
    have hlen := congrArg List.length h
    rw [List.length_append, List.length_singleton] at hlen
    exact hne' (List.length_eq_zero_iff.mp (by omega))
  rw [fold_into_pattern hfold, name_matches]
  split_ifs with hempty
  · constructor
    · intro h
      cases h
    · rintro ⟨h, h', -⟩
      exact (hempty.elim h h').elim
  · rw [not_or] at hempty
    rw [name_matches_single_run_star hne' hstar' hany']
    exact ⟨fun h => ⟨hempty.1, hempty.2, h⟩, fun h => h.2.2⟩

/-- A prefix with bars is a choice: what `name_matches` says of it. -/
theorem name_matches_choice_iff (hfold : fold.Whole) (hbar : '|' ∈ pre) :
    name_matches name (fold.fold_into (pre ++ ['*'])) = true ↔
      name ≠ [] ∧ name ≠ ['.'] ∧ ∃ piece ∈ split '|' (fold.fold_into pre ++ ['*']), name_matches_single name piece = true := by
  have hbar' : '|' ∈ fold.fold_into pre ++ ['*'] := List.mem_append_left _ ((bar_mem_fold_into hfold).mpr hbar)
  have hpattern : fold.fold_into pre ++ ['*'] ≠ ['*'] := by
    intro h
    rw [h] at hbar'
    exact absurd hbar' (by decide)
  rw [fold_into_pattern hfold, name_matches]
  split_ifs with hempty
  · constructor
    · intro h
      cases h
    · rintro ⟨h, h', -⟩
      exact (hempty.elim h h').elim
  · rw [not_or] at hempty
    rw [List.any_eq_true]
    exact ⟨fun h => ⟨hempty.1, hempty.2, h⟩, fun h => h.2.2⟩

/-- A name that starts with the whole prefix contains its first alternative. -/
theorem choice_of_starts (hstar : '*' ∉ pre) (hany : '?' ∉ pre) (hbar : '|' ∈ pre) (hstarts : pre <+: name) :
    ∃ piece ∈ split '|' (pre ++ ['*']), name_matches_single name piece = true := by
  obtain ⟨first, rest, rfl, hfirst⟩ := List.eq_append_cons_of_mem hbar
  rw [List.append_assoc, List.cons_append, split_append_cons hfirst]
  refine ⟨first, List.mem_cons_self, ?_⟩
  have hsub : first <:+: name := ((List.prefix_append _ _).trans hstarts).isInfix
  have hplain : '*' ∉ first ∧ '?' ∉ first :=
    ⟨fun h => hstar (List.mem_append_left _ h), fun h => hany (List.mem_append_left _ h)⟩
  rw [name_matches_single]
  split_ifs with hwild
  · rfl
  · exact decide_eq_true hsub

end Pattern

section Rows

variable {drive : DriveCompactIndex} {pre : Str} (hfold : drive.fold.Whole) (hlong : 3 ≤ (as_bytes pre).length)
include hlong

theorem pattern_ne_nil : pre ≠ [] := by
  rintro rfl
  exact absurd hlong (by decide)

include hfold

theorem StartsWith.ne_nil (h : StartsWith drive pre rec) :
    drive.fold.fold_into (rec.name drive.names) ≠ [] := by
  intro hnil
  rw [StartsWith, hnil, List.prefix_nil] at h
  exact fold_into_pattern_ne hfold (pattern_ne_nil hlong) h

/-- A prefix of three bytes is no dot. -/
theorem StartsWith.ne_dot (h : StartsWith drive pre rec) :
    drive.fold.fold_into (rec.name drive.names) ≠ ['.'] := by
  intro hdot
  rw [StartsWith, hdot] at h
  have hone : drive.fold.fold_into pre = ['.'] := by
    have hlen := h.length_le
    have hpos := List.length_pos_iff.mpr (fold_into_pattern_ne hfold (pattern_ne_nil hlong))
    exact h.eq_of_length (by rw [List.length_singleton] at hlen ⊢; omega)
  have hmem : '.' ∈ pre := (hfold.mem_fold_into_iff (by decide)).mp (by rw [hone]; exact List.mem_cons_self)
  have hlen := hfold.fold_into_length pre
  rw [hone, List.length_singleton] at hlen
  obtain ⟨ch, rfl⟩ := List.length_eq_one_iff.mp hlen.symm
  rw [List.mem_singleton] at hmem
  rw [← hmem] at hlong
  exact absurd hlong (by decide)

/-- Row by row: the search and the pattern agree exactly when the row is served. -/
theorem prefix_row_iff (hstar : '*' ∉ pre) (hany : '?' ∉ pre) {c : UInt32} (rec : CompactRecord) :
    (StartsWith drive pre rec ∧ Indexed drive (trigram_needle pre) c ↔
        name_matches (drive.fold.fold_into (rec.name drive.names)) (drive.fold.fold_into (pre ++ ['*'])) = true) ↔
      (StartsWith drive pre rec → (Indexed drive (trigram_needle pre) c ↔ ¬ StarFollows drive pre rec)) ∧
        ('|' ∈ pre → drive.fold.fold_into (rec.name drive.names) ≠ [] → drive.fold.fold_into (rec.name drive.names) ≠ ['.'] →
          ∀ piece ∈ split '|' (drive.fold.fold_into pre ++ ['*']),
            name_matches_single (drive.fold.fold_into (rec.name drive.names)) piece = true → StartsWith drive pre rec) := by
  have hne := pattern_ne_nil hlong
  by_cases hbar : '|' ∈ pre
  · have hstar' : '*' ∉ drive.fold.fold_into pre := fun h => hstar ((hfold.mem_fold_into_iff (by decide)).mp h)
    have hany' : '?' ∉ drive.fold.fold_into pre := fun h => hany ((hfold.mem_fold_into_iff (by decide)).mp h)
    have hfree : ¬ StarFollows drive pre rec := fun h => h.1 hbar
    rw [name_matches_choice_iff hfold hbar]
    constructor
    · intro hagree
      refine ⟨fun hstarts => ⟨fun _ => hfree, fun _ => ?_⟩, fun _ hempty hdot piece hpiece hmatch => ?_⟩
      · obtain hchoice := choice_of_starts hstar' hany' ((bar_mem_fold_into hfold).mpr hbar) hstarts
        exact (hagree.mpr ⟨hstarts.ne_nil hfold hlong, hstarts.ne_dot hfold hlong, hchoice⟩).2
      · exact (hagree.mpr ⟨hempty, hdot, piece, hpiece, hmatch⟩).1
    · rintro ⟨hindexed, hwhole⟩
      constructor
      · rintro ⟨hstarts, -⟩
        exact ⟨hstarts.ne_nil hfold hlong, hstarts.ne_dot hfold hlong,
          choice_of_starts hstar' hany' ((bar_mem_fold_into hfold).mpr hbar) hstarts⟩
      · rintro ⟨hempty, hdot, piece, hpiece, hmatch⟩
        have hstarts := hwhole hbar hempty hdot piece hpiece hmatch
        exact ⟨hstarts, (hindexed hstarts).mpr hfree⟩
  · have hmatches : name_matches (drive.fold.fold_into (rec.name drive.names)) (drive.fold.fold_into (pre ++ ['*'])) = true ↔
        StartsWith drive pre rec ∧ ¬ StarFollows drive pre rec := by
      rw [name_matches_plain_iff hfold hne hstar hany hbar]
      constructor
      · rintro ⟨-, -, hstarts, hfree⟩
        refine ⟨hstarts, ?_⟩
        rintro ⟨-, ch, rest, heq⟩
        exact hfree ch rest heq
      · rintro ⟨hstarts, hfree⟩
        exact ⟨hstarts.ne_nil hfold hlong, hstarts.ne_dot hfold hlong, hstarts, fun ch rest heq => hfree ⟨hbar, ch, rest, heq⟩⟩
    rw [hmatches, and_congr_right_iff]
    exact ⟨fun h => ⟨h, fun h' => absurd h' hbar⟩, fun h => h.1⟩

end Rows

/-- The prefix search is exact, on every drive and for every pattern it is used for, if and only
if the prefix is served. -/
theorem prefix_search_exact_iff (env : Env) (letter : Char) (fold : CaseFold) {index : MftIndex} (hwf : WellFormed index)
    {drive : DriveCompactIndex} (hreach : Reachable env (build_compact_index env letter fold index) Capacious drive)
    (hfold : drive.fold.Whole) {pattern pre : Str} (hpattern : is_prefix_pattern pattern = some pre) {limit : Nat}
    (hlimit : drive.records.length ≤ limit) (render : Render) :
    PrefixExact env drive pattern pre limit render ↔ PrefixServed drive pre := by
  obtain ⟨base, base_names, hinv, hfits⟩ := hreach.overlayFits hwf
  have hserved := served_of_overlayInv hinv hfits hreach.ok.1
  obtain ⟨rfl, hlong, hstar, hany, -, -⟩ := is_prefix_pattern_eq_some.mp hpattern
  have hne := pattern_ne_nil hlong
  have hlive : ∀ rec : CompactRecord, name_matches (drive.fold.fold_into (rec.name drive.names))
      (drive.fold.fold_into (pre ++ ['*'])) = true → rec.Live := by
    intro rec hmatch
    apply @CompactRecord.live_of_name drive.names
    intro hnil
    have hempty : drive.fold.fold_into [] = [] := hfold.fold_into_eq []
    rw [hnil, hempty, name_matches, if_pos (Or.inl rfl)] at hmatch
    cases hmatch
  constructor
  · intro hexact
    have hrow : ∀ (c : UInt32) rec, drive.records[c.toNat]? = some rec → _ := fun c rec hget =>
      (@prefix_row_iff drive pre hfold hlong hstar hany c rec).mp (by
        have h := hexact c
        rw [mem_prefix_rows env hserved hfold hne hlimit] at h
        simp only [hget, Option.some.injEq, exists_eq_left'] at h
        rw [h]
        exact and_iff_right_of_imp (hlive rec))
    exact ⟨fun c rec hget => (hrow c rec hget).1, fun hbar c rec hget => (hrow c rec hget).2 hbar⟩
  · intro hwhen c
    rw [mem_prefix_rows env hserved hfold hne hlimit]
    apply exists_congr
    intro rec
    apply and_congr_right
    intro hget
    rw [(prefix_row_iff hfold hlong hstar hany rec).mpr ⟨hwhen.indexed c rec hget, fun hbar => hwhen.whole hbar c rec hget⟩]
    exact (and_iff_right_of_imp (hlive rec)).symm

/-- A volume with one file whose name is two characters of three bytes each. -/
def kanji_mft : MftIndex := file_mft 6 ['日', '本']

def kanji_drive : DriveCompactIndex := build_compact_index sample_env 'C' sample_fold kanji_mft

theorem kanji_mft_wellFormed : WellFormed kanji_mft := ⟨mapped_of_zipIdx (by decide), by decide, by decide, by decide⟩

/-- Its only row. -/
theorem kanji_drive_row : ∃ rec, kanji_drive.records = [rec] ∧ rec.name_range kanji_drive.names = some (as_bytes ['日', '本']) := by
  have hrows : kanji_drive.records.map (fun rec => rec.name_range kanji_drive.names) = [some (as_bytes ['日', '本'])] := rfl
  obtain ⟨rec, hrecords, hrange⟩ := List.map_eq_singleton_iff.mp hrows
  exact ⟨rec, hrecords, hrange⟩

theorem kanji_drive_reachable :
    Reachable sample_env (build_compact_index sample_env 'C' sample_fold kanji_mft) Capacious kanji_drive := by
  have hroomy := @roomy_build kanji_mft (by decide) sample_env 'C' sample_fold
  exact Reachable.start ⟨hroomy, fits_of_kept (by decide)⟩

theorem prefix_search_exact_iff_kanji :
    PrefixExact sample_env kanji_drive ['日', '本', '*'] ['日', '本'] 1 (fun _ => []) ↔
      PrefixServed kanji_drive ['日', '本'] := by
  apply prefix_search_exact_iff sample_env 'C' sample_fold kanji_mft_wellFormed kanji_drive_reachable
  · exact sample_fold_whole
  · decide
  · obtain ⟨rec, hrecords, -⟩ := kanji_drive_row
    rw [hrecords]
    exact Nat.le_refl _

/-- The first three bytes are one character, so the index is not asked and the file is not found. -/
theorem prefix_search_misses_kanji :
    WellFormed kanji_mft ∧
      Reachable sample_env (build_compact_index sample_env 'C' sample_fold kanji_mft) Capacious kanji_drive ∧
      is_prefix_pattern ['日', '本', '*'] = some ['日', '本'] ∧
      ¬ PrefixExact sample_env kanji_drive ['日', '本', '*'] ['日', '本'] 1 (fun _ => []) := by
  refine ⟨kanji_mft_wellFormed, kanji_drive_reachable, by decide, ?_⟩
  intro hexact
  obtain ⟨rec, hrecords, hrange⟩ := kanji_drive_row
  have hname : rec.name kanji_drive.names = ['日', '本'] := by
    rw [CompactRecord.name, CompactRecord.name_bytes, hrange, Option.getD_some, from_utf8_as_bytes]
    rfl
  have hneedle : trigram_needle ['日', '本'] = ['日'] := by
    have hbytes : (as_bytes ['日', '本']).take 3 = as_bytes ['日'] := by decide
    rw [trigram_needle, hbytes, from_utf8_as_bytes]
    rfl
  have hsearch : kanji_drive.trigram_search (trigram_needle ['日', '本']) = none := by
    rw [hneedle]
    exact trigram_search_of_short kanji_drive (by decide)
  have hfound := (hexact 0).mpr ⟨rec, by rw [hrecords]; rfl, CompactRecord.live_of_name (by rw [hname]; exact List.cons_ne_nil _ _), by
    change name_matches (sample_fold.fold_into (rec.name kanji_drive.names)) (sample_fold.fold_into ['日', '本', '*']) = true
    rw [hname, sample_fold_upcase.fold_into_eq, sample_fold_upcase.fold_into_eq]
    decide⟩
  unfold search_compact_drive_prefix at hfound
  rw [hsearch] at hfound
  exact List.not_mem_nil hfound

end uffs.search
