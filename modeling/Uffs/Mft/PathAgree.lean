import Uffs.Mft.PathText
import Uffs.Mft.TreeTermination

open uffs.lib

namespace uffs.mft

/-! When the four ways to write a path agree, and when the resolver's marks are those of the parent chains. -/

/-- The path of every record marked valid, written in all four ways. -/
def MaterialisersAgree (index : MftIndex) (volume : Char) (state : List PathState) : Prop :=
  ∃ enough, ∀ fuel, enough ≤ fuel → ∃ dir_cache, pre_cache_directory_paths index volume state fuel = some dir_cache ∧
    ∀ idx record, PathResolver.is_valid_idx state idx = true → index.records[idx]? = some record → ∃ path,
      materialize_path index volume fuel idx = some path ∧ materialize_path_cached index volume fuel idx dir_cache = some path ∧
        materialize_path_into index volume fuel idx dir_cache [] = some path ∧ build_path index volume fuel record.frs = some path

/-- All four end; without the cache they agree, and with it. -/
def MaterialisersEnd (index : MftIndex) (volume : Char) (state : List PathState) : Prop :=
  ∃ enough, ∀ fuel, enough ≤ fuel → ∃ dir_cache, pre_cache_directory_paths index volume state fuel = some dir_cache ∧
    ∀ idx record, PathResolver.is_valid_idx state idx = true → index.records[idx]? = some record → ∃ path cached,
      materialize_path index volume fuel idx = some path ∧ build_path index volume fuel record.frs = some path ∧
        materialize_path_cached index volume fuel idx dir_cache = some cached ∧
        materialize_path_into index volume fuel idx dir_cache [] = some cached

/-- A record with one name is marked valid exactly if its parent chain reaches the root past the system
metafiles that are left out. -/
def SingleNamesExact (index : MftIndex) (include_system_metafiles : Bool) (state : List PathState) : Prop :=
  ∀ idx record, index.records[idx]? = some record → record.first_name.next_entry = NO_ENTRY →
    (PathResolver.is_valid_idx state idx = true ↔
      index.ReachesRoot (fun i => index.excluded include_system_metafiles i = false) idx)

/-- No parent chain that leads past the system metafiles that are left out, to the root, leads through a
record that one of them lists, directly or through others. -/
def SingleNamesUntainted (index : MftIndex) (include_system_metafiles : Bool) : Prop :=
  ∀ idx record chain, index.records[idx]? = some record → record.first_name.next_entry = NO_ENTRY → Route index idx chain →
    (∀ i ∈ chain, index.excluded include_system_metafiles i = false) →
      ∀ i ∈ chain, ¬ index.Tainted include_system_metafiles i

/-- On parent chains that reach the root through records that no such metafile lists, names are set off. -/
def CleanNamesSetOff (index : MftIndex) (include_system_metafiles : Bool) : Prop :=
  ∀ idx chain, Route index idx chain → (∀ i ∈ chain, ¬ index.Tainted include_system_metafiles i) → NamesSetOff index chain

section agree

variable {index : MftIndex} {include_system_metafiles : Bool}

theorem reachesRoot_iff_route {trusted : Nat → Prop} {idx : Nat} :
    index.ReachesRoot trusted idx ↔ ∃ chain, Route index idx chain ∧ ∀ i ∈ chain, trusted i := by
  constructor
  · intro h
    obtain ⟨chain, hroute, hall⟩ := route_of_reachesRoot h
    exact ⟨chain, hroute, fun i hi => (hall i hi).trusted⟩
  · rintro ⟨chain, hroute, hall⟩
    induction hroute with
    | last hroot => exact Rooted.top (hall _ List.mem_cons_self) hroot
    | up hup _ ih => exact Rooted.up (hall _ List.mem_cons_self) hup (ih fun i hi => hall i (List.mem_cons_of_mem _ hi))

theorem not_excluded_of_untainted {i : Nat} (h : ¬ index.Tainted include_system_metafiles i) :
    index.excluded include_system_metafiles i = false := by
  by_contra hexcluded
  rw [Bool.not_eq_false] at hexcluded
  exact h ⟨i, hexcluded, Relation.ReflTransGen.refl⟩

theorem untainted_of_none_excluded (h : ∀ i, index.excluded include_system_metafiles i = false) (i : Nat) :
    ¬ index.Tainted include_system_metafiles i := by
  rintro ⟨top, htop, -⟩
  exact Bool.false_ne_true ((h top).symm.trans htop)

/-- Names that do not end in a backslash are set off. -/
theorem names_set_off_of_plain (h : ∀ i name, index.shown_name i = some name → name.getLast? ≠ some '\\') (chain : List Nat) :
    NamesSetOff index chain := by
  intro _
  have hplain : ∀ l, ∀ name ∈ index.shown_names l, name.getLast? ≠ some '\\' := by
    intro l name hname
    obtain ⟨i, -, hname⟩ := List.mem_filterMap.mp hname
    exact h i name hname
  apply List.Pairwise.isChain
  apply List.pairwise_of_forall_mem_list
  intro name hname _ _
  rcases List.mem_append.mp hname with hname | hname
  · exact hplain _ name (List.mem_of_getLast? (Option.mem_toList.mp hname))
  · exact hplain _ name hname

/-- Where the marks are those of the clean chains, records with one name are marked as they should be
exactly if their chains are not listed below left out metafiles. -/
theorem single_names_exact_iff {state : List PathState}
    (hvalid : ∀ idx, PathResolver.is_valid_idx state idx = true ↔ index.Clean include_system_metafiles idx) :
    SingleNamesExact index include_system_metafiles state ↔ SingleNamesUntainted index include_system_metafiles := by
  constructor
  · intro h idx record chain hrec hsingle hroute hpast
    have hreach := reachesRoot_iff_route.mpr ⟨chain, hroute, hpast⟩
    have hclean := (hvalid idx).mp ((h idx record hrec hsingle).mpr hreach)
    obtain ⟨chain', hroute', hall⟩ := reachesRoot_iff_route.mp hclean
    rwa [hroute.unique hroute']
  · intro h idx record hrec hsingle
    rw [hvalid]
    constructor
    · exact Rooted.mono fun _ => not_excluded_of_untainted
    · intro hreach
      obtain ⟨chain, hroute, hpast⟩ := reachesRoot_iff_route.mp hreach
      exact reachesRoot_iff_route.mpr ⟨chain, hroute, h idx record chain hrec hsingle hroute hpast⟩

/-- What the four write, with fuel for a chain through the whole index. -/
theorem materialised (haddressed : index.Addressed) {state : List PathState}
    (hvalid : ∀ idx, PathResolver.is_valid_idx state idx = true ↔ index.Clean include_system_metafiles idx) (volume : Char)
    {fuel : Nat} (hfuel : index.records.length ≤ fuel) :
    ∃ dir_cache, pre_cache_directory_paths index volume state fuel = some dir_cache ∧
      ∀ idx record chain, index.records[idx]? = some record → Route index idx chain →
        (∀ i ∈ chain, ¬ index.Tainted include_system_metafiles i) →
        materialize_path index volume fuel idx = some (path_text volume (index.shown_names chain)) ∧
          build_path index volume fuel record.frs = some (path_text volume (index.shown_names chain)) ∧
          materialize_path_cached index volume fuel idx dir_cache = some (cached_text index volume chain) ∧
          materialize_path_into index volume fuel idx dir_cache [] = some (cached_text index volume chain) := by
  obtain ⟨dir_cache, hcache, hholds⟩ := pre_cached hvalid volume hfuel
  refine ⟨dir_cache, hcache, fun idx record chain hrec hroute hclean => ?_⟩
  have hlen := hroute.length_le.trans hfuel
  refine ⟨hroute.materialize_path volume hlen, hroute.build_path haddressed hrec volume hlen, ?_⟩
  refine hroute.cached (fun i hi => hholds i ?_) hlen
  obtain ⟨lower, upper, heq⟩ := List.append_of_mem hi
  refine reachesRoot_iff_route.mpr ⟨i :: upper, hroute.suffix heq, fun k hk => hclean k ?_⟩
  rw [heq]
  exact List.mem_append_right _ hk

theorem materialisers_agree_iff (haddressed : index.Addressed) {state : List PathState}
    (hvalid : ∀ idx, PathResolver.is_valid_idx state idx = true ↔ index.Clean include_system_metafiles idx) (volume : Char) :
    MaterialisersEnd index volume state ∧
      (MaterialisersAgree index volume state ↔ CleanNamesSetOff index include_system_metafiles) := by
  have hrun := fun {fuel} => @materialised index include_system_metafiles haddressed state hvalid volume fuel
  have hroutes : ∀ {idx}, PathResolver.is_valid_idx state idx = true → ∃ chain, Route index idx chain ∧
      ∀ i ∈ chain, ¬ index.Tainted include_system_metafiles i := fun hmark => reachesRoot_iff_route.mp ((hvalid _).mp hmark)
  refine ⟨⟨index.records.length, fun fuel hfuel => ?_⟩, ?_, ?_⟩
  · obtain ⟨dir_cache, hcache, hall⟩ := hrun hfuel
    refine ⟨dir_cache, hcache, fun idx record hmark hrec => ?_⟩
    obtain ⟨chain, hroute, hclean⟩ := hroutes hmark
    exact ⟨_, _, hall idx record chain hrec hroute hclean⟩
  · rintro ⟨enough, h⟩ idx chain hroute hclean
    have hmark := (hvalid idx).mpr (reachesRoot_iff_route.mpr ⟨chain, hroute, hclean⟩)
    have hrec := List.getElem?_eq_getElem (ReachesRoot.lt_length ((hvalid idx).mp hmark))
    obtain ⟨dir_cache, hcache, hagree⟩ := h (max enough index.records.length) (Nat.le_max_left _ _)
    obtain ⟨dir_cache', hcache', hall⟩ := hrun (Nat.le_max_right enough index.records.length)
    obtain rfl := Option.some.inj (hcache.symm.trans hcache')
    obtain ⟨path, hfull, hcached, -⟩ := hagree idx _ hmark hrec
    obtain ⟨hfull', -, hcached', -⟩ := hall idx _ chain hrec hroute hclean
    rw [← cached_text_eq_iff volume]
    exact (Option.some.inj (hcached'.symm.trans hcached)).trans (Option.some.inj (hfull.symm.trans hfull'))
  · intro h
    refine ⟨index.records.length, fun fuel hfuel => ?_⟩
    obtain ⟨dir_cache, hcache, hall⟩ := hrun hfuel
    refine ⟨dir_cache, hcache, fun idx record hmark hrec => ?_⟩
    obtain ⟨chain, hroute, hclean⟩ := hroutes hmark
    obtain ⟨hfull, hbuilt, hcached, hinto⟩ := hall idx record chain hrec hroute hclean
    rw [(cached_text_eq_iff volume chain).mpr (h idx chain hroute hclean)] at hcached hinto
    exact ⟨_, hfull, hcached, hinto, hbuilt⟩

end agree

/-- The resolver ends, and all that is materialized does; paths agree, and records with one name are
marked as their parent chains say, exactly if names are set off on all clean chains, and no chain of
such a record past the left out metafiles is listed below one. -/
theorem paths_agree_iff {index : MftIndex} (haddressed : index.Addressed) (volume : Char) (include_system_metafiles : Bool) :
    ∃ state, (∃ enough, ∀ fuel, enough ≤ fuel → PathResolver.build_within index include_system_metafiles fuel = some state) ∧
      MaterialisersEnd index volume state ∧
      (MaterialisersAgree index volume state ∧ SingleNamesExact index include_system_metafiles state ↔
        CleanNamesSetOff index include_system_metafiles ∧ SingleNamesUntainted index include_system_metafiles) := by
  have hvalid := @valid_iff_clean index haddressed.numbers_mapped include_system_metafiles
  obtain ⟨hends, hagree⟩ := materialisers_agree_iff haddressed hvalid volume
  refine ⟨_, ⟨_, fun fuel hfuel => build_within_eq haddressed.children include_system_metafiles hfuel⟩, hends, ?_⟩
  rw [hagree, single_names_exact_iff hvalid]

section sample

/-- File 31 of directory 30, named `b`. -/
def file_31 : Buffer := ⟨31, record_bytes false 0 [file_name_attribute 30 [98]]⟩

/-- Directory 30 of the root, with a name that ends in a backslash. -/
def dir_slash_30 : Buffer := ⟨30, record_bytes true 0 [file_name_attribute ROOT_FRS [97, 92]]⟩

/-- A file in a directory. -/
def plain_volume : MftIndex := parse_all compact.sample_env [root_5, dir_30, file_31] MftIndex.new

/-- A file in a directory whose name ends in a backslash. -/
def slash_volume : MftIndex := parse_all compact.sample_env [root_5, dir_slash_30, file_31] MftIndex.new

theorem plain_volume_shows : (∀ arena, total_size [root_5, dir_30, file_31] arena ≤ arena.limit) ∧
    plain_volume.records.length = 3 ∧ (∀ i < 3, plain_volume.excluded false i = false) ∧ plain_volume.shown_name 0 = none ∧
    plain_volume.shown_name 1 = some ['a'] ∧ plain_volume.shown_name 2 = some ['b'] := by
  decide +kernel

theorem slash_volume_shows : (∀ arena, total_size [root_5, dir_slash_30, file_31] arena ≤ arena.limit) ∧
    slash_volume.records.length = 3 ∧ (∀ i < 3, slash_volume.excluded false i = false) ∧
    slash_volume.next_up 2 = some 1 ∧ slash_volume.at_root 1 = true ∧
    [2, 1].takeWhile (!dir_at slash_volume ·) = [2] ∧ [2, 1].dropWhile (!dir_at slash_volume ·) = [1] ∧
    slash_volume.shown_names [1] = [['a', '\\']] ∧ slash_volume.shown_names [2] = [['b']] := by
  decide +kernel

theorem plain_volume_addressed : plain_volume.Addressed :=
  (built_parsed compact.sample_env plain_volume_shows.1).wf.addressed

theorem slash_volume_addressed : slash_volume.Addressed :=
  (built_parsed compact.sample_env slash_volume_shows.1).wf.addressed

/-- What holds of three records holds of all. -/
theorem all_of_three {index : MftIndex} (hlen : index.records.length = 3) {p : Nat → Prop} (h0 : p 0) (h1 : p 1) (h2 : p 2)
    (hnone : ∀ i, index.records[i]? = none → p i) (i : Nat) : p i := by
  match i with
  | 0 => exact h0
  | 1 => exact h1
  | 2 => exact h2
  | i + 3 => exact hnone _ (List.getElem?_eq_none (by omega))

theorem none_excluded {index : MftIndex} (hlen : index.records.length = 3) (h : ∀ i < 3, index.excluded false i = false)
    (i : Nat) : index.excluded false i = false := by
  refine @all_of_three index hlen (fun i => index.excluded false i = false) (h 0 (by decide)) (h 1 (by decide))
    (h 2 (by decide)) (fun i hnone => ?_) i
  rw [MftIndex.excluded, hnone, Option.any_none]

end sample

theorem paths_agree_iff_plain : ∃ state,
    (∃ enough, ∀ fuel, enough ≤ fuel → PathResolver.build_within plain_volume false fuel = some state) ∧
      MaterialisersAgree plain_volume 'C' state ∧ SingleNamesExact plain_volume false state := by
  obtain ⟨state, hbuild, -, hiff⟩ := paths_agree_iff plain_volume_addressed 'C' false
  refine ⟨state, hbuild, hiff.mpr ?_⟩
  obtain ⟨-, hlen, hincluded, h0, h1, h2⟩ := plain_volume_shows
  have hclean := untainted_of_none_excluded (none_excluded hlen hincluded)
  have hnames : ∀ i name, plain_volume.shown_name i = some name → name.getLast? ≠ some '\\' := by
    refine all_of_three hlen ?_ ?_ ?_ fun i hnone name hname => ?_
    · simp [h0]
    · simp [h1]
    · simp [h2]
    · rw [MftIndex.shown_name, hnone] at hname
      cases hname
  exact ⟨fun idx chain _ _ => names_set_off_of_plain hnames chain, fun _ _ _ _ _ _ _ i _ => hclean i⟩

/-- Behind the cached path of the directory the file gets no separator of its own. -/
theorem paths_disagree_slash : ∃ state,
    (∃ enough, ∀ fuel, enough ≤ fuel → PathResolver.build_within slash_volume false fuel = some state) ∧
      ¬ MaterialisersAgree slash_volume 'C' state := by
  obtain ⟨-, hlen, hincluded, hup, hroot, hlower, hupper, hname, hname'⟩ := slash_volume_shows
  have hclean := untainted_of_none_excluded (none_excluded hlen hincluded)
  have hvalid := @valid_iff_clean slash_volume slash_volume_addressed.numbers_mapped false
  refine ⟨_, ⟨_, fun fuel hfuel => build_within_eq slash_volume_addressed.children false hfuel⟩, fun hagree => ?_⟩
  have hroute : Route slash_volume 2 [2, 1] := Route.up hup (Route.last hroot)
  have hset := (materialisers_agree_iff slash_volume_addressed hvalid 'C').2.mp hagree 2 [2, 1] hroute fun i _ => hclean i
  unfold NamesSetOff at hset
  dsimp only at hset
  rw [hlower, hupper, hname, hname'] at hset
  have hends := hset (List.cons_ne_nil _ _)
  rw [SetOff] at hends
  simp at hends

end uffs.mft
