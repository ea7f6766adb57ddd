import Uffs.Search.WalkOrder

open uffs.lib uffs.mft uffs.text uffs.compact uffs.usn

namespace uffs.search

/-! Paths in a drive tree with well-formed names. -/

/-- A live slot and its name. -/
structure Named (drive : DriveCompactIndex) (idx : UInt32) (rec : CompactRecord) (name : Str) : Prop where
  get : drive.records[idx.toNat]? = some rec
  live : rec.Live
  range : rec.name_range drive.names = some (as_bytes name)

/-- The name of a slot. -/
def slot_name (drive : DriveCompactIndex) (idx : UInt32) : Str :=
  (drive.records[idx.toNat]?.map fun rec => rec.name drive.names).getD []

/-- The directory of a slot; none at the top, where the lone dot stands for the root directory. -/
def level_parent (drive : DriveCompactIndex) (rec : CompactRecord) : Option UInt32 :=
  if rec.parent_idx = NO_ENTRY ∨ slot_name drive rec.parent_idx = ['.'] then none else some rec.parent_idx

/-- Every live slot hangs below the top by directories, none so deep that its path is cut off. Names
are texts without a backslash, the lone dot is the name of the root directory alone, and in one
directory names differ when they are folded. -/
structure NamedTree (fold : CaseFold) (drive : DriveCompactIndex) : Prop where
  hung : ∀ idx rec, drive.records[idx.toNat]? = some rec → rec.Live →
    ∃ ancestry, Ancestry drive.names drive.records idx ancestry ∧ ancestry.length ≤ MAX_DEPTH + 1
  dirs : ∀ idx rec name, Named drive idx rec name → rec.parent_idx ≠ NO_ENTRY → is_dir drive rec.parent_idx = true
  clean : ∀ idx rec name, Named drive idx rec name → '\\' ∉ name
  no_dot : ∀ idx rec name, Named drive idx rec name → rec.parent_idx ≠ NO_ENTRY → name ≠ ['.']
  one_dot : ∀ idx rec, Named drive idx rec ['.'] → ∀ idx' rec', Named drive idx' rec' ['.'] → idx = idx'
  siblings : ∀ idx rec name, Named drive idx rec name → ∀ idx' rec' name', Named drive idx' rec' name' →
    level_parent drive rec = level_parent drive rec' → idx ≠ idx' → name ≠ ['.'] → name' ≠ ['.'] →
      fold.fold_into name ≠ fold.fold_into name'

variable {fold : CaseFold} {drive : DriveCompactIndex} {idx : UInt32} {name : Str} {rec : CompactRecord}

theorem Named.name_eq (h : Named drive idx rec name) :
    rec.name drive.names = name := by
  rw [CompactRecord.name, name_bytes_of_range h.range, from_utf8_as_bytes, Option.getD_some]

theorem Named.ne_nil (h : Named drive idx rec name) : name ≠ [] :=
  name_ne_nil_of_live h.live h.range

theorem Named.unique {rec' : CompactRecord} {name' : Str} (h : Named drive idx rec name)
    (h' : Named drive idx rec' name') : rec = rec' ∧ name = name' := by
  obtain rfl := Option.some.inj (h.get.symm.trans h'.get)
  exact ⟨rfl, h.name_eq.symm.trans h'.name_eq⟩

theorem Named.slot_name (h : Named drive idx rec name) :
    slot_name drive idx = name := by
  rw [search.slot_name, h.get, Option.map_some, Option.getD_some, h.name_eq]

theorem Named.is_named (h : Named drive idx rec name) :
    is_named drive idx = true := by
  simp [search.is_named, h.get, h.name_eq, h.ne_nil]

/-- The path of a slot. -/
def slot_path (drive : DriveCompactIndex) (render : Render) (idx : UInt32) : Str :=
  resolve_path drive idx.toNat ( stack_volume_prefix drive.letter) render

theorem Ancestry.slot_path_eq (render : Render) {ancestry : List Str}
    (h : Ancestry drive.names drive.records idx ancestry) (hdepth : ancestry.length ≤ MAX_DEPTH + 1) :
    slot_path drive render idx = join_path ( stack_volume_prefix drive.letter) (kept_names ancestry) := by
  unfold slot_path resolve_path
  exact foldl_shown (h.path_chain hdepth) _ render

/-- A path as it stands before a name. -/
def opened_path (path : Str) : Str := if path.getLast? ≠ some '\\' ∧ path ≠ [] then path ++ ['\\'] else path

theorem opened_path_clean {head : Str} (hne : name ≠ []) (hclean : '\\' ∉ name) :
    opened_path (head ++ name) = head ++ name ++ ['\\'] := by
  apply if_pos
  refine ⟨fun hlast => hclean ?_, List.append_ne_nil_of_right_ne_nil _ hne⟩
  rw [List.getLast?_append_of_ne_nil _ hne] at hlast
  exact List.mem_of_getLast? hlast

/-- The name of a path starts behind the path that was opened for it. -/
theorem name_start_of_opened (path : Str) (hclean : '\\' ∉ name) :
    name_start_of (opened_path path ++ name) = (opened_path path).length := by
  have hname : (name.reverse.takeWhile (· ≠ '\\')) = name.reverse := by
    rw [List.takeWhile_eq_self_iff]
    intro c hc
    have hne : c ≠ '\\' := fun heq => hclean (heq ▸ List.mem_reverse.mp hc)
    simpa using hne
  have hopened : (opened_path path).reverse.takeWhile (· ≠ '\\') = [] := by
    unfold opened_path
    split
    next => simp
    next hends =>
      cases hlast : path.getLast? with
      | none => simp [List.getLast?_eq_none_iff.mp hlast]
      | some c =>
        have hslash : c = '\\' := by
          by_contra hc
          refine hends ⟨fun h => hc (Option.some.inj (hlast.symm.trans h)), ?_⟩
          rintro rfl
          cases hlast
        rw [← List.head?_reverse] at hlast
        obtain ⟨rest, hrest⟩ := List.head?_eq_some_iff.mp hlast
        simp [hrest, hslash]
  have hwhole : (opened_path path ++ name).reverse.takeWhile (· ≠ '\\') = name.reverse := by
    rw [List.reverse_append, List.takeWhile_append, hname, if_pos rfl, hopened, List.append_nil]
  rw [name_start_of, hwhole, List.length_append, List.length_reverse]
  omega

/-- The path of the directory of a slot, as it stands before the name. -/
def level_path (drive : DriveCompactIndex) (render : Render) (rec : CompactRecord) : Str :=
  opened_path (if rec.parent_idx = NO_ENTRY then stack_volume_prefix drive.letter else slot_path drive render rec.parent_idx)

theorem opened_volume_prefix (letter : Char) : opened_path ( stack_volume_prefix letter) = stack_volume_prefix letter :=
  if_neg fun h => h.1 rfl

namespace NamedTree

variable (h : NamedTree fold drive)

include h

theorem named (hget : drive.records[idx.toNat]? = some rec) (hlive : rec.Live) : ∃ name, Named drive idx rec name := by
  obtain ⟨ancestry, hancestry, -⟩ := h.hung idx rec hget hlive
  cases hancestry with
  | root hget' _ hname =>
    cases hget.symm.trans hget'
    exact ⟨_, hget, hlive, hname⟩
  | child hget' _ hname =>
    cases hget.symm.trans hget'
    exact ⟨_, hget, hlive, hname⟩

/-- The parent of a live slot is live. -/
theorem parent (hnamed : Named drive idx rec name) (hparent : rec.parent_idx ≠ NO_ENTRY) :
    ∃ prec pname, Named drive rec.parent_idx prec pname := by
  obtain ⟨ancestry, hancestry, -⟩ := h.hung idx rec hnamed.get hnamed.live
  cases hancestry with
  | root hget' _ _ hroot =>
    cases hnamed.get.symm.trans hget'
    exact absurd hroot hparent
  | child hget' _ _ _ hup =>
    cases hnamed.get.symm.trans hget'
    cases hup with
    | root hget hlive hname => exact ⟨_, _, hget, hlive, hname⟩
    | child hget hlive hname => exact ⟨_, _, hget, hlive, hname⟩

section

variable (render : Render)

include render

/-- The path of a slot is its name behind the path of its directory. -/
theorem slot_path_level (hnamed : Named drive idx rec name) (hdot : name ≠ ['.']) :
    slot_path drive render idx = level_path drive render rec ++ name := by
  obtain ⟨ancestry, hancestry, hdepth⟩ := h.hung idx rec hnamed.get hnamed.live
  rw [hancestry.slot_path_eq render hdepth, level_path]
  cases hancestry with
  | root hget' hlive hname hroot =>
    obtain ⟨rfl, rfl⟩ := hnamed.unique ⟨hget', hlive, hname⟩
    rw [kept_names_cons hdot, if_pos hroot]
    rfl
  | @child _ _ name' above hget' hlive hname hparent hup =>
    obtain ⟨rfl, rfl⟩ := hnamed.unique ⟨hget', hlive, hname⟩
    have habove : above.length ≤ MAX_DEPTH + 1 := Nat.le_of_succ_le hdepth
    rw [if_neg hparent, hup.slot_path_eq render habove, kept_names_cons hdot]
    rfl

/-- The path of the root directory is that of the volume. -/
theorem slot_path_dot (hnamed : Named drive idx rec ['.']) :
    slot_path drive render idx = stack_volume_prefix drive.letter := by
  obtain ⟨ancestry, hancestry, hdepth⟩ := h.hung idx rec hnamed.get hnamed.live
  rw [hancestry.slot_path_eq render hdepth]
  cases hancestry with
  | root hget' hlive hname _ =>
    obtain ⟨rfl, rfl⟩ := hnamed.unique ⟨hget', hlive, hname⟩
    rfl
  | child hget' hlive hname hparent _ =>
    obtain ⟨rfl, rfl⟩ := hnamed.unique ⟨hget', hlive, hname⟩
    exact absurd rfl (h.no_dot _ _ _ hnamed hparent)

/-- Any other slot ends in its own name, behind which a backslash is set. -/
theorem opened_slot_path (hnamed : Named drive idx rec name) (hdot : name ≠ ['.']) :
    opened_path (slot_path drive render idx) = slot_path drive render idx ++ ['\\'] := by
  rw [slot_path_level h render hnamed hdot]
  exact opened_path_clean hnamed.ne_nil (h.clean _ _ _ hnamed)

theorem level_path_top (hnamed : Named drive idx rec name) (htop : level_parent drive rec = none) :
    level_path drive render rec = stack_volume_prefix drive.letter := by
  unfold level_parent at htop
  unfold level_path
  split
  · exact opened_volume_prefix drive.letter
  next hparent =>
    obtain ⟨prec, pname, hp⟩ := h.parent hnamed hparent
    have hdot : pname = ['.'] := by
      by_contra hdot
      rw [if_neg (by rw [hp.slot_name]; exact not_or.mpr ⟨hparent, hdot⟩)] at htop
      cases htop
    subst hdot
    rw [slot_path_dot h render hp, opened_volume_prefix]

theorem level_path_below {p : UInt32} (hnamed : Named drive idx rec name) (hbelow : level_parent drive rec = some p) :
    ∃ prec pname, Named drive p prec pname ∧ pname ≠ ['.'] ∧ level_path drive render rec = slot_path drive render p ++ ['\\'] := by
  unfold level_parent at hbelow
  split at hbelow
  · cases hbelow
  next hparent =>
    rw [not_or] at hparent
    obtain ⟨prec, pname, hp⟩ := h.parent hnamed hparent.1
    have hdot : pname ≠ ['.'] := hp.slot_name ▸ hparent.2
    obtain rfl := Option.some.inj hbelow
    refine ⟨prec, pname, hp, hdot, ?_⟩
    rw [level_path, if_neg hparent.1, opened_slot_path h render hp hdot]

/-- Slots of one directory share its path. -/
theorem level_path_congr {idx' : UInt32} {rec' : CompactRecord} {name' : Str}
    (hnamed : Named drive idx rec name) (hnamed' : Named drive idx' rec' name')
    (hlevel : level_parent drive rec = level_parent drive rec') : level_path drive render rec = level_path drive render rec' := by
  cases hparent : level_parent drive rec with
  | none =>
    rw [level_path_top h render hnamed hparent, level_path_top h render hnamed' (hlevel.symm.trans hparent)]
  | some p =>
    obtain ⟨-, -, -, -, hpath⟩ := level_path_below h render hnamed hparent
    obtain ⟨-, -, -, -, hpath'⟩ := level_path_below h render hnamed' (hlevel.symm.trans hparent)
    rw [hpath, hpath']

/-- The path of every directory goes on from that of the volume. -/
theorem level_path_volume (hnamed : Named drive idx rec name) :
    ∃ more, level_path drive render rec = stack_volume_prefix drive.letter ++ more := by
  obtain ⟨ancestry, hancestry, -⟩ := h.hung idx rec hnamed.get hnamed.live
  induction hancestry generalizing rec name with
  | root hget _ _ hroot =>
    cases hnamed.get.symm.trans hget
    exact ⟨[], by rw [level_path, if_pos hroot, opened_volume_prefix, List.append_nil]⟩
  | @child idx irec _ above hget _ _ hparent hup ih =>
    cases hnamed.get.symm.trans hget
    cases hlevel : level_parent drive irec with
    | none => exact ⟨[], by rw [level_path_top h render hnamed hlevel, List.append_nil]⟩
    | some p =>
      obtain ⟨prec, pname, hp, hdot, hpath⟩ := level_path_below h render hnamed hlevel
      have hsame : irec.parent_idx = p := by
        unfold level_parent at hlevel
        split at hlevel
        · cases hlevel
        · exact Option.some.inj hlevel
      subst hsame
      obtain ⟨more, hmore⟩ := ih hp
      refine ⟨more ++ pname ++ ['\\'], ?_⟩
      rw [hpath, slot_path_level h render hp hdot, hmore, List.append_assoc, List.append_assoc, List.append_assoc]

theorem length_level_path (hnamed : Named drive idx rec name) :
    ( stack_volume_prefix drive.letter).length ≤ (level_path drive render rec).length := by
  obtain ⟨more, hmore⟩ := level_path_volume h render hnamed
  rw [hmore, List.length_append]
  exact Nat.le_add_right _ _

end

variable {base : List CompactRecord} {base_names : List UInt8} (hinv : OverlayInv drive base base_names) (hroomy : Roomy drive)

include hinv hroomy

omit h in
theorem parent_of_listed {c p : UInt32} (hp : p.toNat < drive.records.length) (hchild : c ∈ drive.children_of p)
    (hnamed : Named drive c rec name) : rec.parent_idx = p ∧ rec.parent_idx ≠ NO_ENTRY := by
  obtain ⟨rec', hget, hparent, -⟩ := children_of_sound hinv hroomy hchild
  cases hnamed.get.symm.trans hget
  refine ⟨hparent, fun hnone => ?_⟩
  unfold Roomy at hroomy
  rw [← hparent, hnone] at hp
  omega

/-- What a live slot hangs below is live. -/
theorem named_above {a c : UInt32} (hc : c.toNat < drive.records.length) (hunder : worklist.Under drive.children_of a c)
    (hnamed : Named drive a rec name) : ∃ crec cname, Named drive c crec cname := by
  induction hunder using Relation.ReflTransGen.head_induction_on generalizing rec name with
  | refl => exact ⟨rec, name, hnamed⟩
  | head hstep hrest ih =>
    have hlt := under_lt_length hinv hroomy (fun _ _ hx => hx) hc hrest
    obtain ⟨rfl, hne⟩ := parent_of_listed hinv hroomy hlt hstep hnamed
    obtain ⟨prec, pname, hparent⟩ := h.parent hnamed hne
    exact ih hparent

/-- What a live slot hangs at or below has a parent, if it is listed, that is a live directory. -/
theorem listed_above {p a c : UInt32} (hp : p.toNat < drive.records.length) (hc : c ∈ drive.children_of p)
    (hunder : worklist.Under drive.children_of a c) (hnamed : Named drive a rec name) :
    ∃ crec cname prec pname, Named drive c crec cname ∧ crec.parent_idx = p ∧ crec.parent_idx ≠ NO_ENTRY ∧ cname ≠ ['.'] ∧
      Named drive p prec pname ∧ is_dir drive p = true := by
  have hc_lt := (slot_parent_of_child hinv hroomy hp hc).1
  obtain ⟨crec, cname, hcn⟩ := named_above h hinv hroomy hc_lt hunder hnamed
  obtain ⟨rfl, hbelow⟩ := parent_of_listed hinv hroomy hp hc hcn
  obtain ⟨prec, pname, hpn⟩ := h.parent hcn hbelow
  exact ⟨crec, cname, prec, pname, hcn, rfl, hbelow, h.no_dot _ _ _ hcn hbelow, hpn, h.dirs _ _ _ hcn hbelow⟩

/-- Every live slot hangs below a root by what is opened, if all that has a live slot in it is. -/
theorem descends {opens : UInt32 → Bool} (hopens : ∀ idx rec name, Named drive idx rec name → rec.parent_idx ≠ NO_ENTRY →
      opens rec.parent_idx = true) (hnamed : Named drive idx rec name) : Descends drive opens idx := by
  obtain ⟨ancestry, hancestry, -⟩ := h.hung idx rec hnamed.get hnamed.live
  clear hnamed
  induction hancestry with
  | root hget hlive _ hroot => exact Descends.root hget hlive hroot
  | child hget hlive hname hparent hup ih =>
    obtain ⟨prec, pname, hp⟩ := h.parent ⟨hget, hlive, hname⟩ hparent
    have hp_lt := (List.getElem?_eq_some_iff.mp hp.get).1
    exact Descends.child ih (hopens _ _ _ ⟨hget, hlive, hname⟩ hparent) (mem_children_of hinv hroomy hget hlive hp_lt)

theorem descends_named (hnamed : Named drive idx rec name) : Descends drive (is_named drive) idx := by
  apply descends h hinv hroomy (fun idx rec name hnamed hparent => ?_) hnamed
  obtain ⟨prec, pname, hp⟩ := h.parent hnamed hparent
  exact hp.is_named

theorem descends_dirs (hnamed : Named drive idx rec name) : Descends drive (is_dir drive) idx :=
  descends h hinv hroomy h.dirs hnamed

omit hinv in
theorem root_named {sort_desc : Bool} {r : UInt32} (hr : r ∈ root_slots drive sort_desc) :
    ∃ rec name, Named drive r rec name ∧ rec.parent_idx = NO_ENTRY := by
  obtain ⟨rec, hget, hlive, hnone⟩ := (mem_root_slots hroomy.lt_size).mp hr
  obtain ⟨name, hnamed⟩ := h.named hget hlive
  exact ⟨rec, name, hnamed, hnone⟩

/-- What hangs below a slot other than the root directory has its path, a backslash and more. -/
theorem slot_path_under (render : Render) {a c : UInt32} {crec : CompactRecord} {cname : Str}
    (hc : Named drive c crec cname) (hdot : cname ≠ ['.']) (hunder : worklist.Under drive.children_of a c)
    (hnamed : Named drive a rec name) :
    ∃ rest, slot_path drive render a = headed '\\' (slot_path drive render c) rest ∧ (rest = none ↔ a = c) ∧ name ≠ ['.'] := by
  have hc_lt : c.toNat < drive.records.length := (List.getElem?_eq_some_iff.mp hc.get).1
  induction hunder using Relation.ReflTransGen.head_induction_on generalizing rec name with
  | refl =>
    obtain ⟨-, rfl⟩ := hc.unique hnamed
    exact ⟨none, rfl, by simp, hdot⟩
  | @head a q hstep hrest ih =>
    have hlt := under_lt_length hinv hroomy (fun _ _ hx => hx) hc_lt hrest
    obtain ⟨rfl, hne⟩ := parent_of_listed hinv hroomy hlt hstep hnamed
    obtain ⟨prec, pname, hparent⟩ := h.parent hnamed hne
    obtain ⟨rest, hpath, -, hpdot⟩ := ih hparent
    have hname := h.no_dot _ _ _ hnamed hne
    have hlong : ∃ more, slot_path drive render a = headed '\\' (slot_path drive render c) (some more) := by
      rw [slot_path_level h render hnamed hname, level_path, if_neg hne, opened_slot_path h render hparent hpdot, hpath]
      cases rest with
      | none => exact ⟨name, by simp [headed]⟩
      | some before => exact ⟨before ++ '\\' :: name, by simp [headed]⟩
    obtain ⟨more, hmore⟩ := hlong
    refine ⟨some more, hmore, ?_, hname⟩
    constructor
    · intro heq
      cases heq
    · intro heq
      have hlen := congrArg List.length (heq ▸ hmore)
      simp [headed] at hlen

/-- What hangs below a slot continues its path behind a backslash. -/
theorem slot_path_continued (render : Render) {a p : UInt32} (hp : p.toNat < drive.records.length)
    (hbelow : Relation.TransGen (worklist.Pushes drive.children_of) a p) (hnamed : Named drive a rec name) :
    ∃ rest, rest ≠ [] ∧ slot_path drive render a = opened_path (slot_path drive render p) ++ rest := by
  induction hbelow using Relation.TransGen.head_induction_on generalizing rec name with
  | single hstep =>
    obtain ⟨rfl, hne⟩ := parent_of_listed hinv hroomy hp hstep hnamed
    refine ⟨name, hnamed.ne_nil, ?_⟩
    rw [slot_path_level h render hnamed (h.no_dot _ _ _ hnamed hne), level_path, if_neg hne]
  | @head a q hstep hrest ih =>
    have hlt := under_lt_length hinv hroomy (fun _ _ hx => hx) hp hrest.to_reflTransGen
    obtain ⟨rfl, hne⟩ := parent_of_listed hinv hroomy hlt hstep hnamed
    obtain ⟨prec, pname, hparent⟩ := h.parent hnamed hne
    obtain ⟨rest, -, hpath⟩ := ih hparent
    rw [slot_path_level h render hnamed (h.no_dot _ _ _ hnamed hne), level_path, if_neg hne, opened_path]
    split
    · exact ⟨rest ++ '\\' :: name, by simp, by simp [hpath]⟩
    · exact ⟨rest ++ name, List.append_ne_nil_of_right_ne_nil _ hnamed.ne_nil, by simp [hpath]⟩

end NamedTree

/-- A text comes before what it is continued to. -/
theorem text_order_continued (hfold : fold.Upcase) (text : Str) {rest : Str} (hne : rest ≠ []) :
    text_order fold text (text ++ rest) = .lt := by
  unfold text_order compareLex compareOn
  rw [hfold.fold_into_append]
  cases hrest : fold.fold_into rest with
  | nil => rw [List.append_nil, Std.ReflOrd.compare_self, Ordering.eq_then, compare_continued text hne]
  | cons c more => rw [compare_continued _ (List.cons_ne_nil c more), Ordering.lt_then]

/-- The name of a sibling as it counts for its own row, and for the rows below it. -/
def sibling_text (fold : CaseFold) (name : Str) (below : Bool) : Str :=
  if below then fold.fold_into name ++ ['\\'] else fold.fold_into name

theorem fold_into_headed (hfold : fold.Upcase) (name : Str) (rest : Option Str) :
    fold.fold_into (headed '\\' name rest) = headed '\\' (fold.fold_into name) (rest.map fold.fold_into) := by
  cases rest with
  | none => rfl
  | some rest =>
    have hcut : ('\\' :: rest) = ['\\'] ++ rest := rfl
    have hkeep : fold.fold_into ['\\'] = ['\\'] := by
      rw [hfold.fold_into_ascii (List.forall_mem_singleton.mpr (by decide))]
      decide
    rw [headed, hfold.fold_into_append, hcut, hfold.fold_into_append, hkeep]
    rfl

theorem not_mem_fold_into (hfold : fold.Upcase) (hclean : '\\' ∉ name) : '\\' ∉ fold.fold_into name := by
  rw [hfold.mem_fold_into_caseless_iff (by decide) (by decide) (by decide)]
  exact hclean

theorem headed_append {α : Type} (sep : α) (head name : List α) (rest : Option (List α)) :
    headed sep (head ++ name) rest = head ++ headed sep name rest := by
  cases rest with
  | none => rfl
  | some rest => exact List.append_assoc _ _ _

/-- Texts with a common head and different names behind it are compared by the names. -/
theorem text_order_headed (hfold : fold.Upcase) (head : Str) {other : Str} (hname : '\\' ∉ name) (hother : '\\' ∉ other)
    (hne : fold.fold_into name ≠ fold.fold_into other) (rest rest' : Option Str) :
    text_order fold (headed '\\' (head ++ name) rest) (headed '\\' (head ++ other) rest') =
        compare (sibling_text fold name rest.isSome) (sibling_text fold other rest'.isSome) ∧
      compare (sibling_text fold name rest.isSome) (sibling_text fold other rest'.isSome) ≠ .eq := by
  have hname' := not_mem_fold_into hfold hname
  have hother' := not_mem_fold_into hfold hother
  have hsibling : ∀ (text : Str) (r : Option Str),
      sibling_text fold text r.isSome = name_of_headed '\\' (fold.fold_into text) (r.map fold.fold_into) := by
    intro text r
    cases r <;> rfl
  have hdiffer : compare (sibling_text fold name rest.isSome) (sibling_text fold other rest'.isSome) ≠ .eq := by
    intro heq
    rw [hsibling, hsibling] at heq
    exact headed_ne hname' hother' hne _ _ (Std.LawfulEqOrd.eq_of_compare heq)
  refine ⟨?_, hdiffer⟩
  have hfolded : compareOn fold.fold_into (headed '\\' (head ++ name) rest) (headed '\\' (head ++ other) rest') =
      compare (sibling_text fold name rest.isSome) (sibling_text fold other rest'.isSome) := by
    rw [compareOn, headed_append, headed_append, hfold.fold_into_append, hfold.fold_into_append, compare_append_left,
      fold_into_headed hfold, fold_into_headed hfold, compare_headed hname' hother' hne, hsibling, hsibling]
  rw [text_order, compareLex, hfolded]
  cases hcmp : compare (sibling_text fold name rest.isSome) (sibling_text fold other rest'.isSome) with
  | lt => rfl
  | gt => rfl
  | eq => exact absurd hcmp hdiffer

/-- A slot hangs below another one. -/
def Beneath (drive : DriveCompactIndex) (a p : UInt32) : Prop := Relation.TransGen (worklist.Pushes drive.children_of) a p

theorem beneath_iff {a p : UInt32} : Beneath drive a p ↔ ∃ c ∈ drive.children_of p, worklist.Under drive.children_of a c := by
  rw [Beneath, Relation.TransGen.tail'_iff]
  exact ⟨fun ⟨c, hunder, hc⟩ => ⟨c, hc, hunder⟩, fun ⟨c, hc, hunder⟩ => ⟨c, hunder, hc⟩⟩

/-- What a slot counts for among the siblings of one above it. -/
def level_text (fold : CaseFold) (drive : DriveCompactIndex) (u a : UInt32) : Str :=
  sibling_text fold (slot_name drive u) (a != u)

/-- A slot at or below another one counts among the siblings of this by a text. What is below the root
directory counts as the root's siblings do. -/
def Counts (fold : CaseFold) (drive : DriveCompactIndex) (u a : UInt32) (text : Str) : Prop :=
  if slot_name drive u = ['.'] then
    a = u ∧ text = [] ∨ ∃ w ∈ drive.children_of u, worklist.Under drive.children_of a w ∧ text = level_text fold drive w a
  else worklist.Under drive.children_of a u ∧ text = level_text fold drive u a

theorem under_iff_counts {u a : UInt32} : worklist.Under drive.children_of a u ↔ ∃ text, Counts fold drive u a text := by
  unfold Counts
  split
  next =>
    rw [worklist.under_iff]
    constructor
    · rintro (rfl | ⟨w, hw, hunder⟩)
      · exact ⟨[], Or.inl ⟨rfl, rfl⟩⟩
      · exact ⟨_, Or.inr ⟨w, hw, hunder, rfl⟩⟩
    · rintro ⟨text, ⟨rfl, -⟩ | ⟨w, hw, hunder, -⟩⟩
      · exact Or.inl rfl
      · exact Or.inr ⟨w, hw, hunder⟩
  next => exact ⟨fun h => ⟨_, h, rfl⟩, fun ⟨_, h, _⟩ => h⟩

/-- The order of two paths is that of the texts by which the slots count, and is strict. -/
def OrderedBy (fold : CaseFold) (drive : DriveCompactIndex) (render : Render) (a b : UInt32) (text other : Str) : Prop :=
  text_order fold (slot_path drive render a) (slot_path drive render b) = compare text other ∧ compare text other ≠ .eq

/-- Two slots whose trees are compared by what their members count for. -/
def Mates (fold : CaseFold) (drive : DriveCompactIndex) (render : Render) (u v : UInt32) : Prop :=
  ∀ a b text other rec rec' name name', Counts fold drive u a text → Counts fold drive v b other →
    Named drive a rec name → Named drive b rec' name' → OrderedBy fold drive render a b text other

section compared

variable (fold drive) (own below : UInt32 → UInt32 → Prop) (key : UInt32 → Str) (text_of : UInt32 → UInt32 → Str)

/-- What counts for a slot, by a text. What is below the root directory counts as for the root's siblings. -/
def CountsAs (u a : UInt32) (text : Str) : Prop :=
  if slot_name drive u = ['.'] then own a u ∧ text = [] ∨ ∃ w ∈ drive.children_of u, below a w ∧ text = text_of w a
  else below a u ∧ text = text_of u a

/-- The keys of two slots are in the order of these texts, which differ. -/
def KeysLike (a b : UInt32) (text other : Str) : Prop :=
  text_order fold (key a) (key b) = compare text other ∧ compare text other ≠ .eq

/-- What counts for two slots is in the order of its texts. -/
def Compared (u v : UInt32) : Prop :=
  ∀ a b text other rec rec' name name', CountsAs drive own below text_of u a text → CountsAs drive own below text_of v b other →
    Named drive a rec name → Named drive b rec' name' → KeysLike fold key a b text other

/-- So it is for siblings, and for the root directory itself and what is beside it. -/
structure Compares : Prop where
  under : ∀ a u, below a u → worklist.Under drive.children_of a u
  siblings : ∀ u v urec vrec uname vname, Named drive u urec uname → Named drive v vrec vname → uname ≠ ['.'] → vname ≠ ['.'] →
    level_parent drive urec = level_parent drive vrec → u ≠ v → ∀ a b rec rec' name name', below a u → below b v →
      Named drive a rec name → Named drive b rec' name' → KeysLike fold key a b (text_of u a) (text_of v b)
  first : ∀ u v urec vrec vname, Named drive u urec ['.'] → Named drive v vrec vname → vname ≠ ['.'] →
    level_parent drive vrec = none → ∀ a b rec rec' name name', own a u → below b v →
      Named drive a rec name → Named drive b rec' name' → KeysLike fold key a b [] (text_of v b)

variable {fold drive own below key text_of}

theorem KeysLike.flip {a b : UInt32} {text other : Str} (h : KeysLike fold key a b text other) :
    KeysLike fold key b a other text := by
  constructor
  · rw [cmp_flip (text_order fold), h.1, ← cmp_flip compare]
  · intro heq
    rw [cmp_flip compare text other, Ordering.swap_eq_eq] at heq
    exact h.2 heq

namespace Compares

variable (hcmp : Compares fold drive own below key text_of) (h : NamedTree fold drive)

include hcmp h

variable {u v : UInt32} {urec vrec : CompactRecord} {uname vname : Str} {base : List CompactRecord} {base_names : List UInt8}

section

variable (hinv : OverlayInv drive base base_names) (hroomy : Roomy drive)

include hinv hroomy

/-- The children of a live slot. -/
theorem children (hcounts : ∀ u a text, CountsAs drive own below text_of u a text → worklist.Under drive.children_of a u)
    {p : UInt32} (hp : p.toNat < drive.records.length) (hu : u ∈ drive.children_of p) (hv : v ∈ drive.children_of p)
    (hne : u ≠ v) : Compared fold drive own below key text_of u v := by
  intro a b text other rec rec' name name' hcount hcount' hnamed hnamed'
  have hnondot : ∀ {w x t wrec wname}, w ∈ drive.children_of p → CountsAs drive own below text_of w x t →
      Named drive x wrec wname →
      ∃ crec cname, Named drive w crec cname ∧ cname ≠ ['.'] ∧ crec.parent_idx = p ∧ below x w ∧ t = text_of w x := by
    intro w x t wrec wname hw hcount hx
    obtain ⟨crec, cname, -, -, hc, hparent, -, hdot, -⟩ := h.listed_above hinv hroomy hp hw (hcounts _ _ _ hcount) hx
    rw [CountsAs, if_neg (by rwa [hc.slot_name])] at hcount
    exact ⟨crec, cname, hc, hdot, hparent, hcount⟩
  obtain ⟨urec, uname, hun, hudot, hup, ha, rfl⟩ := hnondot hu hcount hnamed
  obtain ⟨vrec, vname, hvn, hvdot, hvp, hb, rfl⟩ := hnondot hv hcount' hnamed'
  have hlevel : level_parent drive urec = level_parent drive vrec := by
    rw [level_parent, level_parent, hup, hvp]
  exact hcmp.siblings _ _ _ _ _ _ hun hvn hudot hvdot hlevel hne _ _ _ _ _ _ ha hb hnamed hnamed'

/-- The root directory against another slot at the top. -/
theorem dot (hu : Named drive u urec ['.']) (hv : Named drive v vrec vname) (hroot : vrec.parent_idx = NO_ENTRY)
    (hne : u ≠ v) : Compared fold drive own below key text_of u v := by
  intro a b text other rec rec' name name' hcount hcount' hnamed hnamed'
  have hvdot : vname ≠ ['.'] := by
    rintro rfl
    exact hne (h.one_dot _ _ hu _ _ hv)
  have htop : level_parent drive vrec = none := if_pos (Or.inl hroot)
  rw [CountsAs, if_neg (by rwa [hv.slot_name])] at hcount'
  obtain ⟨hb, rfl⟩ := hcount'
  rw [CountsAs, if_pos hu.slot_name] at hcount
  rcases hcount with ⟨ha, rfl⟩ | ⟨w, hw, ha, rfl⟩
  · exact hcmp.first _ _ _ _ _ hu hv hvdot htop _ _ _ _ _ _ ha hb hnamed hnamed'
  · have hu_lt := (List.getElem?_eq_some_iff.mp hu.get).1
    obtain ⟨wrec, wname, -, -, hwn, hparent, hbelow, hwdot, -⟩ :=
      h.listed_above hinv hroomy hu_lt hw (hcmp.under _ _ ha) hnamed
    have hwtop : level_parent drive wrec = none := if_pos (Or.inr (by rw [hparent, hu.slot_name]))
    have hwv : w ≠ v := by
      rintro rfl
      exact hbelow ((hwn.unique hv).1 ▸ hroot)
    exact hcmp.siblings _ _ _ _ _ _ hwn hv hwdot hvdot (hwtop.trans htop.symm) hwv _ _ _ _ _ _ ha hb hnamed hnamed'

/-- Two slots at the top. -/
theorem roots (hu : Named drive u urec uname) (hv : Named drive v vrec vname) (huroot : urec.parent_idx = NO_ENTRY)
    (hvroot : vrec.parent_idx = NO_ENTRY) (hne : u ≠ v) : Compared fold drive own below key text_of u v := by
  by_cases hudot : uname = ['.']
  · subst hudot
    exact dot hcmp h hinv hroomy hu hv hvroot hne
  · by_cases hvdot : vname = ['.']
    · subst hvdot
      intro a b text other rec rec' name name' hcount hcount' hnamed hnamed'
      exact (dot hcmp h hinv hroomy hv hu huroot hne.symm _ _ _ _ _ _ _ _ hcount' hcount hnamed' hnamed).flip
    · intro a b text other rec rec' name name' hcount hcount' hnamed hnamed'
      rw [CountsAs, if_neg (by rwa [hu.slot_name])] at hcount
      rw [CountsAs, if_neg (by rwa [hv.slot_name])] at hcount'
      obtain ⟨ha, rfl⟩ := hcount
      obtain ⟨hb, rfl⟩ := hcount'
      have hlevel : level_parent drive urec = level_parent drive vrec := (if_pos (Or.inl huroot)).trans (if_pos (Or.inl hvroot)).symm
      exact hcmp.siblings _ _ _ _ _ _ hu hv hudot hvdot hlevel hne _ _ _ _ _ _ ha hb hnamed hnamed'

end

end Compares

end compared

namespace NamedTree

variable (h : NamedTree fold drive)

include h

/-- Slots at or below two siblings are ordered by the names of these, and the root directory comes first. -/
theorem compares_paths {base : List CompactRecord} {base_names : List UInt8} (hinv : OverlayInv drive base base_names)
    (hroomy : Roomy drive) (hfold : fold.Whole) (render : Render) :
    Compares fold drive (· = ·) (worklist.Under drive.children_of) (slot_path drive render) (level_text fold drive) := by
  refine ⟨fun a u hunder => hunder, ?_, ?_⟩
  · intro u v urec vrec uname vname hu hv hudot hvdot hlevel hne a b rec rec' name name' ha hb hnamed hnamed'
    obtain ⟨rest, hpath, hself, -⟩ := slot_path_under h hinv hroomy render hu hudot ha hnamed
    obtain ⟨rest', hpath', hself', -⟩ := slot_path_under h hinv hroomy render hv hvdot hb hnamed'
    have hsome : ∀ {x y : UInt32} {r : Option Str}, (r = none ↔ x = y) → (x != y) = r.isSome := by
      intro x y r hiff
      cases r with
      | none => simp [hiff.mp rfl]
      | some r =>
        have hxy : x ≠ y := fun heq => Option.some_ne_none r (hiff.mpr heq)
        simp [hxy]
    rw [KeysLike, hpath, hpath', slot_path_level h render hu hudot, slot_path_level h render hv hvdot,
      level_path_congr h render hu hv hlevel, level_text, level_text, hu.slot_name, hv.slot_name, hsome hself, hsome hself']
    apply text_order_headed hfold.toUpcase _ (h.clean _ _ _ hu) (h.clean _ _ _ hv)
    exact h.siblings _ _ _ hu _ _ _ hv hlevel hne hudot hvdot
  · intro u v urec vrec vname hu hv hvdot htop a b rec rec' name name' hself hb hnamed hnamed'
    obtain ⟨rest, hpath, -, -⟩ := slot_path_under h hinv hroomy render hv hvdot hb hnamed'
    have hfolded : fold.fold_into vname ≠ [] := by
      intro hnil
      have hlen := hfold.fold_into_length vname
      rw [hnil] at hlen
      exact hv.ne_nil (List.length_eq_zero_iff.mp hlen.symm)
    have hheaded : headed '\\' vname rest ≠ [] := by
      cases rest with
      | none => exact hv.ne_nil
      | some rest => exact List.append_ne_nil_of_left_ne_nil hv.ne_nil _
    have htext : level_text fold drive v b ≠ [] := by
      rw [level_text, hv.slot_name, sibling_text]
      split
      · exact List.append_ne_nil_of_left_ne_nil hfolded _
      · exact hfolded
    have hbefore : compare [] (level_text fold drive v b) = .lt := compare_continued [] htext
    rw [KeysLike, hself, slot_path_dot h render hu, hpath, slot_path_level h render hv hvdot, level_path_top h render hv htop,
      headed_append, text_order_continued hfold.toUpcase _ hheaded, hbefore]
    exact ⟨rfl, by decide⟩

/-- The root directory has a path of its own. -/
theorem slot_path_dot_ne (render : Render) {r a : UInt32} {rrec : CompactRecord}
    (hr : Named drive r rrec ['.']) (ha : Named drive a rec name) (hdot : name ≠ ['.']) :
    slot_path drive render r ≠ slot_path drive render a := by
  intro heq
  have hlen := congrArg List.length heq
  have hle := length_level_path h render ha
  have hpos := List.length_pos_iff.mpr ha.ne_nil
  rw [slot_path_dot h render hr, slot_path_level h render ha hdot, List.length_append] at hlen
  omega

/-- Every slot has a path of its own. -/
theorem slot_path_inj (render : Render) {a b : UInt32} {rec' : CompactRecord} {name' : Str}
    (ha : Named drive a rec name) (hb : Named drive b rec' name') (heq : slot_path drive render a = slot_path drive render b) :
    a = b := by
  -- by induction on the length of the path: equal paths have equal names behind equal directories
  induction hlen : (slot_path drive render a).length using Nat.strong_induction_on generalizing a b rec rec' name name' with
  | h n ih =>
    by_cases hadot : name = ['.']
    · subst hadot
      by_cases hbdot : name' = ['.']
      · subst hbdot
        exact h.one_dot _ _ ha _ _ hb
      · exact absurd heq (slot_path_dot_ne h render ha hb hbdot)
    · by_cases hbdot : name' = ['.']
      · subst hbdot
        exact absurd heq.symm (slot_path_dot_ne h render hb ha hadot)
      · have hpaths := heq
        rw [slot_path_level h render ha hadot, slot_path_level h render hb hbdot] at hpaths
        have hstart := congrArg name_start_of hpaths
        rw [level_path, level_path, name_start_of_opened _ (h.clean _ _ _ ha), name_start_of_opened _ (h.clean _ _ _ hb)] at hstart
        obtain ⟨hdirs, hnames⟩ := List.append_inj hpaths hstart
        have hshorter : (level_path drive render rec).length < n := by
          have hpos := List.length_pos_iff.mpr ha.ne_nil
          rw [slot_path_level h render ha hadot, List.length_append] at hlen
          omega
        have hlevel : level_parent drive rec = level_parent drive rec' := by
          cases hp : level_parent drive rec with
          | none =>
            cases hq : level_parent drive rec' with
            | none => rfl
            | some q =>
              obtain ⟨qrec, qname, hqn, hqdot, hqpath⟩ := level_path_below h render hb hq
              have hle := length_level_path h render hqn
              rw [level_path_top h render ha hp, hqpath, slot_path_level h render hqn hqdot] at hdirs
              have hsame := congrArg List.length hdirs
              simp only [List.length_append, List.length_singleton] at hsame
              omega
          | some p =>
            obtain ⟨prec, pname, hpn, hpdot, hppath⟩ := level_path_below h render ha hp
            cases hq : level_parent drive rec' with
            | none =>
              have hle := length_level_path h render hpn
              rw [level_path_top h render hb hq, hppath, slot_path_level h render hpn hpdot] at hdirs
              have hsame := congrArg List.length hdirs
              simp only [List.length_append, List.length_singleton] at hsame
              omega
            | some q =>
              obtain ⟨qrec, qname, hqn, hqdot, hqpath⟩ := level_path_below h render hb hq
              rw [hppath, List.length_append, List.length_singleton] at hshorter
              rw [hppath, hqpath] at hdirs
              rw [ih _ (Nat.lt_of_succ_lt hshorter) hpn hqn (List.append_cancel_right hdirs) rfl]
        by_contra hne
        exact h.siblings _ _ _ ha _ _ _ hb hlevel hne hadot hbdot (congrArg fold.fold_into hnames)

end NamedTree

/-- The names from a slot up to its root, as far as they are live and texts. -/
def ancestry_of (names : List UInt8) (records : List CompactRecord) : Nat → UInt32 → Option (List Str)
  | 0, _ => none
  | fuel + 1, idx =>
    records[idx.toNat]?.bind fun rec =>
      if rec.name_len = 0 then none
      else
        ((rec.name_range names).bind from_utf8).bind fun name =>
          if rec.parent_idx = NO_ENTRY then some [name]
          else (ancestry_of names records fuel rec.parent_idx).map (name :: ·)

theorem ancestry_of_sound {names : List UInt8} {records : List CompactRecord} {fuel : Nat} {ancestry : List Str}
    (h : ancestry_of names records fuel idx = some ancestry) : Ancestry names records idx ancestry ∧ ancestry.length ≤ fuel := by
  induction fuel generalizing idx ancestry with
  | zero => cases h
  | succ fuel ih =>
    obtain ⟨rec, hget, h⟩ := Option.bind_eq_some_iff.mp h
    split at h
    · cases h
    next hlive =>
      obtain ⟨name, hname, h⟩ := Option.bind_eq_some_iff.mp h
      obtain ⟨bytes, hrange, htext⟩ := Option.bind_eq_some_iff.mp hname
      rw [← as_bytes_of_from_utf8 htext] at hrange
      split at h
      next hroot =>
        obtain rfl := Option.some.inj h
        exact ⟨Ancestry.root hget hlive hrange hroot, Nat.le_add_left 1 fuel⟩
      next hparent =>
        obtain ⟨above, habove, rfl⟩ := Option.map_eq_some_iff.mp h
        obtain ⟨hup, hlen⟩ := ih habove
        exact ⟨Ancestry.child hget hlive hrange hparent hup, Nat.succ_le_succ hlen⟩

theorem NamedTree.shallow (h : NamedTree fold drive) (hsize : drive.records.length < UInt32.size) : Shallow drive := by
  intro i
  cases hget : drive.records[i]? with
  | none =>
    rw [path_chain, hget]
    exact Nat.zero_le _
  | some rec =>
    have hslot : (UInt32.ofNat i).toNat = i :=
      UInt32.toNat_ofNat_of_lt' ((List.getElem?_eq_some_iff.mp hget).1.trans hsize)
    by_cases hlive : rec.Live
    · obtain ⟨ancestry, hancestry, hdepth⟩ := h.hung (UInt32.ofNat i) rec (by rw [hslot]; exact hget) hlive
      have hchain := (hancestry.path_chain (hdepth.trans (Nat.le_succ _))).length_eq
      rw [hslot] at hchain
      rw [hchain]
      exact (List.takeWhile_sublist _).length_le.trans hdepth
    · have hempty : rec.name_bytes drive.names = [] := by
        have hle := length_name_bytes_le rec drive.names
        rw [show rec.name_len = 0 from not_not.mp hlive] at hle
        exact List.length_eq_zero_iff.mp (Nat.le_zero.mp hle)
      rw [path_chain, hget]
      simp [hempty, ends_climb]

/-- A drive tree with well-formed names, checked slot by slot. -/
def named_tree_check (fold : CaseFold) (drive : DriveCompactIndex) : Bool :=
  let live := drive.records.zipIdx.filter fun entry => entry.1.name_len != 0
  live.all fun (rec, i) =>
    (ancestry_of drive.names drive.records (MAX_DEPTH + 1) (UInt32.ofNat i)).isSome &&
      !decide ('\\' ∈ rec.name drive.names) &&
      (rec.parent_idx == NO_ENTRY || is_dir drive rec.parent_idx && rec.name drive.names != ['.']) &&
      live.all fun (rec', j) => i == j || level_parent drive rec != level_parent drive rec' ||
        fold.fold_into (rec.name drive.names) != fold.fold_into (rec'.name drive.names)

theorem named_tree_of_check (h : named_tree_check fold drive = true) : NamedTree fold drive := by
  simp only [named_tree_check, List.all_eq_true, List.mem_filter, List.mem_zipIdx_iff_getElem?, Prod.forall, bne_iff_ne,
    Bool.and_eq_true, Bool.or_eq_true, beq_iff_eq, and_imp, Bool.not_eq_true', decide_eq_false_iff_not] at h
  have hslot : ∀ {idx rec name}, Named drive idx rec name → _ := fun {idx rec name} hnamed =>
    h rec idx.toNat hnamed.get hnamed.live
  have hpair : ∀ {idx rec name idx' rec' name'}, Named drive idx rec name → Named drive idx' rec' name' → idx ≠ idx' →
      level_parent drive rec = level_parent drive rec' → fold.fold_into name ≠ fold.fold_into name' := by
    intro idx rec name idx' rec' name' hnamed hnamed' hne hsame
    have hboth := (hslot hnamed).2 rec' idx'.toNat hnamed'.get hnamed'.live
    rw [hnamed.name_eq, hnamed'.name_eq] at hboth
    rcases hboth with (heq | hdiffer) | hapart
    · exact absurd (UInt32.toNat_inj.mp heq) hne
    · exact absurd hsame hdiffer
    · exact hapart
  have hdot : ∀ {idx rec}, Named drive idx rec ['.'] → level_parent drive rec = none := by
    intro idx rec hnamed
    rcases (hslot hnamed).1.2 with hroot | ⟨-, hname⟩
    · exact if_pos (Or.inl hroot)
    · exact absurd hnamed.name_eq hname
  constructor
  · intro idx rec hget hlive
    have hsome := (h rec idx.toNat hget hlive).1.1.1
    rw [UInt32.ofNat_toNat] at hsome
    obtain ⟨ancestry, hancestry⟩ := Option.isSome_iff_exists.mp hsome
    exact ⟨ancestry, ancestry_of_sound hancestry⟩
  · intro idx rec name hnamed hparent
    exact ((hslot hnamed).1.2.resolve_left hparent).1
  · intro idx rec name hnamed
    rw [← hnamed.name_eq]
    exact (hslot hnamed).1.1.2
  · intro idx rec name hnamed hparent
    rw [← hnamed.name_eq]
    exact ((hslot hnamed).1.2.resolve_left hparent).2
  · intro idx rec hnamed idx' rec' hnamed'
    by_contra hne
    exact hpair hnamed hnamed' hne ((hdot hnamed).trans (hdot hnamed').symm) rfl
  · intro idx rec name hnamed idx' rec' name' hnamed' hsame hne _ _
    exact hpair hnamed hnamed' hne hsame

end uffs.search
