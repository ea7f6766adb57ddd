import Uffs.Mft.PathValid

open uffs.lib uffs.text

namespace uffs.mft

/-! The four ways to write a path. -/

/-- A name behind a separator. -/
def push_component (index : MftIndex) (path : Str) (chain_idx : Nat) : Str :=
  match index.records[chain_idx]? with
  | none => path
  | some record =>
    let name := index.record_name record
    if name ≠ [] ∧ name ≠ ['.'] then path ++ '\\' :: name else path

/-- A name behind a separator, unless the path ends in one. -/
def push_joined (index : MftIndex) (path : Str) (chain_idx : Nat) : Str :=
  match index.records[chain_idx]? with
  | none => path
  | some record =>
    let name := index.record_name record
    if name ≠ [] ∧ name ≠ ['.'] then (if path.getLast? = some '\\' then path else path ++ ['\\']) ++ name else path

def dir_at (index : MftIndex) (idx : Nat) : Bool := index.records[idx]?.any fun record => record.stdinfo.is_directory

/-- Paths of the valid directories; everything else is empty. -/
def pre_cache_directory_paths (index : MftIndex) (volume : Char) (state : List PathState) (fuel : Nat) : Option (List Str) :=
  (List.range index.records.length).mapM fun idx =>
    if PathResolver.is_valid_idx state idx && dir_at index idx then materialize_path index volume fuel idx else some []

/-- Records up to the first one whose path is cached, or to where the parent chain stops. -/
def walk_cached (index : MftIndex) (dir_cache : List Str) : Nat → Nat → Option (Option Str × List Nat)
  | 0, _ => none
  | fuel + 1, current_idx =>
    match (dir_cache[current_idx]?).filter (!·.isEmpty) with
    | some cached => some (some cached, [])
    | none =>
      match index.records[current_idx]? with
      | none => some (none, [])
      | some record =>
        let parent_frs := record.first_name.parent_frs
        if parent_frs = ROOT_FRS ∨ parent_frs = record.frs ∨ parent_frs = NO_ENTRY.toUInt64 then some (none, [current_idx])
        else
          match index.frs_to_idx_opt parent_frs with
          | none => some (none, [current_idx])
          | some parent_idx => (walk_cached index dir_cache fuel parent_idx).map fun walked => (walked.1, current_idx :: walked.2)

def materialize_path_cached (index : MftIndex) (volume : Char) (fuel idx : Nat) (dir_cache : List Str) : Option Str := do
  let (cached, chain) ← walk_cached index dir_cache fuel idx
  match cached with
  | some cached => some (if chain.isEmpty then cached else chain.reverse.foldl (push_joined index) cached)
  | none =>
    let path := chain.reverse.foldl (push_component index) [volume, ':']
    some (if path.length = 2 then path ++ ['\\'] else path)

def materialize_path_into (index : MftIndex) (volume : Char) (fuel idx : Nat) (dir_cache : List Str) (out : Str) : Option Str := do
  let (cached, chain) ← walk_cached index dir_cache fuel idx
  match cached with
  | some cached => some (chain.reverse.foldl (push_joined index) (out ++ cached))
  | none =>
    let out := chain.reverse.foldl (push_component index) (out ++ [volume, ':'])
    some (if out.length = 2 ∧ out.getLast? = some ':' then out ++ ['\\'] else out)

def MftIndex.find (self : MftIndex) (frs : UInt64) : Option FileRecord := (self.frs_to_idx_opt frs).bind (self.records[·]?)

/-- Names from a record up to the root, or to where the parent chain stops. -/
def path_components (index : MftIndex) : Nat → UInt64 → Option (List Str)
  | 0, _ => none
  | fuel + 1, current_frs =>
    match index.find current_frs with
    | none => some []
    | some record =>
      let name := index.record_name record
      let components := if name ≠ [] ∧ name ≠ ['.'] then [name] else []
      let parent_frs := record.first_name.parent_frs
      if parent_frs = NO_ENTRY.toUInt64 ∨ parent_frs = current_frs then some components
      else if parent_frs = ROOT_FRS then some components
      else (path_components index fuel parent_frs).map (components ++ ·)

def build_path (index : MftIndex) (volume : Char) (fuel : Nat) (frs : UInt64) : Option Str :=
  (path_components index fuel frs).map fun components =>
    [volume, ':', '\\'] ++ ['\\'].intercalate components.reverse

/-- The name that a record adds to a path. -/
def MftIndex.shown_name (index : MftIndex) (idx : Nat) : Option Str :=
  index.records[idx]?.bind fun record =>
    let name := index.record_name record
    if name ≠ [] ∧ name ≠ ['.'] then some name else none

/-- The names that a chain of records adds, from the root down. -/
def MftIndex.shown_names (index : MftIndex) (chain : List Nat) : List Str := chain.reverse.filterMap index.shown_name

/-- The path of names. -/
def path_text (volume : Char) (names : List Str) : Str :=
  if names = [] then [volume, ':', '\\'] else [volume, ':'] ++ names.flatMap ('\\' :: ·)

/-- A path that goes on with names, each behind a separator unless one is there. -/
def joined (path : Str) (names : List Str) : Str :=
  names.foldl (fun path name => (if path.getLast? = some '\\' then path else path ++ ['\\']) ++ name) path

/-- No name that another one follows ends in a separator. -/
def SetOff (names : List Str) : Prop := names.IsChain fun name _ => name.getLast? ≠ some '\\'

variable {chain : List Nat}

section texts

variable {index : MftIndex}

theorem shown_names_ne_nil {name : Str} (h : name ∈ index.shown_names chain) : name ≠ [] := by
  obtain ⟨idx, -, hname⟩ := List.mem_filterMap.mp h
  obtain ⟨record, -, hname⟩ := Option.bind_eq_some_iff.mp hname
  dsimp only at hname
  split at hname
  next hshown => exact Option.some.inj hname ▸ hshown.1
  next => cases hname

theorem shown_names_append (lower upper : List Nat) :
    index.shown_names (lower ++ upper) = index.shown_names upper ++ index.shown_names lower := by
  rw [MftIndex.shown_names, List.reverse_append, List.filterMap_append]
  rfl

theorem push_component_eq (path : Str) (chain_idx : Nat) :
    push_component index path chain_idx = path ++ ((index.shown_name chain_idx).map ('\\' :: ·)).getD [] := by
  unfold push_component MftIndex.shown_name
  cases index.records[chain_idx]? with
  | none => simp
  | some record =>
    dsimp only [Option.bind_some]
    split <;> simp

theorem push_joined_eq (path : Str) (chain_idx : Nat) :
    push_joined index path chain_idx = joined path (index.shown_name chain_idx).toList := by
  unfold push_joined MftIndex.shown_name
  cases index.records[chain_idx]? with
  | none => rfl
  | some record =>
    dsimp only [Option.bind_some]
    split <;> rfl

theorem foldl_push_component (chain : List Nat) (path : Str) :
    chain.foldl (push_component index) path = path ++ (chain.filterMap index.shown_name).flatMap ('\\' :: ·) := by
  induction chain generalizing path with
  | nil => simp
  | cons idx chain ih =>
    rw [List.foldl_cons, ih, push_component_eq, List.filterMap_cons]
    cases index.shown_name idx <;> simp

theorem foldl_push_joined (chain : List Nat) (path : Str) :
    chain.foldl (push_joined index) path = joined path (chain.filterMap index.shown_name) := by
  induction chain generalizing path with
  | nil => rfl
  | cons idx chain ih =>
    rw [List.foldl_cons, ih, push_joined_eq, List.filterMap_cons]
    cases index.shown_name idx <;> rfl

theorem closed_text (volume : Char) (names : List Str) :
    (if ([volume, ':'] ++ names.flatMap ('\\' :: ·)).length = 2 then [volume, ':'] ++ names.flatMap ('\\' :: ·) ++ ['\\']
      else [volume, ':'] ++ names.flatMap ('\\' :: ·)) = path_text volume names := by
  unfold path_text
  cases names with
  | nil => rfl
  | cons name names => simp

theorem intercalate_eq (name : Str) (names : List Str) :
    ['\\'].intercalate (name :: names) = name ++ names.flatMap ('\\' :: ·) := by
  induction names generalizing name with
  | nil => simp [List.intercalate]
  | cons next names ih => rw [List.intercalate_cons_cons, ih, List.flatMap_cons]; simp

theorem intercalated_text (volume : Char) (names : List Str) :
    [volume, ':', '\\'] ++ ['\\'].intercalate names = path_text volume names := by
  unfold path_text
  cases names with
  | nil => rfl
  | cons name names => rw [intercalate_eq, if_neg (List.cons_ne_nil _ _)]; simp

theorem joined_cons (path name : Str) (names : List Str) :
    joined path (name :: names) = joined ((if path.getLast? = some '\\' then path else path ++ ['\\']) ++ name) names := rfl

theorem length_joined_le (path : Str) (names : List Str) :
    (joined path names).length ≤ (path ++ names.flatMap ('\\' :: ·)).length := by
  induction names generalizing path with
  | nil => simp [joined]
  | cons name names ih =>
    rw [joined_cons]
    refine (ih _).trans ?_
    split <;> simp [List.length_append]

theorem setOff_cons_congr {path name : Str} {names : List Str} (h : path.getLast? = name.getLast?) :
    SetOff (path :: names) ↔ SetOff (name :: names) := by
  cases names with
  | nil => simp [SetOff]
  | cons next names => rw [SetOff, SetOff, List.isChain_cons_cons, List.isChain_cons_cons, h]

/-- Joined names read as names behind separators exactly if none that another one follows ends in a
separator. -/
theorem joined_eq_iff {path : Str} {names : List Str} (hnames : ∀ name ∈ names, name ≠ []) :
    joined path names = path ++ names.flatMap ('\\' :: ·) ↔ SetOff (path :: names) := by
  induction names generalizing path with
  | nil => simp [joined, SetOff]
  | cons name names ih =>
    have hname := hnames name List.mem_cons_self
    have hrest : ∀ next ∈ names, next ≠ [] := fun next hnext => hnames next (List.mem_cons_of_mem _ hnext)
    rw [joined_cons, SetOff, List.isChain_cons_cons]
    by_cases hends : path.getLast? = some '\\'
    · rw [if_pos hends]
      refine iff_of_false (fun heq => ?_) (fun h => h.1 hends)
      have hle := length_joined_le (path ++ name) names
      rw [heq] at hle
      simp only [List.flatMap_cons, List.length_append, List.length_cons] at hle
      omega
    · have hsplit : path ++ (name :: names).flatMap ('\\' :: ·) = path ++ ['\\'] ++ name ++ names.flatMap ('\\' :: ·) := by simp
      have hlast : (path ++ ['\\'] ++ name).getLast? = name.getLast? := List.getLast?_append_of_ne_nil _ hname
      rw [if_neg hends, hsplit, ih hrest, setOff_cons_congr hlast]
      exact (and_iff_right hends).symm

/-- The names below a path can be joined to it exactly if they are set off from its last name and from
one another. -/
theorem joined_path_iff (volume : Char) {above below : List Str} (habove : ∀ name ∈ above, name ≠ [])
    (hbelow : ∀ name ∈ below, name ≠ []) :
    joined (path_text volume above) below = path_text volume (above ++ below) ↔ SetOff (above.getLast?.toList ++ below) := by
  rcases List.eq_nil_or_concat' above with rfl | ⟨front, last, rfl⟩
  · cases below with
    | nil => simp [joined, SetOff]
    | cons name below =>
      have hname := hbelow name List.mem_cons_self
      have htext : path_text volume ([] ++ name :: below) = [volume, ':', '\\'] ++ name ++ below.flatMap ('\\' :: ·) := by
        simp [path_text]
      have hroot : joined (path_text volume []) (name :: below) = joined ([volume, ':', '\\'] ++ name) below := by
        rw [joined_cons, path_text, if_pos rfl]
        rfl
      rw [hroot, htext, joined_eq_iff fun next hnext => hbelow next (List.mem_cons_of_mem _ hnext),
        setOff_cons_congr (List.getLast?_append_of_ne_nil _ hname)]
      rfl
  · have hlast : last ≠ [] := habove last (List.mem_append_right _ List.mem_cons_self)
    have hpath : path_text volume (front ++ [last]) = [volume, ':'] ++ front.flatMap ('\\' :: ·) ++ ['\\'] ++ last := by
      simp [path_text]
    have htext : path_text volume (front ++ [last] ++ below) =
        path_text volume (front ++ [last]) ++ below.flatMap ('\\' :: ·) := by
      simp [path_text]
    have hends : (path_text volume (front ++ [last])).getLast? = last.getLast? := by
      rw [hpath]
      exact List.getLast?_append_of_ne_nil _ hlast
    rw [htext, joined_eq_iff hbelow, setOff_cons_congr hends, List.getLast?_append_of_ne_nil _ (List.cons_ne_nil _ _)]
    rfl

end texts

/-- A parent chain that reaches the root. -/
inductive Route (index : MftIndex) : Nat → List Nat → Prop
  | last {idx : Nat} (hroot : index.at_root idx = true) : Route index idx [idx]
  | up {idx parent_idx : Nat} {chain : List Nat} (hup : index.next_up idx = some parent_idx) (h : Route index parent_idx chain) :
      Route index idx (idx :: chain)

variable {fuel : Nat}

section routes

variable {index : MftIndex} {idx : Nat}

theorem route_of_reachesRoot {trusted : Nat → Prop} (h : index.ReachesRoot trusted idx) :
    ∃ chain, Route index idx chain ∧ ∀ i ∈ chain, index.ReachesRoot trusted i := by
  induction h with
  | @top idx hok htop =>
    refine ⟨[idx], Route.last htop, fun i hi => ?_⟩
    rw [List.mem_singleton.mp hi]
    exact Rooted.top hok htop
  | @up idx parent_idx hok hup h ih =>
    obtain ⟨chain, hroute, hall⟩ := ih
    refine ⟨idx :: chain, Route.up hup hroute, fun i hi => ?_⟩
    rcases List.mem_cons.mp hi with rfl | hi
    · exact Rooted.up hok hup h
    · exact hall i hi

theorem Route.unique {chain' : List Nat} (h : Route index idx chain) (h' : Route index idx chain') :
    chain = chain' := by
  induction h generalizing chain' with
  | last hroot =>
    cases h' with
    | last _ => rfl
    | up hup _ =>
      rw [next_up_of_at_root _ hroot] at hup
      cases hup
  | up hup _ ih =>
    cases h' with
    | last hroot =>
      rw [next_up_of_at_root _ hroot] at hup
      cases hup
    | up hup' h' =>
      obtain rfl := Option.some.inj (hup.symm.trans hup')
      rw [ih h']

theorem at_root_record (h : index.at_root idx = true) : ∃ record, index.records[idx]? = some record ∧
    (record.first_name.parent_frs = ROOT_FRS ∨ record.first_name.parent_frs = record.frs ∨
      record.first_name.parent_frs = NO_ENTRY.toUInt64) := by
  rw [MftIndex.at_root, Option.any_eq_true] at h
  obtain ⟨record, hrec, hroot⟩ := h
  refine ⟨record, hrec, ?_⟩
  simp only [Bool.or_eq_true, Bool.and_eq_true, beq_iff_eq] at hroot
  tauto

theorem next_up_record {idx parent_idx : Nat} (h : index.next_up idx = some parent_idx) :
    ∃ record, index.records[idx]? = some record ∧ record.first_name.parent_frs ≠ ROOT_FRS ∧
      record.first_name.parent_frs ≠ record.frs ∧ record.first_name.parent_frs ≠ NO_ENTRY.toUInt64 ∧
      index.frs_to_idx_opt record.first_name.parent_frs = some parent_idx := by
  obtain ⟨record, hrec, hup⟩ := Option.bind_eq_some_iff.mp h
  dsimp only at hup
  split at hup
  · cases hup
  next hgoes =>
    simp only [not_or] at hgoes
    exact ⟨record, hrec, hgoes.1, hgoes.2.1, hgoes.2.2, hup⟩

theorem fuel_succ {i : Nat} {above : List Nat} (hfuel : (i :: above).length ≤ fuel) : ∃ less, fuel = less + 1 :=
  ⟨fuel - 1, by simp at hfuel; omega⟩

section

variable (h : Route index idx chain)

include h

theorem Route.lt_length : ∀ i ∈ chain, i < index.records.length := by
  have hlt : ∀ {i record}, index.records[i]? = some record → i < index.records.length := fun hrec =>
    (List.getElem?_eq_some_iff.mp hrec).1
  induction h with
  | last hroot =>
    intro i hi
    obtain ⟨record, hrec, -⟩ := at_root_record hroot
    exact List.mem_singleton.mp hi ▸ hlt hrec
  | up hup _ ih =>
    intro i hi
    obtain ⟨record, hrec, -⟩ := next_up_record hup
    rcases List.mem_cons.mp hi with rfl | hi
    · exact hlt hrec
    · exact ih i hi

theorem Route.climbs : ∀ i ∈ chain, Relation.ReflTransGen (Climbs index.next_up) idx i := by
  induction h with
  | last _ => exact fun i hi => List.mem_singleton.mp hi ▸ Relation.ReflTransGen.refl
  | up hup _ ih =>
    intro i hi
    rcases List.mem_cons.mp hi with rfl | hi
    · exact Relation.ReflTransGen.refl
    · exact (ih i hi).head hup

theorem Route.reachesRoot : index.ReachesRoot (fun _ => True) idx := by
  induction h with
  | last hroot => exact Rooted.top trivial hroot
  | up hup _ ih => exact Rooted.up trivial hup ih

/-- A chain that reaches the root is no longer than the index. -/
theorem Route.length_le : chain.length ≤ index.records.length := by
  have hnodup : chain.Nodup := by
    induction h with
    | last _ => exact List.nodup_singleton _
    | @up idx parent_idx chain hup h ih =>
      refine List.nodup_cons.mpr ⟨fun hmem => ?_, ih⟩
      have hcycle : Relation.TransGen (Climbs index.next_up) idx idx := Relation.TransGen.head' hup (h.climbs idx hmem)
      exact (Route.up hup h).reachesRoot.no_cycle next_up_of_at_root hcycle
  have hsub : chain ⊆ List.range index.records.length := fun i hi => List.mem_range.mpr (h.lt_length i hi)
  have hle := (hnodup.subperm hsub).length_le
  rwa [List.length_range] at hle

theorem Route.materialize_chain (hfuel : chain.length ≤ fuel) :
    materialize_chain index fuel idx = some chain := by
  induction h generalizing fuel with
  | last hroot =>
    obtain ⟨record, hrec, hstop⟩ := at_root_record hroot
    obtain ⟨fuel, rfl⟩ := fuel_succ hfuel
    rw [mft.materialize_chain, hrec]
    exact if_pos hstop
  | @up idx parent_idx chain hup _ ih =>
    obtain ⟨record, hrec, hroot, hself, hnone, hparent⟩ := next_up_record hup
    obtain ⟨fuel, rfl⟩ := fuel_succ hfuel
    rw [mft.materialize_chain, hrec]
    dsimp only
    rw [if_neg (by tauto), hparent]
    dsimp only
    rw [ih (Nat.le_of_succ_le_succ hfuel), Option.map_some]

end

theorem shown_name_eq {record : FileRecord} (hrec : index.records[idx]? = some record) :
    (if index.record_name record ≠ [] ∧ index.record_name record ≠ ['.'] then [index.record_name record] else []) =
      (index.shown_name idx).toList := by
  rw [MftIndex.shown_name, hrec, Option.bind_some]
  dsimp only
  split <;> rfl

theorem Route.path_components (haddressed : index.Addressed) (h : Route index idx chain) {record : FileRecord}
    (hrecord : index.records[idx]? = some record) (hfuel : chain.length ≤ fuel) :
    path_components index fuel record.frs = some (chain.filterMap index.shown_name) := by
  have hfind : ∀ {i : Nat} {record : FileRecord}, index.records[i]? = some record → index.find record.frs = some record := by
    intro i record hrec
    rw [MftIndex.find, haddressed.found hrec, Option.bind_some, hrec]
  induction h generalizing fuel record with
  | @last idx hroot =>
    obtain ⟨record', hrec, hstop⟩ := at_root_record hroot
    obtain rfl := Option.some.inj (hrec.symm.trans hrecord)
    obtain ⟨fuel, rfl⟩ := fuel_succ hfuel
    rw [mft.path_components, hfind hrec]
    dsimp only
    rw [shown_name_eq hrec]
    have hnames : [idx].filterMap index.shown_name = (index.shown_name idx).toList := by
      cases hname : index.shown_name idx <;> simp [hname]
    rw [hnames]
    by_cases hself : record'.first_name.parent_frs = NO_ENTRY.toUInt64 ∨ record'.first_name.parent_frs = record'.frs
    · exact if_pos hself
    · rw [if_neg hself]
      exact if_pos (by tauto)
  | @up idx parent_idx chain hup _ ih =>
    obtain ⟨record', hrec, hroot, hself, hnone, hparent⟩ := next_up_record hup
    obtain rfl := Option.some.inj (hrec.symm.trans hrecord)
    obtain ⟨fuel, rfl⟩ := fuel_succ hfuel
    obtain ⟨parent, hprec, hpfrs⟩ := haddressed.mapped hparent
    have hrest := ih hprec (Nat.le_of_succ_le_succ hfuel)
    rw [hpfrs] at hrest
    rw [mft.path_components, hfind hrec]
    dsimp only
    rw [shown_name_eq hrec, if_neg (by tauto), if_neg hroot, hrest, Option.map_some, List.filterMap_cons]
    cases index.shown_name idx <;> rfl

/-- A walk stops at the first directory. -/
theorem Route.walk_cached {dir_cache : List Str} {text : Nat → Str} (h : Route index idx chain)
    (hcache : ∀ i ∈ chain, (dir_cache[i]?).filter (!·.isEmpty) = if dir_at index i then some (text i) else none)
    (hfuel : chain.length ≤ fuel) :
    walk_cached index dir_cache fuel idx =
      some ((chain.dropWhile (!dir_at index ·)).head?.map text, chain.takeWhile (!dir_at index ·)) := by
  induction h generalizing fuel with
  | @last idx hroot =>
    obtain ⟨record, hrec, hstop⟩ := at_root_record hroot
    obtain ⟨fuel, rfl⟩ := fuel_succ hfuel
    rw [mft.walk_cached, hcache idx List.mem_cons_self]
    cases hdir : dir_at index idx with
    | true => simp [hdir]
    | false =>
      rw [if_neg Bool.false_ne_true, hrec]
      dsimp only
      rw [if_pos hstop]
      simp [hdir]
  | @up idx parent_idx chain hup _ ih =>
    obtain ⟨record, hrec, hroot, hself, hnone, hparent⟩ := next_up_record hup
    obtain ⟨fuel, rfl⟩ := fuel_succ hfuel
    rw [mft.walk_cached, hcache idx List.mem_cons_self]
    cases hdir : dir_at index idx with
    | true => simp [hdir]
    | false =>
      rw [if_neg Bool.false_ne_true, hrec]
      dsimp only
      rw [if_neg (by tauto), hparent]
      dsimp only
      rw [ih (fun i hi => hcache i (List.mem_cons_of_mem _ hi)) (Nat.le_of_succ_le_succ hfuel), Option.map_some]
      simp [hdir]

/-- A record on the way up has the rest of the chain. -/
theorem Route.suffix (h : Route index idx chain) {lower upper : List Nat} {i : Nat} (heq : chain = lower ++ i :: upper) :
    Route index i (i :: upper) := by
  induction h generalizing lower with
  | last hroot =>
    cases lower with
    | nil =>
      obtain ⟨rfl, rfl⟩ := List.cons.inj heq
      exact Route.last hroot
    | cons a lower =>
      have hnil := (List.cons.inj heq).2
      cases lower <;> cases hnil
  | up hup h ih =>
    cases lower with
    | nil =>
      obtain ⟨rfl, rfl⟩ := List.cons.inj heq
      exact Route.up hup h
    | cons a lower => exact ih (List.cons.inj heq).2

end routes

/-- On the way up to the nearest directory no name that another one follows ends in a separator. -/
def NamesSetOff (index : MftIndex) (chain : List Nat) : Prop :=
  let lower := chain.takeWhile (!dir_at index ·)
  let upper := chain.dropWhile (!dir_at index ·)
  upper ≠ [] → SetOff ((index.shown_names upper).getLast?.toList ++ index.shown_names lower)

section records

variable {index : MftIndex}

theorem Route.materialize_path {idx : Nat} (h : Route index idx chain) (volume : Char)
    (hfuel : chain.length ≤ fuel) : materialize_path index volume fuel idx = some (path_text volume (index.shown_names chain)) := by
  rw [mft.materialize_path, h.materialize_chain hfuel, Option.bind_eq_bind, Option.bind_some]
  change some (if (chain.reverse.foldl (push_component index) [volume, ':']).length = 2 then
    chain.reverse.foldl (push_component index) [volume, ':'] ++ ['\\']
      else chain.reverse.foldl (push_component index) [volume, ':']) = _
  rw [foldl_push_component]
  exact congrArg some (closed_text volume _)

theorem Route.build_path (haddressed : index.Addressed) {idx : Nat} (h : Route index idx chain)
    {record : FileRecord} (hrecord : index.records[idx]? = some record) (volume : Char)
    (hfuel : chain.length ≤ fuel) :
    build_path index volume fuel record.frs = some (path_text volume (index.shown_names chain)) := by
  rw [mft.build_path, h.path_components haddressed hrecord hfuel, Option.map_some, intercalated_text, MftIndex.shown_names,
    List.filterMap_reverse]

/-- The path of a record behind the cached path of the nearest directory. -/
def cached_text (index : MftIndex) (volume : Char) (chain : List Nat) : Str :=
  if chain.dropWhile (!dir_at index ·) = [] then path_text volume (index.shown_names chain)
  else joined (path_text volume (index.shown_names (chain.dropWhile (!dir_at index ·))))
    (index.shown_names (chain.takeWhile (!dir_at index ·)))

theorem cached_text_eq_iff (volume : Char) (chain : List Nat) :
    cached_text index volume chain = path_text volume (index.shown_names chain) ↔ NamesSetOff index chain := by
  unfold cached_text NamesSetOff
  split
  next hnone => exact iff_of_true rfl fun h => absurd hnone h
  next hdir =>
    have hsplit : index.shown_names chain = index.shown_names (chain.dropWhile (!dir_at index ·)) ++
        index.shown_names (chain.takeWhile (!dir_at index ·)) := by
      rw [← shown_names_append, List.takeWhile_append_dropWhile]
    rw [hsplit, joined_path_iff volume (fun _ => shown_names_ne_nil) (fun _ => shown_names_ne_nil)]
    exact ⟨fun h _ => h, fun h => h hdir⟩

/-- What the cache holds for a record. -/
def CacheHolds (index : MftIndex) (volume : Char) (dir_cache : List Str) (i : Nat) : Prop :=
  ∀ chain, Route index i chain → (dir_cache[i]?).filter (!·.isEmpty) =
    if dir_at index i then some (path_text volume (index.shown_names chain)) else none

/-- Every record that reaches the root has one path. -/
theorem exists_route_text (index : MftIndex) (volume : Char) :
    ∃ text : Nat → Str, ∀ i chain, Route index i chain → text i = path_text volume (index.shown_names chain) := by
  refine ⟨fun i => (mft.materialize_path index volume index.records.length i).getD [], fun i chain hroute => ?_⟩
  dsimp only
  rw [hroute.materialize_path volume hroute.length_le, Option.getD_some]

/-- What the two walks write that look into the cache. -/
theorem Route.cached {volume : Char} {dir_cache : List Str} {idx : Nat} (h : Route index idx chain)
    (hcache : ∀ i ∈ chain, CacheHolds index volume dir_cache i) (hfuel : chain.length ≤ fuel) :
    materialize_path_cached index volume fuel idx dir_cache = some (cached_text index volume chain) ∧
      materialize_path_into index volume fuel idx dir_cache [] = some (cached_text index volume chain) := by
  obtain ⟨text, htext⟩ := exists_route_text index volume
  have hsplit := @List.takeWhile_append_dropWhile _ (!dir_at index ·) chain
  have hwalk : mft.walk_cached index dir_cache fuel idx =
      some ((chain.dropWhile (!dir_at index ·)).head?.map text, chain.takeWhile (!dir_at index ·)) := by
    refine h.walk_cached (fun i hi => ?_) hfuel
    obtain ⟨lower, upper, heq⟩ := List.append_of_mem hi
    have hrest := h.suffix heq
    rw [hcache i hi _ hrest, htext i _ hrest]
  unfold materialize_path_cached materialize_path_into cached_text
  simp only [hwalk, Option.bind_eq_bind, Option.bind_some]
  cases hupper : chain.dropWhile (!dir_at index ·) with
  | nil =>
    rw [hupper, List.append_nil] at hsplit
    rw [hsplit, if_pos rfl]
    have hscratch : chain.reverse.foldl (push_component index) [volume, ':'] =
        [volume, ':'] ++ (index.shown_names chain).flatMap ('\\' :: ·) := foldl_push_component _ _
    have hcolon : ∀ names : List Str, ([volume, ':'] ++ names.flatMap ('\\' :: ·)).length = 2 →
        ([volume, ':'] ++ names.flatMap ('\\' :: ·)).getLast? = some ':' := by
      intro names hlen
      have hnil : names.flatMap ('\\' :: ·) = [] := by
        rw [← List.length_eq_zero_iff]
        simpa using hlen
      rw [hnil]
      rfl
    simp only [List.head?_nil, Option.map_none, List.nil_append, hscratch]
    refine ⟨congrArg some (closed_text volume _), ?_⟩
    rw [← closed_text volume (index.shown_names chain)]
    by_cases hlen : ([volume, ':'] ++ (index.shown_names chain).flatMap ('\\' :: ·)).length = 2
    · rw [if_pos ⟨hlen, hcolon _ hlen⟩, if_pos hlen]
    · rw [if_neg fun hboth => hlen hboth.1, if_neg hlen]
  | cons d upper =>
    have hd : Route index d (d :: upper) := h.suffix (by rw [← hupper, hsplit])
    rw [if_neg (List.cons_ne_nil _ _)]
    dsimp only [List.head?_cons, Option.map_some, List.nil_append]
    rw [htext d _ hd]
    have hjoined : (chain.takeWhile (!dir_at index ·)).reverse.foldl (push_joined index)
        (path_text volume (index.shown_names (d :: upper))) =
        joined (path_text volume (index.shown_names (d :: upper))) (index.shown_names (chain.takeWhile (!dir_at index ·))) :=
      foldl_push_joined _ _
    rw [hjoined]
    refine ⟨?_, rfl⟩
    cases hlower : chain.takeWhile (!dir_at index ·) with
    | nil => rfl
    | cons i lower => rfl

/-- With fuel for a chain through the whole index, the cache holds the paths of the valid directories. -/
theorem pre_cached {state : List PathState} {trusted : Nat → Prop}
    (hvalid : ∀ idx, PathResolver.is_valid_idx state idx = true ↔ index.ReachesRoot trusted idx) (volume : Char)
    (hfuel : index.records.length ≤ fuel) :
    ∃ dir_cache, pre_cache_directory_paths index volume state fuel = some dir_cache ∧
      ∀ idx, index.ReachesRoot trusted idx → CacheHolds index volume dir_cache idx := by
  obtain ⟨text, htext⟩ := exists_route_text index volume
  have hrun : pre_cache_directory_paths index volume state fuel = some ((List.range index.records.length).map fun idx =>
      if PathResolver.is_valid_idx state idx && dir_at index idx then text idx else []) := by
    apply mapM_eq_some
    intro idx _
    split
    next hdir =>
      rw [Bool.and_eq_true] at hdir
      obtain ⟨chain, hroute, -⟩ := route_of_reachesRoot ((hvalid idx).mp hdir.1)
      rw [hroute.materialize_path volume (hroute.length_le.trans hfuel), htext idx chain hroute]
    next => rfl
  refine ⟨_, hrun, fun idx hreach chain hroute => ?_⟩
  have hlt := ReachesRoot.lt_length hreach
  have hpath : path_text volume (index.shown_names chain) ≠ [] := by
    unfold path_text
    split <;> simp
  rw [List.getElem?_map, List.getElem?_range hlt, Option.map_some, (hvalid idx).mpr hreach, Bool.true_and, htext idx chain hroute]
  cases dir_at index idx with
  | true => simp [Option.filter, hpath]
  | false => simp [Option.filter]

end records

end uffs.mft
