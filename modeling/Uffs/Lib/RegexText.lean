import Mathlib.Data.List.Forall2

/-! The characters of a regex text and what they stand for: literals, members of a class, or syntax. -/

namespace uffs.lib.regex

/-- What a character of a regex text stands for. A range has a lower end that is an item, a dash and
a higher end; the payload of an escape is a number or the name of a property. -/
inductive Role where
  | literal | item | dash | high | payload | name | syn
  deriving DecidableEq

/-- Where in the text the reader is. -/
inductive Mode where
  | normal | escape | boundary | fixed_braces
  | hex_start (digits : Nat) | hex (digits : Nat) | braces | property
  | group | group_query | group_named | flags | name
  | class_fresh | class_negated | class_dashes | class_body | class_op | ascii_name | escaped
  | range_dash | range_end (fixed : Bool)
  deriving DecidableEq

/-- The mode, how many classes are open, and whether the escape at hand ends a range. -/
structure State where
  depth : Nat := 0
  ends_range : Bool := false
  mode : Mode := .normal
  deriving DecidableEq

/-- Operators outside of classes, beside those that open a group, a class or an escape. -/
def operators : List Char := [')', '.', '+', '*', '?', '|', '{', '}', '^', '$']

def starts (p : Char) (text : List Char) : Bool := text.head? == some p

/-- A dash follows that is neither the last of the class nor half of an operator. -/
def opens_range (rest : List Char) : Bool :=
  starts '-' rest && !rest.tail.isEmpty && !starts ']' rest.tail && !starts '-' rest.tail

/-- What stands between the brackets of a class by name. -/
def ascii_classes : List (List Char) :=
  ["alnum", "alpha", "ascii", "blank", "cntrl", "digit", "graph", "lower", "print", "punct", "space", "upper", "word",
    "xdigit"].flatMap fun name => [':' :: name.toList ++ [':'], ':' :: '^' :: name.toList ++ [':']]

/-- A class by name goes on here; behind a bracket anything else opens a class in the class. -/
def ascii_class (rest : List Char) : Bool := ascii_classes.any fun body => (body ++ [']']).isPrefixOf rest

/-- The mode after an escape. -/
def State.back (s : State) : State :=
  if s.depth = 0 then {}
  else if s.ends_range then { depth := s.depth, mode := .class_body }
  else { depth := s.depth, mode := .escaped }

def State.close (s : State) : State :=
  if s.depth ≤ 1 then {} else { depth := s.depth - 1, mode := .class_body }

def step_normal (s : State) (c : Char) : Role × State :=
  if c = '\\' then (.syn, { s with mode := .escape })
  else if c = '[' then (.syn, { depth := 1, mode := .class_fresh })
  else if c = '(' then (.syn, { s with mode := .group })
  else if c ∈ operators then (.syn, { s with mode := .normal })
  else (.literal, { s with mode := .normal })

/-- An end of a range whose other end is an escape is kept as it is. -/
def step_class (s : State) (c : Char) (rest : List Char) : Role × State :=
  if c = ']' then (.syn, s.close)
  else if c = '[' then
    if ascii_class rest then (.syn, { s with mode := .ascii_name })
    else (.syn, { depth := s.depth + 1, mode := .class_fresh })
  else if c = '\\' then (.syn, { s with mode := .escape, ends_range := false })
  else if (c = '&' && starts '&' rest) || (c = '-' && starts '-' rest) || (c = '~' && starts '~' rest) then
    (.syn, { s with mode := .class_op })
  else if opens_range rest then (if starts '\\' rest.tail then .syn else .item, { s with mode := .range_dash })
  else (.item, { s with mode := .class_body })

/-- In a header of flags, those that change how literals match are not read. -/
def step_flags (s : State) (c : Char) : Option (Role × State) :=
  if c = ')' || c = ':' then some (.syn, { s with mode := .normal })
  else if c = 'i' || c = 'u' || c = 'x' then none
  else some (.syn, { s with mode := .flags })

/-- What an escaped character is followed by. -/
def escape_mode (s : State) (c : Char) : State :=
  if c = 'x' then { s with mode := .hex_start 2 }
  else if c = 'u' then { s with mode := .hex_start 4 }
  else if c = 'U' then { s with mode := .hex_start 8 }
  else if c = 'p' || c = 'P' then { s with mode := .property }
  else if c = 'b' && s.depth == 0 then { s with mode := .boundary }
  else s.back

def step (s : State) (c : Char) (rest : List Char) : Option (Role × State) :=
  match s.mode with
  | .normal => some (step_normal s c)
  | .escape => some (.syn, escape_mode s c)
  | .boundary => some (if c = '{' then (.syn, { s with mode := .fixed_braces }) else step_normal s c)
  | .fixed_braces => some (.syn, { s with mode := if c = '}' then .normal else .fixed_braces })
  | .hex_start digits =>
    some (if c = '{' then (.syn, { s with mode := .braces }) else (.payload, { s with mode := .hex (digits - 1) }))
  | .hex digits => some (.payload, if digits ≤ 1 then s.back else { s with mode := .hex (digits - 1) })
  | .braces => some (if c = '}' then (.syn, s.back) else (.payload, s))
  | .property => some (if c = '{' then (.syn, { s with mode := .braces }) else (.payload, s.back))
  | .group => some (if c = '?' then (.syn, { s with mode := .group_query }) else step_normal s c)
  | .group_query =>
    if c = 'P' then some (.syn, { s with mode := .group_named })
    else if c = '<' then some (.syn, { s with mode := .name })
    else step_flags s c
  | .group_named => if c = '<' then some (.syn, { s with mode := .name }) else step_flags s c
  | .flags => step_flags s c
  | .name => some (if c = '>' then (.syn, { s with mode := .normal }) else (.name, s))
  | .class_fresh =>
    some (if c = '^' then (.syn, { s with mode := .class_negated })
      else if c = '-' then (.item, { s with mode := .class_dashes })
      else if c = ']' then (.item, { s with mode := .class_body })
      else step_class s c rest)
  | .class_negated =>
    some (if c = '-' then (.item, { s with mode := .class_dashes })
      else if c = ']' then (.item, { s with mode := .class_body })
      else step_class s c rest)
  | .class_dashes => some (if c = '-' then (.item, s) else step_class s c rest)
  | .class_body => some (step_class s c rest)
  | .class_op => some (.syn, { s with mode := .class_body })
  | .ascii_name => some (.syn, { s with mode := if c = ']' then .class_body else .ascii_name })
  | .escaped =>
    some (if opens_range (c :: rest) then (.dash, { s with mode := .range_end true }) else step_class s c rest)
  | .range_dash => some (.dash, { s with mode := .range_end false })
  | .range_end fixed =>
    some (if c = '\\' then (.syn, { s with mode := .escape, ends_range := true })
      else (if fixed then .syn else .high, { s with mode := .class_body }))

/-- The roles of the characters of a text, or none where it is not read. -/
def roles (s : State) : List Char → Option (List Role)
  | [] => some []
  | c :: rest => (step s c rest).bind fun next => (roles next.2 rest).map (next.1 :: ·)

variable {list : List Role}

theorem roles_length {s : State} {text : List Char} (h : roles s text = some list) :
    list.length = text.length := by
  induction text generalizing s list with
  | nil =>
    obtain rfl := Option.some.inj h
    rfl
  | cons c rest ih =>
    obtain ⟨next, -, hrest⟩ := Option.bind_eq_some_iff.mp h
    obtain ⟨others, hothers, rfl⟩ := Option.map_eq_some_iff.mp hrest
    rw [List.length_cons, ih hothers, List.length_cons]

/-- The characters the reader looks for in any text; letters it looks for only in syntax. -/
def punctuation : List Char := operators ++ ['\\', '[', ']', '(', '<', '>', ':', '-', '&', '~']

/-- Punctuation stays, and nothing else becomes punctuation. -/
def KeepsPunctuation (f : Char → Char) : Prop := ∀ p ∈ punctuation, ∀ c, f c = p ↔ c = p

/-- Nothing becomes a letter of a class by name. -/
def MakesNoClass (f : Char → Char) : Prop := ∀ c, f c ∈ ascii_classes.flatten → f c = c

variable {rest : List Char}

theorem ascii_class_iff : ascii_class rest = true ↔ ∃ body ∈ ascii_classes, body ++ [']'] <+: rest := by
  simp only [ascii_class, List.any_eq_true, List.isPrefixOf_iff_prefix]

theorem no_bracket_in_class : ∀ body ∈ ascii_classes, ']' ∉ body := by decide

section map

variable {f : Char → Char} (hf : KeepsPunctuation f) (hnone : MakesNoClass f)

include hf

theorem starts_map {p : Char} (hp : p ∈ punctuation) (text : List Char) : starts p (text.map f) = starts p text := by
  cases text with
  | nil => rfl
  | cons c text => simp [starts, hf p hp c]

theorem opens_range_map (rest : List Char) : opens_range (rest.map f) = opens_range rest := by
  simp only [opens_range, ← List.map_tail, List.isEmpty_map, starts_map hf (show '-' ∈ punctuation by decide),
    starts_map hf (show ']' ∈ punctuation by decide)]

theorem mem_operators_map (c : Char) : f c ∈ operators ↔ c ∈ operators := by
  have hmem : ∀ p ∈ operators, f c = p ↔ c = p := fun p hp => hf p (List.mem_append_left _ hp) c
  constructor
  · intro h
    rwa [(hmem _ h).mp rfl]
  · intro h
    rwa [(hmem _ h).mpr rfl]

theorem step_normal_map (s : State) (c : Char) : step_normal s (f c) = step_normal s c := by
  simp only [step_normal, hf '\\' (by decide), hf '[' (by decide), hf '(' (by decide), mem_operators_map hf]

include hnone in
/-- A class by name is not made of anything else. -/
theorem ascii_class_of_map (h : ascii_class (rest.map f) = true) : ascii_class rest = true := by
  obtain ⟨body, hbody, tail, hrest⟩ := ascii_class_iff.mp h
  obtain ⟨front, back, rfl, hfront, -⟩ := List.map_eq_append_iff.mp hrest.symm
  have hsame : front.map f = front := by
    refine (List.map_congr_left fun c hc => ?_).trans (List.map_id front)
    have hmem : f c ∈ body ++ [']'] := hfront ▸ List.mem_map_of_mem hc
    rcases List.mem_append.mp hmem with hname | hlast
    · exact hnone c (List.mem_flatten.mpr ⟨body, hbody, hname⟩)
    · have hbracket := List.mem_singleton.mp hlast
      exact hbracket.trans ((hf ']' (by decide) c).mp hbracket).symm
  exact ascii_class_iff.mpr ⟨body, hbody, back, by rw [← hfront, hsame]⟩

theorem step_class_map (s : State) {c : Char}
    (hclass : c = '[' → ascii_class (rest.map f) = ascii_class rest) : step_class s (f c) (rest.map f) = step_class s c rest := by
  by_cases hopen : c = '['
  · subst hopen
    have hstays : f '[' = '[' := (hf '[' (by decide) '[').mpr rfl
    simp only [step_class, hstays, hclass rfl, if_neg (show '[' ≠ ']' by decide), if_true]
  · simp only [step_class, ← List.map_tail, opens_range_map hf, hf ']' (by decide), hf '[' (by decide), hf '\\' (by decide),
      hf '&' (by decide), hf '-' (by decide), hf '~' (by decide), hopen, if_false, starts_map hf (show '&' ∈ punctuation by decide),
      starts_map hf (show '-' ∈ punctuation by decide), starts_map hf (show '~' ∈ punctuation by decide),
      starts_map hf (show '\\' ∈ punctuation by decide)]

omit hf in
theorem step_flags_syn {s : State} {c : Char} {next : Role × State} (h : step_flags s c = some next) : next.1 = .syn := by
  unfold step_flags at h
  split at h
  · rw [← Option.some.inj h]
  · split at h
    · cases h
    · rw [← Option.some.inj h]

include hnone in
/-- A reader that sees a mapped text goes on as before, if no syntax was changed. -/
theorem step_map {s : State} {c : Char} {next : Role × State} (h : step s c rest = some next)
    (hsyn : next.1 = .syn → f c = c)
    (hnamed : next.2.mode = .ascii_name → ascii_class rest = true → ascii_class (rest.map f) = true) :
    step s (f c) (rest.map f) = some next := by
  have hopens : opens_range (f c :: rest.map f) = opens_range (c :: rest) := opens_range_map hf (c :: rest)
  have hbracket : step_class s '[' rest = next → c = '[' → ascii_class (rest.map f) = ascii_class rest := by
    rintro rfl rfl
    cases hrest : ascii_class rest with
    | true => exact hnamed (by simp [step_class, hrest]) hrest
    | false => exact Bool.eq_false_iff.mpr fun hmap => Bool.eq_false_iff.mp hrest (ascii_class_of_map hf hnone hmap)
  -- where letters are looked for, all is syntax and the character stays
  have hstays : next.1 = .syn → step s (f c) rest = some next := by
    intro hrole
    rwa [hsyn hrole]
  unfold step at h hstays ⊢
  cases hmode : s.mode with
  | escape =>
    simp only [hmode] at h hstays ⊢
    exact hstays (by rw [← Option.some.inj h])
  | group_query =>
    simp only [hmode] at h hstays ⊢
    apply hstays
    split at h
    · rw [← Option.some.inj h]
    · split at h
      · rw [← Option.some.inj h]
      · exact step_flags_syn h
  | group_named =>
    simp only [hmode] at h hstays ⊢
    apply hstays
    split at h
    · rw [← Option.some.inj h]
    · exact step_flags_syn h
  | flags =>
    simp only [hmode] at h hstays ⊢
    exact hstays (step_flags_syn h)
  | class_fresh | class_negated | class_dashes | class_body | escaped =>
    have hclass : c = '[' → ascii_class (rest.map f) = ascii_class rest := by
      rintro rfl
      refine hbracket ?_ rfl
      simpa [hmode, opens_range, starts] using h
    simpa only [hmode, step_class_map hf s hclass, hopens, hf '^' (by decide), hf '-' (by decide), hf ']' (by decide)] using h
  | _ =>
    simpa only [hmode, step_normal_map hf, hf '\\' (by decide), hf '{' (by decide), hf '}' (by decide), hf '?' (by decide),
      hf '>' (by decide), hf ']' (by decide)] using h

omit hf in
/-- A class by name is syntax up to its bracket. -/
theorem class_name_stays {s : State} (hmode : s.mode = .ascii_name) {body tail : List Char} (hbody : ']' ∉ body)
    (h : roles s (body ++ tail) = some list)
    (hsyn : List.Forall₂ (fun c role => role = .syn → f c = c) (body ++ tail) list) : body.map f = body := by
  induction body generalizing s list with
  | nil => rfl
  | cons c body ih =>
    rw [List.mem_cons, not_or] at hbody
    obtain ⟨next, hnext, hrest⟩ := Option.bind_eq_some_iff.mp h
    obtain ⟨others, hothers, rfl⟩ := Option.map_eq_some_iff.mp hrest
    obtain ⟨hhead, htail⟩ := List.forall₂_cons.mp hsyn
    unfold step at hnext
    simp only [hmode, Option.some.injEq] at hnext
    subst hnext
    rw [List.map_cons, hhead rfl, ih (if_neg fun heq => hbody.1 heq.symm) hbody.2 hothers htail]

include hnone in
/-- A change of a text that keeps its punctuation and all of its syntax keeps the roles. -/
theorem roles_map {text : List Char} {s : State} (h : roles s text = some list)
    (hsyn : List.Forall₂ (fun c role => role = .syn → f c = c) text list) : roles s (text.map f) = some list := by
  induction text generalizing s list with
  | nil => exact h
  | cons c rest ih =>
    obtain ⟨next, hnext, hrest⟩ := Option.bind_eq_some_iff.mp h
    obtain ⟨others, hothers, rfl⟩ := Option.map_eq_some_iff.mp hrest
    obtain ⟨hhead, htail⟩ := List.forall₂_cons.mp hsyn
    have hnamed : next.2.mode = .ascii_name → ascii_class rest = true → ascii_class (rest.map f) = true := by
      intro hmode hclass
      obtain ⟨body, hbody, tail, rfl⟩ := ascii_class_iff.mp hclass
      have hbracket : f ']' = ']' := (hf ']' (by decide) ']').mpr rfl
      rw [List.append_assoc] at hothers htail
      have hsame := class_name_stays hmode (no_bracket_in_class body hbody) hothers htail
      refine ascii_class_iff.mpr ⟨body, hbody, tail.map f, ?_⟩
      rw [List.map_append, List.map_append, hsame, List.map_singleton, hbracket]
    rw [List.map_cons, roles, step_map hf hnone hnext hhead hnamed, Option.bind_some, ih hothers htail, Option.map_some]

end map

/-- The ranges of the classes of a text. -/
def ranges : List (Char × Role) → List (Char × Char)
  | (low, .item) :: (_, .dash) :: (high, .high) :: rest => (low, high) :: ranges rest
  | _ :: rest => ranges rest
  | [] => []

/-- The names of the groups of a text. -/
def group_names : List (Char × Role) → List (List Char)
  | [] => []
  | (c, role) :: rest =>
    if role = .name then
      match rest.head?.any (·.2 == .name), group_names rest with
      | true, name :: names => (c :: name) :: names
      | _, names => [c] :: names
    else group_names rest

/-- The syntax of a text: its operators, escapes and headers, without literals. -/
def skeleton (text : List Char) : Option (List Char) :=
  (roles {} text).map fun list => ((text.zip list).filter (·.2 == .syn)).map Prod.fst

section recased

variable (ci : Char → Char → Bool)

/-- Two characters that mean the same in a role, where literals are compared by `ci`. -/
def SameIn (role : Role) (c c' : Char) : Prop :=
  match role with
  | .syn | .dash => c = c'
  | .payload => c.toUpper = c'.toUpper
  | .literal | .item | .high | .name => ci c c' = true

/-- A range has a character up to case. -/
def Covers (range : Char × Char) (c : Char) : Prop := ∃ v, range.1 ≤ v ∧ v ≤ range.2 ∧ ci c v = true

/-- A text with its literals in another case: no range has other characters for it, and group names
that differ still do. -/
structure Recases (list : List Role) (text text' : List Char) : Prop where
  chars : List.Forall₂ (fun pair role => SameIn ci role pair.1 pair.2) (text.zip text') list
  ranges : List.Forall₂ (fun range range' => ∀ c, Covers ci range c ↔ Covers ci range' c)
    (regex.ranges (text.zip list)) (regex.ranges (text'.zip list))
  names : (group_names (text.zip list)).Nodup ↔ (group_names (text'.zip list)).Nodup

/-- Two texts that differ only in the case of their literals. -/
def Recased (text text' : List Char) : Prop :=
  ∃ list, roles {} text = some list ∧ roles {} text' = some list ∧ Recases ci list text text'

variable {ci}

theorem recased_map {f : Char → Char} (hf : KeepsPunctuation f) (hnone : MakesNoClass f) {text : List Char}
    (hroles : roles {} text = some list) (h : Recases ci list text (text.map f)) : Recased ci text (text.map f) := by
  refine ⟨list, hroles, roles_map hf hnone hroles ?_, h⟩
  have hzip : text.zip (text.map f) = text.map fun c => (c, f c) := by simpa using (@List.zip_map' _ _ _ id f text)
  have hchars := h.chars
  rw [hzip, List.forall₂_map_left_iff] at hchars
  refine hchars.imp fun c role hsame hsyn => ?_
  subst hsyn
  exact (show c = f c from hsame).symm

theorem kept_chars_eq {text text' : List Char}
    (h : List.Forall₂ (fun pair role => SameIn ci role pair.1 pair.2) (text.zip text') list) :
    ((text'.zip list).filter (·.2 == .syn)).map Prod.fst = ((text.zip list).filter (·.2 == .syn)).map Prod.fst := by
  induction text generalizing text' list with
  | nil =>
    cases h
    simp
  | cons c text ih =>
    cases text' with
    | nil =>
      cases h
      simp
    | cons c' text' =>
      cases h with
      | cons hsame hrest =>
        rename_i role list
        by_cases hsyn : role = .syn
        · subst hsyn
          have heq : c = c' := hsame
          simp [heq, ih hrest]
        · simp [hsyn, ih hrest]

/-- Changing the case of literals leaves the syntax alone. -/
theorem Recased.skeleton_eq {text text' : List Char} (h : Recased ci text text') : skeleton text' = skeleton text := by
  obtain ⟨list, hroles, hroles', hrec⟩ := h
  rw [skeleton, skeleton, hroles, hroles', Option.map_some, Option.map_some]
  exact congrArg some (kept_chars_eq hrec.chars)

end recased

end uffs.lib.regex
