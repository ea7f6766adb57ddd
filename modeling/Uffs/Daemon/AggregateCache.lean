import Uffs.Lib.Machine

open uffs.lib

namespace uffs.daemon

/-! The cache of aggregate outputs, and the requests, body swaps and version bumps around it. -/

section cache

variable {Output : Type}

/-- An output, when it was stored, and the version it was stored under. -/
structure CacheEntry (Output : Type) where
  output : Output
  created : Nat
  index_version : Nat

structure AggregateCache (Output : Type) where
  entries : UInt64 → Option (CacheEntry Output) := fun _ => none
  ttl : Nat
  index_version : Nat := 0

namespace AggregateCache

def clear (self : AggregateCache Output) : AggregateCache Output := { self with entries := fun _ => none }

/-- The second half of `get`, for the version that the first half has read. -/
def lookup (self : AggregateCache Output) (now : Nat) (spec_hash : UInt64) (current_version : Nat) : Option Output := do
  let entry ← self.entries spec_hash
  if now - entry.created > self.ttl ∨ entry.index_version ≠ current_version then none else some entry.output

/-- The second half of `put`: what is too old goes, then comes the entry that the first half has made. -/
def insert (self : AggregateCache Output) (now : Nat) (spec_hash : UInt64) (entry : CacheEntry Output) : AggregateCache Output :=
  let kept := fun key => (self.entries key).filter fun existing => decide (now - existing.created ≤ self.ttl)
  { self with entries := Function.update kept spec_hash (some entry) }

theorem lookup_some {self : AggregateCache Output} {now : Nat} {spec_hash : UInt64} {current_version : Nat} {output : Output}
    (h : self.lookup now spec_hash current_version = some output) :
    ∃ entry, self.entries spec_hash = some entry ∧ entry.index_version = current_version ∧ entry.output = output := by
  obtain ⟨entry, hentry, hrest⟩ := Option.bind_eq_some_iff.mp h
  split at hrest
  · cases hrest
  · rename_i hfresh
    exact ⟨entry, hentry, not_not.mp (not_or.mp hfresh).2, Option.some.inj hrest⟩

theorem insert_entries {self : AggregateCache Output} {now : Nat} {spec_hash key : UInt64} {entry other : CacheEntry Output}
    (h : (self.insert now spec_hash entry).entries key = some other) :
    key = spec_hash ∧ other = entry ∨ self.entries key = some other := by
  by_cases hkey : key = spec_hash
  · subst hkey
    simp only [insert, Function.update_self, Option.some.injEq] at h
    exact .inl ⟨rfl, h.symm⟩
  · simp only [insert, Function.update_of_ne hkey] at h
    exact .inr (Option.filter_eq_some_iff.mp h).1

end AggregateCache

end cache

section machine

variable {Index Request Output : Type} (compute : Request → Index → Option Output) (key : Request → UInt64)

/-- What a thread of the daemon is about to do next. -/
inductive AggTask (Index Request Output : Type) where
  /-- A request with its snapshot reads the version for its `get`. -/
  | get_version (request : Request) (snapshot : Index)
  /-- It looks its key up. -/
  | get_entry (request : Request) (snapshot : Index) (version : Nat)
  /-- It has missed and scanned its snapshot; its `put` makes the entry. -/
  | put_version (request : Request) (snapshot : Index) (output : Output)
  /-- It stores the entry. -/
  | put_entry (request : Request) (entry : CacheEntry Output)
  /-- A bump has its number and sets it. -/
  | set_version (version : Nat)
  /-- It has set a new version and clears the entries. -/
  | clear_entries
  | finished

/-- The daemon, as far as aggregate requests go. `published` and `requests` are not stored anywhere:
the contents of the index when a version was set, and the requests so far. -/
structure AggDaemon (Index Request Output : Type) where
  contents : Index
  cache : AggregateCache Output
  /-- The number of the last bump; no daemon makes 2^64 of them. -/
  index_version : Nat := 0
  now : Nat := 0
  tasks : List (AggTask Index Request Output) := []
  published : Nat → Index
  requests : List Request := []

inductive AggEvent (Index Request : Type) where
  | clock (now : Nat)
  /-- A body is swapped in or dropped. -/
  | swap (contents : Index)
  | bump
  | request (request : Request)
  /-- The thread of this number goes on. -/
  | advance (i : Nat)

namespace AggDaemon

/-- A daemon that has just started. -/
def start (contents : Index) (ttl : Nat) : AggDaemon Index Request Output :=
  { contents, cache := { ttl }, published := fun _ => contents }

def set_task (self : AggDaemon Index Request Output) (i : Nat) (task : AggTask Index Request Output) :
    AggDaemon Index Request Output :=
  { self with tasks := self.tasks.set i task }

def advance (self : AggDaemon Index Request Output) (i : Nat) :
    AggTask Index Request Output → Option (AggDaemon Index Request Output)
  | .get_version request snapshot => some (self.set_task i (.get_entry request snapshot self.cache.index_version))
  | .get_entry request snapshot version =>
    match self.cache.lookup self.now (key request) version, compute request snapshot with
    | none, some output => some (self.set_task i (.put_version request snapshot output))
    | _, _ => some (self.set_task i .finished)
  | .put_version request _ output => some
    (self.set_task i (.put_entry request { output, created := self.now, index_version := self.cache.index_version }))
  | .put_entry request entry => some
    { self.set_task i .finished with cache := self.cache.insert self.now (key request) entry }
  | .set_version version =>
    if self.cache.index_version = version then some (self.set_task i .finished)
    else some
      { self.set_task i .clear_entries with
        cache := { self.cache with index_version := version }
        published := Function.update self.published version self.contents }
  | .clear_entries => some { self.set_task i .finished with cache := self.cache.clear }
  | .finished => none

def step (s : AggDaemon Index Request Output) : AggEvent Index Request → Option (AggDaemon Index Request Output)
  | .clock now => if s.now ≤ now then some { s with now } else none
  | .swap contents => some { s with contents }
  | .bump => some { s with index_version := s.index_version + 1, tasks := s.tasks ++ [.set_version (s.index_version + 1)] }
  | .request request => some
    { s with requests := request :: s.requests, tasks := s.tasks ++ [.get_version request s.contents] }
  | .advance i => s.tasks[i]?.bind (s.advance compute key i)

/-- What the cache promises: an output that is served for a version is the one of that version's contents. -/
def Served (s : AggDaemon Index Request Output) : AggEvent Index Request → Prop
  | .advance i => ∀ request snapshot version output, s.tasks[i]? = some (.get_entry request snapshot version) →
      s.cache.lookup s.now (key request) version = some output → compute request (s.published version) = some output
  | _ => True

/-- Steps that store no output of older or newer contents than the version's. -/
def Careful (s : AggDaemon Index Request Output) : AggEvent Index Request → Prop
  | .request request => ∀ other ∈ s.requests, key other = key request → other = request
  | .advance i => ∀ request snapshot output, s.tasks[i]? = some (.put_version request snapshot output) →
      snapshot = s.published s.cache.index_version
  | _ => True

/-- The version has been set, and no thread is going to set it again. -/
def Settled (s : AggDaemon Index Request Output) (version : Nat) : Prop :=
  version ≤ s.index_version ∧ .set_version version ∉ s.tasks

/-- The entry holds the output of a request with this key on the contents of its version. -/
def Fits (s : AggDaemon Index Request Output) (hash : UInt64) (entry : CacheEntry Output) : Prop :=
  s.Settled entry.index_version ∧
    ∃ request ∈ s.requests, key request = hash ∧ compute request (s.published entry.index_version) = some entry.output

/-- No two threads are going to set the same version. -/
def Once (s : AggDaemon Index Request Output) : Prop :=
  ∀ (i j version : Nat), s.tasks[i]? = some (.set_version version) → s.tasks[j]? = some (.set_version version) → i = j

/-- What a thread is sure of. -/
def Sound (s : AggDaemon Index Request Output) : AggTask Index Request Output → Prop
  | .get_version request _ => request ∈ s.requests
  | .get_entry request _ _ => request ∈ s.requests
  | .put_version request snapshot output => request ∈ s.requests ∧ compute request snapshot = some output
  | .put_entry request entry => s.Fits compute key (key request) entry
  | .set_version version => version ≤ s.index_version
  | .clear_entries => True
  | .finished => True

/-- Every number is set once, and every entry holds the output of its version. -/
structure Inv (s : AggDaemon Index Request Output) : Prop where
  once : s.Once
  current : s.Settled s.cache.index_version
  tasks : ∀ task ∈ s.tasks, s.Sound compute key task
  entries : ∀ hash entry, s.cache.entries hash = some entry → s.Fits compute key hash entry
  keys : ∀ one ∈ s.requests, ∀ other ∈ s.requests, key one = key other → one = other

/-- What every step keeps: versions that have been set, their contents, and the requests so far. -/
structure Frame (s s' : AggDaemon Index Request Output) : Prop where
  settled : ∀ version, s.Settled version → s'.Settled version
  published : ∀ version, s.Settled version → s'.published version = s.published version
  requests : s.requests ⊆ s'.requests
  index_version : s.index_version ≤ s'.index_version

variable {compute} {key} {s s' : AggDaemon Index Request Output}

theorem Fits.frame (h : Frame s s') {hash : UInt64} {entry : CacheEntry Output} (hfits : s.Fits compute key hash entry) :
    s'.Fits compute key hash entry := by
  obtain ⟨hsettled, request, hmem, hkey, hout⟩ := hfits
  refine ⟨h.settled _ hsettled, request, h.requests hmem, hkey, ?_⟩
  rw [h.published _ hsettled]
  exact hout

theorem Sound.frame (h : Frame s s') {task : AggTask Index Request Output} (hsound : s.Sound compute key task) :
    s'.Sound compute key task := by
  cases task with
  | get_version request snapshot => exact h.requests hsound
  | get_entry request snapshot version => exact h.requests hsound
  | put_version request snapshot output => exact ⟨h.requests hsound.1, hsound.2⟩
  | put_entry request entry => exact Fits.frame h hsound
  | set_version version => exact Nat.le_trans hsound h.index_version
  | clear_entries => trivial
  | finished => trivial

-- A thread goes on to anything but another bump.
section advance

variable {i : Nat} {task : AggTask Index Request Output} (htasks : s'.tasks = s.tasks.set i task)
  (hno : ∀ version, task ≠ .set_version version)
include htasks hno

theorem tasks_set {j version : Nat} (h : s'.tasks[j]? = some (.set_version version)) :
    i ≠ j ∧ s.tasks[j]? = some (.set_version version) := by
  rw [htasks, List.getElem?_set] at h
  split at h
  · split at h
    · exact absurd (Option.some.inj h) (hno version)
    · cases h
  · rename_i hne
    exact ⟨hne, h⟩

theorem Once.set_task (honce : s.Once) : s'.Once := by
  intro a b version ha hb
  exact honce a b version (tasks_set htasks hno ha).2 (tasks_set htasks hno hb).2

theorem settled_frame (hversion : s'.index_version = s.index_version) {version : Nat} (h : s.Settled version) :
    s'.Settled version := by
  refine ⟨hversion ▸ h.1, fun hmem => h.2 ?_⟩
  obtain ⟨j, hj⟩ := List.mem_iff_getElem?.mp hmem
  exact List.mem_iff_getElem?.mpr ⟨j, (tasks_set htasks hno hj).2⟩

/-- The version that a thread has just set is settled. -/
theorem settled_set (hversion : s'.index_version = s.index_version) (honce : s.Once) {version : Nat}
    (hle : version ≤ s.index_version) (hi : s.tasks[i]? = some (.set_version version)) : s'.Settled version := by
  refine ⟨hversion ▸ hle, fun hmem => ?_⟩
  obtain ⟨j, hj⟩ := List.mem_iff_getElem?.mp hmem
  obtain ⟨hne, hold⟩ := tasks_set htasks hno hj
  exact hne (honce i j version hi hold)

theorem Frame.set_task (hversion : s'.index_version = s.index_version) (hrequests : s'.requests = s.requests)
    (hpublished : ∀ version, s.Settled version → s'.published version = s.published version) : Frame s s' where
  settled _ := settled_frame htasks hno hversion
  published := hpublished
  requests := by rw [hrequests]; exact fun _ h => h
  index_version := Nat.le_of_eq hversion.symm

end advance

/-- A step keeps the invariant when it frames, and its own doings fit. -/
theorem Inv.frame (hinv : s.Inv compute key) (hframe : Frame s s') (honce : s'.Once)
    (hcurrent : s'.cache.index_version = s.cache.index_version ∨ s'.Settled s'.cache.index_version)
    (htasks : ∀ task ∈ s'.tasks, task ∈ s.tasks ∨ s'.Sound compute key task)
    (hentries : ∀ hash entry, s'.cache.entries hash = some entry →
      s.cache.entries hash = some entry ∨ s'.Fits compute key hash entry)
    (hkeys : ∀ one ∈ s'.requests, ∀ other ∈ s'.requests, key one = key other → one = other) : s'.Inv compute key where
  once := honce
  current := by
    rcases hcurrent with h | h
    · rw [h]
      exact hframe.settled _ hinv.current
    · exact h
  tasks task hmem := (htasks task hmem).elim (fun h => (hinv.tasks task h).frame hframe) fun h => h
  entries hash entry h := (hentries hash entry h).elim (fun h => (hinv.entries hash entry h).frame hframe) fun h => h
  keys := hkeys

/-- A thread that goes on without a word to the cache. -/
theorem Inv.set_task (hinv : s.Inv compute key) (i : Nat) {task : AggTask Index Request Output}
    (hno : ∀ version, task ≠ .set_version version) (hsound : (s.set_task i task).Sound compute key task) :
    (s.set_task i task).Inv compute key := by
  refine hinv.frame (.set_task rfl hno rfl rfl fun _ _ => rfl) (.set_task rfl hno hinv.once) (.inl rfl) ?_ (fun _ _ h => .inl h) hinv.keys
  intro other hmem
  rcases List.mem_or_eq_of_mem_set hmem with h | rfl
  · exact .inl h
  · exact .inr hsound

variable {e : AggEvent Index Request}

/-- A task that goes on keeps the cache right: only the put stores, and a careful put stores the output
of the version it is stamped with. -/
theorem Inv.advance (hinv : s.Inv compute key) {i : Nat} {task : AggTask Index Request Output} (hi : s.tasks[i]? = some task)
    (hcareful : s.Careful key (.advance i)) (hadvance : s.advance compute key i task = some s') : s'.Inv compute key := by
  have hsound := hinv.tasks task (List.mem_of_getElem? hi)
  cases task with
  | get_version request snapshot =>
    cases hadvance
    exact hinv.set_task i (fun _ => nofun) hsound
  | get_entry request snapshot version =>
    simp only [AggDaemon.advance] at hadvance
    split at hadvance
    · rename_i output _ hout
      cases hadvance
      exact hinv.set_task i (fun _ => nofun) ⟨hsound, hout⟩
    · cases hadvance
      exact hinv.set_task i (fun _ => nofun) trivial
  | put_version request snapshot output =>
    cases hadvance
    obtain ⟨hmem, hout⟩ := hsound
    rw [hcareful request snapshot output hi] at hout
    have hframe : Frame s (s.set_task i (.put_entry request ⟨output, s.now, s.cache.index_version⟩)) :=
      .set_task rfl (fun _ => nofun) rfl rfl fun _ _ => rfl
    exact hinv.set_task i (fun _ => nofun) ⟨hframe.settled _ hinv.current, request, hmem, rfl, hout⟩
  | put_entry request entry =>
    cases hadvance
    have hframe : Frame s { s.set_task i .finished with cache := s.cache.insert s.now (key request) entry } :=
      .set_task rfl (fun _ => nofun) rfl rfl fun _ _ => rfl
    refine hinv.frame hframe (.set_task rfl (fun _ => nofun) hinv.once) (.inl rfl) ?_ ?_ hinv.keys
    · intro other hmem
      rcases List.mem_or_eq_of_mem_set hmem with h | rfl
      · exact .inl h
      · exact .inr trivial
    · intro hash other hother
      rcases AggregateCache.insert_entries hother with ⟨rfl, rfl⟩ | h
      · exact .inr (Fits.frame hframe hsound)
      · exact .inl h
  | set_version version =>
    simp only [AggDaemon.advance] at hadvance
    split at hadvance
    · cases hadvance
      exact hinv.set_task i (fun _ => nofun) trivial
    · cases hadvance
      refine hinv.frame (.set_task rfl (fun _ => nofun) rfl rfl ?_) (.set_task rfl (fun _ => nofun) hinv.once) (.inr ?_) ?_
        (fun _ _ h => .inl h) hinv.keys
      -- what is settled is not in a thread, so it is another version
      · intro other hother
        refine Function.update_of_ne ?_ _ _
        rintro rfl
        exact hother.2 (List.mem_of_getElem? hi)
      · refine @settled_set _ _ _ s _ i .clear_entries ?_ (fun _ => nofun) ?_ hinv.once version hsound hi
        · rfl
        · rfl
      · intro other hmem
        rcases List.mem_or_eq_of_mem_set hmem with h | rfl
        · exact .inl h
        · exact .inr trivial
  | clear_entries =>
    cases hadvance
    refine hinv.frame (.set_task rfl (fun _ => nofun) rfl rfl fun _ _ => rfl) (.set_task rfl (fun _ => nofun) hinv.once) (.inl rfl)
      ?_ (fun _ _ h => nomatch h) hinv.keys
    intro other hmem
    rcases List.mem_or_eq_of_mem_set hmem with h | rfl
    · exact .inl h
    · exact .inr trivial
  | finished => cases hadvance

theorem append_set_version {tasks : List (AggTask Index Request Output)} {task : AggTask Index Request Output} {j version : Nat}
    (h : (tasks ++ [task])[j]? = some (.set_version version)) :
    tasks[j]? = some (.set_version version) ∨ j = tasks.length ∧ .set_version version = task := by
  by_cases hj : j < tasks.length
  · rw [List.getElem?_append_left hj] at h
    exact .inl h
  · rw [List.getElem?_append_right (Nat.le_of_not_lt hj), List.getElem?_singleton] at h
    split at h
    · exact .inr ⟨by omega, (Option.some.inj h).symm⟩
    · cases h

/-- A bump sets a version that no entry has. -/
theorem Inv.bump (hinv : s.Inv compute key) (hstep : s.step compute key .bump = some s') : s'.Inv compute key := by
  cases hstep
  have hnew : (.set_version (s.index_version + 1) : AggTask Index Request Output) ∉ s.tasks := fun hmem =>
    Nat.not_succ_le_self _ (hinv.tasks _ hmem)
  have hsettled : ∀ version, s.Settled version →
      version ≤ s.index_version + 1 ∧ .set_version version ∉ s.tasks ++ [.set_version (s.index_version + 1)] := by
    rintro version ⟨hle, hnot⟩
    refine ⟨Nat.le_succ_of_le hle, fun hmem => ?_⟩
    rcases List.mem_append.mp hmem with h | h
    · exact hnot h
    · cases List.mem_singleton.mp h
      exact Nat.not_succ_le_self _ hle
  refine hinv.frame ⟨hsettled, fun _ _ => rfl, fun _ h => h, Nat.le_succ _⟩ ?_ (.inl rfl) ?_ (fun _ _ h => .inl h) hinv.keys
  · intro a b version ha hb
    rcases append_set_version ha, append_set_version hb with ⟨ha | ⟨hlast, heq⟩, hb | ⟨hlast', heq'⟩⟩
    · exact hinv.once a b version ha hb
    · exact absurd (heq' ▸ List.mem_of_getElem? ha) hnew
    · exact absurd (heq ▸ List.mem_of_getElem? hb) hnew
    · rw [hlast, hlast']
  · intro task hmem
    rcases List.mem_append.mp hmem with h | h
    · exact .inl h
    · cases List.mem_singleton.mp h
      exact .inr (Nat.le_refl _)

/-- A careful request shares its key with no other one. -/
theorem Inv.request (hinv : s.Inv compute key) {request : Request} (hcareful : s.Careful key (.request request))
    (hstep : s.step compute key (.request request) = some s') : s'.Inv compute key := by
  cases hstep
  have hold : ∀ (j version : Nat), (s.tasks ++ [.get_version request s.contents])[j]? = some (.set_version version) →
      s.tasks[j]? = some (.set_version version) := fun j version hj =>
    (append_set_version hj).resolve_right fun h => nomatch h.2
  refine hinv.frame ⟨?_, fun _ _ => rfl, fun _ h => List.mem_cons_of_mem _ h, Nat.le_refl _⟩ ?_ (.inl rfl) ?_ (fun _ _ h => .inl h) ?_
  · rintro version ⟨hle, hnot⟩
    refine ⟨hle, fun hmem => hnot ?_⟩
    obtain ⟨j, hj⟩ := List.mem_iff_getElem?.mp hmem
    exact List.mem_of_getElem? (hold j version hj)
  · intro a b version ha hb
    exact hinv.once a b version (hold a version ha) (hold b version hb)
  · intro task hmem
    rcases List.mem_append.mp hmem with h | h
    · exact .inl h
    · cases List.mem_singleton.mp h
      exact .inr (List.mem_cons_self ..)
  · intro one hone other hother heq
    rcases List.mem_cons.mp hone, List.mem_cons.mp hother with ⟨rfl | hone', rfl | hother'⟩
    · rfl
    · exact (hcareful other hother' heq.symm).symm
    · exact hcareful one hone' heq
    · exact hinv.keys one hone' other hother' heq

/-- Every careful step keeps the cache right. -/
theorem Inv.step (hinv : s.Inv compute key) (hcareful : s.Careful key e) (hstep : s.step compute key e = some s') :
    s'.Inv compute key := by
  cases e with
  | clock now =>
    simp only [AggDaemon.step] at hstep
    split at hstep
    · cases hstep
      exact hinv.frame ⟨fun _ h => h, fun _ _ => rfl, fun _ h => h, Nat.le_refl _⟩ hinv.once (.inl rfl) (fun _ h => .inl h)
        (fun _ _ h => .inl h) hinv.keys
    · cases hstep
  | swap contents =>
    cases hstep
    exact hinv.frame ⟨fun _ h => h, fun _ _ => rfl, fun _ h => h, Nat.le_refl _⟩ hinv.once (.inl rfl) (fun _ h => .inl h)
      (fun _ _ h => .inl h) hinv.keys
  | bump => exact hinv.bump hstep
  | request request => exact hinv.request hcareful hstep
  | advance i =>
    obtain ⟨task, hi, hadvance⟩ := Option.bind_eq_some_iff.mp hstep
    exact hinv.advance hi hcareful hadvance

theorem Inv.start (contents : Index) (ttl : Nat) : (start contents ttl : AggDaemon Index Request Output).Inv compute key where
  once _ _ _ hi _ := nomatch hi
  current := ⟨Nat.le_refl 0, List.not_mem_nil⟩
  tasks _ hmem := nomatch hmem
  entries _ _ h := nomatch h
  keys _ hmem := nomatch hmem

/-- What is found under a key is the output of the only request with this key. -/
theorem Inv.served (hinv : s.Inv compute key) (e : AggEvent Index Request) : s.Served compute key e := by
  cases e with
  | advance i =>
    intro request snapshot version output hi hlookup
    obtain ⟨entry, hentry, rfl, rfl⟩ := AggregateCache.lookup_some hlookup
    obtain ⟨_, other, hmem, hkey, hout⟩ := hinv.entries _ entry hentry
    have hrequest : request ∈ s.requests := hinv.tasks _ (List.mem_of_getElem? hi)
    rw [← hinv.keys other hmem request hrequest hkey]
    exact hout
  | clock now => trivial
  | swap contents => trivial
  | bump => trivial
  | request request => trivial

/-- In every run of careful steps, what the cache serves for a version is the output on the contents of
the index when that version was set. -/
theorem careful_run_serves (contents : Index) (ttl : Nat) {events : List (AggEvent Index Request)}
    (hmeets : Meets (step compute key) (Careful key) (start contents ttl) events)
    (hrun : run_events (step compute key) (start contents ttl) events = some s) (e : AggEvent Index Request) :
    s.Served compute key e := by
  have hinv : s.Inv compute key :=
    run_invariant (fun _ _ _ hinv hok hstep => Inv.step hinv hok hstep) (Inv.start contents ttl) hmeets hrun
  exact hinv.served e

section runs

/-- The only request there is asks for the contents. -/
def ask (_ : Unit) (contents : Nat) : Option Nat := some contents

/-- A request goes all the way to its `put`; the next one has read the version. -/
def ask_twice : List (AggEvent Nat Unit) :=
  [.request (), .advance 0, .advance 0, .advance 0, .advance 0, .request (), .advance 1]

/-- The second of two requests is served what the first has put. -/
theorem careful_run_serves_hit : ∃ s, run_events (step ask fun _ => 0) (start 7 60) ask_twice = some s ∧
    s.tasks[1]? = some (.get_entry () 7 0) ∧ s.cache.lookup s.now 0 0 = some 7 ∧
    s.Served ask (fun _ => 0) (.advance 1) := by
  refine ⟨_, rfl, rfl, rfl, ?_⟩
  refine @careful_run_serves _ _ _ ask (fun _ => 0) _ 7 60 ask_twice ?_ rfl (.advance 1)
  refine .cons (fun _ hmem => nomatch hmem) rfl (.cons nofun rfl (.cons nofun rfl (.cons ?_ rfl (.cons nofun rfl ?_))))
  · intro request snapshot output h
    cases h
    rfl
  · exact .cons (fun _ _ _ => rfl) rfl (.cons nofun rfl trivial)

/-- A request scans the old contents and stores them under the version of the new ones. -/
def overtaken : List (AggEvent Nat Unit) :=
  [.request (), .advance 0, .advance 0, .swap 8, .bump, .advance 1, .advance 1, .advance 0, .advance 0, .request (), .advance 2]

/-- A put that comes after a bump serves the output of the old contents. -/
theorem stale_output_served : ∃ s, run_events (step ask fun _ => 0) (start 7 60) overtaken = some s ∧
    ¬ s.Served ask (fun _ => 0) (.advance 2) := by
  refine ⟨_, rfl, fun h => ?_⟩
  exact absurd (h () 8 1 7 rfl rfl) (by decide)

end runs

end AggDaemon

end machine

end uffs.daemon
