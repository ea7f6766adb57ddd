import Uffs.Aggregate.StatsFields
import Uffs.Daemon.DuplicateMembers

open uffs.lib uffs.mft uffs.text uffs.bloom uffs.compact uffs.aggregate

namespace uffs.daemon

/-! What the report of duplicates says of the files that are counted in its groups. -/

section gathering

variable {sample : UInt8}

/-- A group that some files were added to. -/
def group_of (sample : UInt8) (files : List Fed) : DuplicateGroupBuilder :=
  files.foldl (fun group fed => group.add sample fed) {}

/-- All files are counted, the first ones are kept as members. -/
theorem group_of_eq (sample : UInt8) (files : List Fed) :
    group_of sample files = { stats := size_stats files, members := (files.take sample.toNat).map slot } := by
  induction files using List.reverseRecOn with
  | nil =>
    rw [List.take_nil]
    rfl
  | append_singleton files e ih =>
    have hstats : size_stats (files ++ [e]) = (size_stats files).feed_value e.record.size e.record.allocated :=
      stats_of_append_singleton _ files e
    rw [group_of, List.foldl_append, ← group_of, ih, hstats, List.take_append, List.map_append]
    simp only [List.foldl_cons, List.foldl_nil, DuplicateGroupBuilder.add, List.length_map, List.length_take,
      DuplicateGroupBuilder.mk.injEq, true_and]
    by_cases hroom : files.length < sample.toNat
    · rw [if_pos (by omega), List.take_of_length_le (l := [e]) (by rw [List.length_singleton]; omega)]
      rfl
    · rw [if_neg (by omega), Nat.sub_eq_zero_of_le (by omega), List.take_zero, List.map_nil, List.append_nil]

end gathering

section candidates

/-- A group of candidates: its key and the files counted in it, each once. -/
structure CandidateGroup where
  key : CompositeKey
  files : ScannedRecords

namespace CandidateGroup

variable (sample : UInt8) (self : CandidateGroup)

def builder : DuplicateGroupBuilder := group_of sample self.files.fed

def entry : CompositeKey × DuplicateGroupBuilder := (self.key, self.builder sample)

theorem count_eq : (self.builder sample).stats.count.toNat = self.files.fed.length := by
  rw [builder, group_of_eq]
  exact (stats_of_count _ _).trans (Nat.mod_eq_of_lt self.files.few)

theorem members_eq : (self.builder sample).members = (self.files.fed.take sample.toNat).map slot := by
  rw [builder, group_of_eq]

theorem members_length : (self.builder sample).members.length = min sample.toNat self.files.fed.length := by
  rw [members_eq, List.length_map, List.length_take]

end CandidateGroup

end candidates

variable {group : DuplicateGroup} {budget after : VerificationBudget}

section comparison

variable (sha256 : List UInt8 → List UInt8) (reader : FileReader)

/-- What a verification reads of a file. -/
def read_by (mode : DuplicateVerify) (member : Member) : Option (List UInt8) :=
  match mode with
  | .None => none
  | .FirstBytes count => reader.read_first_bytes member count
  | .Sha256 => reader.read_all member

/-- What it compares: the bytes, or their hash. -/
def compared_by (mode : DuplicateVerify) : List UInt8 → List UInt8 :=
  match mode with
  | .Sha256 => sha256
  | _ => id

def content (mode : DuplicateVerify) (member : Member) : Option (List UInt8) :=
  (read_by reader mode member).map (compared_by sha256 mode)

/-- The files a verification reads before it says that a group matches. -/
def compared_members (mode : DuplicateVerify) (group : DuplicateGroup) : List Member :=
  match mode with
  | .None => []
  | _ => group.member_indices

variable {sha256 reader} {mode : DuplicateVerify}

theorem compared_members_eq (hmode : mode ≠ .None) (group : DuplicateGroup) : compared_members mode group = group.member_indices := by
  cases mode with
  | None => exact absurd rfl hmode
  | FirstBytes count => rfl
  | Sha256 => rfl

theorem verify_group_eq (hmode : mode ≠ .None) (budget : VerificationBudget) (group : DuplicateGroup) :
    verify_group sha256 reader mode budget group = verify_members (read_by reader mode) (compared_by sha256 mode)
      (per_file_estimate mode group) budget none group.member_indices := by
  cases mode with
  | None => exact absurd rfl hmode
  | FirstBytes count => rfl
  | Sha256 => rfl

section members

variable {read : Member → Option (List UInt8)} {digest : List UInt8 → List UInt8} {read_estimate : UInt64}

theorem verify_members_some {first : List UInt8} {members : List Member}
    (h : verify_members read digest read_estimate budget (some first) members = (.Match, after)) :
    ∀ member ∈ members, (read member).map digest = some first := by
  induction members generalizing budget with
  | nil => exact fun member hmember => absurd hmember List.not_mem_nil
  | cons head rest ih =>
    rw [verify_members] at h
    split at h
    · cases h
    cases hread : read head with
    | none =>
      rw [hread] at h
      cases h
    | some bytes =>
      simp only [hread] at h
      split at h
      · cases h
      · next hsame =>
        intro member hmember
        rcases List.mem_cons.mp hmember with rfl | hmember
        · rw [hread, Option.map_some, show digest bytes = first by simpa using hsame]
        · exact ih h member hmember

/-- All members of a group that matches have one content. -/
theorem verify_members_none {members : List Member}
    (h : verify_members read digest read_estimate budget none members = (.Match, after)) :
    ∃ first, ∀ member ∈ members, (read member).map digest = some first := by
  cases members with
  | nil => exact ⟨[], fun member hmember => absurd hmember List.not_mem_nil⟩
  | cons head rest =>
    rw [verify_members] at h
    split at h
    · cases h
    cases hread : read head with
    | none =>
      rw [hread] at h
      cases h
    | some bytes =>
      simp only [hread] at h
      refine ⟨digest bytes, fun member hmember => ?_⟩
      rcases List.mem_cons.mp hmember with rfl | hmember
      · rw [hread, Option.map_some]
      · exact verify_members_some h member hmember

end members

theorem match_content (hmode : mode ≠ .None) (h : verify_group sha256 reader mode budget group = (.Match, after)) :
    ∃ first, ∀ member ∈ group.member_indices, content sha256 reader mode member = some first := by
  rw [verify_group_eq hmode] at h
  exact verify_members_none h

/-- The group is one of these, verified: its members, at least two, have one content. -/
def MatchedIn (sha256 : List UInt8 → List UInt8) (reader : FileReader) (mode : DuplicateVerify) (groups : List DuplicateGroup)
    (group : DuplicateGroup) : Prop :=
  ∃ before ∈ groups, group = { before with verified := true } ∧ 2 ≤ before.member_indices.length ∧
    ∃ first, ∀ member ∈ before.member_indices, content sha256 reader mode member = some first

theorem matched_of_verified (hmode : mode ≠ .None) {groups : List DuplicateGroup}
    (hbefore : ∀ group ∈ groups, group.verified = false)
    (hgroup : group ∈ verify_groups sha256 reader mode budget groups) (hverified : group.verified = true) :
    MatchedIn sha256 reader mode groups group := by
  induction groups generalizing budget with
  | nil => exact absurd hgroup List.not_mem_nil
  | cons head rest ih =>
    have hrest : ∀ group ∈ rest, group.verified = false := fun later hlater => hbefore later (List.mem_cons_of_mem _ hlater)
    have hlater : ∀ after, group ∈ verify_groups sha256 reader mode after rest →
        MatchedIn sha256 reader mode (head :: rest) group := by
      intro after hmem
      obtain ⟨before, hmem, found⟩ := ih hrest hmem
      exact ⟨before, List.mem_cons_of_mem _ hmem, found⟩
    have hkept : ∀ after, group ∈ head :: verify_groups sha256 reader mode after rest →
        MatchedIn sha256 reader mode (head :: rest) group := by
      intro after hmem
      rcases List.mem_cons.mp hmem with rfl | hmem
      · exact absurd (hbefore group List.mem_cons_self) (by rw [hverified]; exact Bool.noConfusion)
      · exact hlater after hmem
    simp only [verify_groups] at hgroup
    split at hgroup
    · exact hlater _ hgroup
    · next hmany =>
      split at hgroup
      · exact hkept _ hgroup
      · split at hgroup
        · next hmatch =>
          rcases List.mem_cons.mp hgroup with rfl | hmem
          · exact ⟨head, List.mem_cons_self, rfl, not_lt.mp hmany, match_content hmode hmatch⟩
          · exact hlater _ hmem
        · exact hlater _ hgroup
        · exact hkept _ hgroup

/-- A reader of empty files, without any limit. -/
def empty_files : FileReader where
  read_first_bytes _ _ := some []
  read_all _ := some []

def unlimited : VerificationBudget := ⟨0, 0, 0, 0⟩

theorem can_read_unlimited (hbytes : budget.max_bytes = 0) (hfiles : budget.max_files = 0) (bytes : UInt64) :
    budget.can_read bytes = true := by
  simp [VerificationBudget.can_read, hbytes, hfiles]

theorem verify_members_empty (digest : List UInt8 → List UInt8) (read_estimate : UInt64) (budget : VerificationBudget)
    (hbytes : budget.max_bytes = 0) (hfiles : budget.max_files = 0) (reference : Option (List UInt8))
    (hreference : ∀ first, reference = some first → first = digest []) (members : List Member) :
    ∃ after, verify_members (fun _ => some []) digest read_estimate budget reference members = (.Match, after) ∧
      after.max_bytes = 0 ∧ after.max_files = 0 := by
  induction members generalizing budget reference with
  | nil => exact ⟨budget, rfl, hbytes, hfiles⟩
  | cons head rest ih =>
    simp only [verify_members, can_read_unlimited hbytes hfiles, Bool.not_true, Bool.false_eq_true, if_false]
    have hrest := ih (budget.record_read 0) hbytes hfiles (some (digest [])) fun first hfirst => (Option.some.inj hfirst).symm
    cases reference with
    | none => exact hrest
    | some first =>
      obtain rfl := hreference first rfl
      simp only [bne_self_eq_false, Bool.false_eq_true, if_false]
      exact hrest

/-- Where nothing is in its way, a verification confirms every group that has two members. -/
theorem verify_groups_empty (hmode : mode ≠ .None) (hbytes : budget.max_bytes = 0) (hfiles : budget.max_files = 0)
    {groups : List DuplicateGroup} (hgroup : group ∈ groups) (htwo : 2 ≤ group.member_indices.length) :
    { group with verified := true } ∈ verify_groups sha256 empty_files mode budget groups := by
  induction groups generalizing budget with
  | nil => exact absurd hgroup List.not_mem_nil
  | cons head rest ih =>
    have hread : read_by empty_files mode = fun _ => some [] := by
      cases mode with
      | None => exact absurd rfl hmode
      | FirstBytes count => rfl
      | Sha256 => rfl
    have hexhausted : budget.exhausted = false := by simp [VerificationBudget.exhausted, hbytes, hfiles]
    obtain ⟨after, hmatch, hafter⟩ := verify_members_empty (compared_by sha256 mode) (per_file_estimate mode head) budget hbytes
      hfiles none (by intro first hfirst; cases hfirst) head.member_indices
    rw [← hread, ← verify_group_eq hmode] at hmatch
    simp only [verify_groups]
    split
    · next hfew =>
      rcases List.mem_cons.mp hgroup with rfl | hgroup
      · exact absurd hfew (not_lt.mpr htwo)
      · exact ih hbytes hfiles hgroup
    · rw [if_neg (by simp [hexhausted, can_read_unlimited hbytes hfiles]), hmatch]
      rcases List.mem_cons.mp hgroup with rfl | hgroup
      · exact List.mem_cons_self
      · exact List.mem_cons_of_mem _ (ih hafter.1 hafter.2 hgroup)

end comparison

/-- The groups are finalized, cut to the first `top`, and verified. -/
def report (walk : WalkOrder) (top : Nat) (sample : UInt8) (mode : DuplicateVerify) (sha256 : List UInt8 → List UInt8)
    (reader : FileReader) (budget : VerificationBudget) (candidates : List CandidateGroup) : DuplicateResult :=
  verify sha256 reader mode budget (DuplicateAccumulator.finalize walk mode (candidates.map (·.entry sample)) top)

section verified

variable {walk : WalkOrder} {top : Nat} {sample : UInt8} {mode : DuplicateVerify} {candidates : List CandidateGroup}

theorem verify_groups_of_mode (hmode : mode ≠ .None) (sha256 : List UInt8 → List UInt8) (reader : FileReader)
    (budget : VerificationBudget) (result : DuplicateResult) :
    (verify sha256 reader mode budget result).groups = verify_groups sha256 reader mode budget result.groups := by
  cases mode with
  | None => exact absurd rfl hmode
  | FirstBytes count => rfl
  | Sha256 => rfl

theorem mem_duplicate_groups :
    group ∈ duplicate_groups walk mode (candidates.map (·.entry sample)) ↔
      ∃ candidate ∈ candidates, 2 ≤ candidate.files.fed.length ∧ group = .of_builder mode (candidate.builder sample) := by
  have hcount : ∀ candidate : CandidateGroup,
      1 < (candidate.entry sample).2.stats.count ↔ 2 ≤ candidate.files.fed.length := by
    intro candidate
    rw [UInt64.lt_iff_toNat_lt]
    exact (candidate.count_eq sample) ▸ Iff.rfl
  rw [duplicate_groups, mem_sort_by_desc]
  constructor
  · intro h
    obtain ⟨entry, hentry, rfl⟩ := List.mem_map.mp h
    obtain ⟨hmem, hmany⟩ := List.mem_filter.mp hentry
    obtain ⟨candidate, hcandidate, rfl⟩ := List.mem_map.mp (walk.mem_visit.mp hmem)
    exact ⟨candidate, hcandidate, (hcount candidate).mp (of_decide_eq_true hmany), rfl⟩
  · rintro ⟨candidate, hcandidate, hmany, rfl⟩
    refine List.mem_map.mpr ⟨candidate.entry sample, List.mem_filter.mpr ⟨?_, ?_⟩, rfl⟩
    · exact walk.mem_visit.mpr (List.mem_map_of_mem hcandidate)
    · exact decide_eq_true ((hcount candidate).mpr hmany)

/-- The group of the report counts the files of the candidates and has their first ones as members. -/
def CandidateGroup.ReportedAs (sample : UInt8) (self : CandidateGroup) (group : DuplicateGroup) : Prop :=
  group.member_indices = (self.builder sample).members ∧ group.count = (self.builder sample).stats.count

/-- All files counted were compared and found equal. -/
structure CandidateGroup.Compared (sha256 : List UInt8 → List UInt8) (reader : FileReader) (mode : DuplicateVerify)
    (candidate : CandidateGroup) (group : DuplicateGroup) : Prop where
  read : ∀ e ∈ candidate.files.fed, slot e ∈ compared_members mode group
  equal : ∃ first, ∀ e ∈ candidate.files.fed, content sha256 reader mode (slot e) = some first

/-- More files than members: one of them is no member. -/
theorem length_le_of_members {candidate : CandidateGroup}
    (h : ∀ e ∈ candidate.files.fed, slot e ∈ (candidate.builder sample).members) :
    candidate.files.fed.length ≤ sample.toNat := by
  have hsub : candidate.files.fed.map slot ⊆ (candidate.builder sample).members := by
    intro member hmember
    obtain ⟨e, he, rfl⟩ := List.mem_map.mp hmember
    exact h e he
  have hle := (List.subperm_of_subset candidate.files.slots hsub).length_le
  rw [List.length_map, candidate.members_length] at hle
  omega

theorem of_reported
    (hgroup : group ∈ duplicate_groups walk mode (candidates.map (·.entry sample))) {candidate : CandidateGroup}
    (hcount : group.count = (candidate.builder sample).stats.count) : 2 ≤ candidate.files.fed.length := by
  obtain ⟨other, -, hmany, rfl⟩ := mem_duplicate_groups.mp hgroup
  rwa [← candidate.count_eq sample, ← hcount, show (DuplicateGroup.of_builder mode (other.builder sample)).count =
    (other.builder sample).stats.count from rfl, other.count_eq]

end verified

/-- A verified group is really verified, whatever the files and the limits are, exactly when there is a verification and
every group is dropped or has no more files than members are kept. -/
theorem verified_compared_iff (sample : UInt8) (mode : DuplicateVerify) (candidates : List CandidateGroup) :
    (∀ (walk : WalkOrder) (top : Nat) (sha256 : List UInt8 → List UInt8) (reader : FileReader) (budget : VerificationBudget),
      ∀ candidate ∈ candidates, ∀ group ∈ (report walk top sample mode sha256 reader budget candidates).groups,
        candidate.ReportedAs sample group → group.verified = true → candidate.Compared sha256 reader mode group) ↔
      ∀ candidate ∈ candidates, 2 ≤ candidate.files.fed.length →
        mode ≠ .None ∧ (sample.toNat < 2 ∨ candidate.files.fed.length ≤ sample.toNat) := by
  constructor
  · intro h candidate hcandidate hmany
    let found := DuplicateAccumulator.finalize .forward mode (candidates.map (·.entry sample))
      (duplicate_groups .forward mode (candidates.map (·.entry sample))).length
    have hfound : DuplicateGroup.of_builder mode (candidate.builder sample) ∈ found.groups := by
      rw [show found.groups = _ from List.take_length]
      exact mem_duplicate_groups.mpr ⟨candidate, hcandidate, hmany, rfl⟩
    obtain ⟨e, he⟩ := List.exists_mem_of_length_pos (Nat.zero_lt_of_lt hmany)
    by_cases hmode : mode = .None
    · subst hmode
      have hread := (h .forward _ id empty_files unlimited candidate hcandidate _ hfound ⟨rfl, rfl⟩ rfl).read e he
      exact absurd hread List.not_mem_nil
    · refine ⟨hmode, ?_⟩
      by_cases hfew : sample.toNat < 2
      · exact .inl hfew
      · right
        have htwo : 2 ≤ (DuplicateGroup.of_builder mode (candidate.builder sample)).member_indices.length := by
          rw [show (DuplicateGroup.of_builder mode (candidate.builder sample)).member_indices =
            (candidate.builder sample).members from rfl, candidate.members_length]
          omega
        have hverified : { DuplicateGroup.of_builder mode (candidate.builder sample) with verified := true } ∈
            verify_groups id empty_files mode unlimited found.groups := verify_groups_empty hmode rfl rfl hfound htwo
        rw [← verify_groups_of_mode hmode] at hverified
        have hread := (h .forward _ id empty_files unlimited candidate hcandidate _ hverified ⟨rfl, rfl⟩ rfl).read
        rw [compared_members_eq hmode] at hread
        exact length_le_of_members hread
  · intro h walk top sha256 reader budget candidate hcandidate group hgroup hreported hverified
    by_cases hmode : mode = .None
    · subst hmode
      exact absurd rfl (h candidate hcandidate (of_reported (List.mem_of_mem_take hgroup) hreported.2)).1
    · rw [report, verify_groups_of_mode hmode] at hgroup
      have hbefore : ∀ group ∈ (DuplicateAccumulator.finalize walk mode (candidates.map (·.entry sample)) top).groups,
          group.verified = false := by
        intro group hgroup
        obtain ⟨other, -, -, rfl⟩ := mem_duplicate_groups.mp (List.mem_of_mem_take hgroup)
        exact beq_eq_false_iff_ne.mpr hmode
      obtain ⟨before, hmem, rfl, htwo, first, hequal⟩ := matched_of_verified hmode hbefore hgroup hverified
      obtain ⟨hmembers, hcount⟩ := hreported
      have hmany := of_reported (List.mem_of_mem_take hmem) hcount
      rw [show before.member_indices = _ from hmembers] at htwo hequal
      rw [candidate.members_length] at htwo
      have hfits : candidate.files.fed.length ≤ sample.toNat := (h candidate hcandidate hmany).2.resolve_left (by omega)
      rw [candidate.members_eq, List.take_of_length_le hfits] at hequal
      constructor
      · intro e he
        rw [compared_members_eq hmode]
        show slot e ∈ before.member_indices
        rw [show before.member_indices = _ from hmembers, candidate.members_eq, List.take_of_length_le hfits]
        exact List.mem_map_of_mem he
      · exact ⟨first, fun e he => hequal (slot e) (List.mem_map_of_mem he)⟩

section three_files

/-- A file of five bytes in a slot of C:. -/
def small_file (idx : Nat) : Fed where
  record := { size := 5, name_len := 1, parent_idx := NO_ENTRY, path_len := 4 }
  drive := one_file_drive 'C' 0x61
  idx := idx
  drive_ordinal := 0

theorem small_files_slots : ([small_file 0, small_file 1, small_file 2].map slot).Nodup := by decide

def three_files : CandidateGroup where
  key := ⟨[5], 0⟩
  files := ⟨[small_file 0, small_file 1, small_file 2], small_files_slots, by decide⟩

/-- The file in slot 2 has another content. -/
def odd_file_out : FileReader where
  read_first_bytes member _ := some (if member.1 = 2 then [1] else [0])
  read_all member := some (if member.1 = 2 then [1] else [0])

/-- Two members of three files are compared, and the group of three is shown as verified. -/
theorem verified_not_compared :
    ¬ ∀ (sample : UInt8) (mode : DuplicateVerify) (candidates : List CandidateGroup) (walk : WalkOrder) (top : Nat)
      (sha256 : List UInt8 → List UInt8) (reader : FileReader) (budget : VerificationBudget),
      ∀ candidate ∈ candidates, ∀ group ∈ (report walk top sample mode sha256 reader budget candidates).groups,
        candidate.ReportedAs sample group → group.verified = true → candidate.Compared sha256 reader mode group := by
  intro hclaim
  have hreport : (report .forward 100 2 .Sha256 id odd_file_out unlimited [three_files]).groups =
      [{ DuplicateGroup.of_builder .Sha256 (three_files.builder 2) with verified := true }] := by decide
  obtain ⟨first, hequal⟩ := (hclaim 2 .Sha256 [three_files] .forward 100 id odd_file_out unlimited three_files
    List.mem_cons_self _ (hreport ▸ List.mem_cons_self) ⟨rfl, rfl⟩ rfl).equal
  have hzero : [0] = first := Option.some.inj (hequal (small_file 0) List.mem_cons_self)
  have hone : [1] = first := Option.some.inj
    (hequal (small_file 2) (List.mem_cons_of_mem _ (List.mem_cons_of_mem _ List.mem_cons_self)))
  exact absurd (hzero.trans hone.symm) (by decide)

end three_files

section totals

theorem sum_u64_toNat (values : List UInt64) : (sum_u64 values).toNat = (values.map UInt64.toNat).sum % 2 ^ 64 := by
  induction values using List.reverseRecOn with
  | nil => rfl
  | append_singleton values value ih =>
    rw [sum_u64, List.foldl_append, ← sum_u64, List.foldl_cons, List.foldl_nil, UInt64.toNat_add, ih, List.map_append,
      List.sum_append, List.map_singleton, List.sum_singleton]
    exact Nat.mod_add_mod _ _ _

theorem sum_u64_of_lt {values : List UInt64} (h : (values.map UInt64.toNat).sum < 2 ^ 64) :
    (sum_u64 values).toNat = (values.map UInt64.toNat).sum := (sum_u64_toNat values).trans (Nat.mod_eq_of_lt h)

theorem reclaimable_le_bytes (total_bytes count : UInt64) : (reclaimable total_bytes count).toNat ≤ total_bytes.toNat := by
  rw [reclaimable]
  split
  · exact Nat.zero_le _
  · next hle =>
    rw [UInt64.toNat_sub_of_le _ _ (UInt64.not_lt.mp hle)]
    exact Nat.sub_le _ _

/-- The totals taken anew after a verification. -/
def recount (mode : DuplicateVerify) (groups : List DuplicateGroup) : DuplicateResult where
  candidate_groups := groups.length
  candidate_files := sum_u64 (groups.map (·.member_indices.length.toUInt64))
  total_duplicate_bytes := sum_u64 (groups.map (·.total_bytes))
  total_reclaimable_bytes := sum_u64 (groups.map fun group => reclaimable group.total_bytes group.count)
  groups := groups
  verification_mode := mode

variable {mode : DuplicateVerify} {sha256 : List UInt8 → List UInt8} {reader : FileReader}

theorem verify_eq_recount (hmode : mode ≠ .None) (budget : VerificationBudget) (result : DuplicateResult) :
    verify sha256 reader mode budget result = recount mode (verify_groups sha256 reader mode budget result.groups) := by
  cases mode with
  | None => exact absurd rfl hmode
  | FirstBytes count => rfl
  | Sha256 => rfl

def paired (group : DuplicateGroup) : Bool := decide (2 ≤ group.member_indices.length)

/-- A verification drops groups, those without two members among them, and marks others; their numbers stay. -/
theorem verify_groups_sublist {α : Type} {f : DuplicateGroup → α} (hf : ∀ group, f { group with verified := true } = f group)
    (budget : VerificationBudget) (groups : List DuplicateGroup) :
    ((verify_groups sha256 reader mode budget groups).map f).Sublist ((groups.filter paired).map f) := by
  induction groups generalizing budget with
  | nil => exact List.Sublist.refl _
  | cons head rest ih =>
    simp only [verify_groups]
    by_cases hfew : head.member_indices.length < 2
    · have hdrop : (head :: rest).filter paired = rest.filter paired :=
        List.filter_cons_of_neg (by simpa [paired] using hfew)
      rw [if_pos hfew, hdrop]
      exact ih _
    · have hkeep : (head :: rest).filter paired = head :: rest.filter paired :=
        List.filter_cons_of_pos (decide_eq_true (not_lt.mp hfew))
      rw [if_neg hfew, hkeep]
      split
      · exact (ih _).cons_cons _
      split
      · rw [List.map_cons, List.map_cons, hf]
        exact (ih _).cons_cons _
      · exact (ih _).cons _
      · exact (ih _).cons_cons _

/-- No group is verified or dropped by its files where no file can be read. -/
def no_files : FileReader where
  read_first_bytes _ _ := none
  read_all _ := none

theorem verify_groups_no_files (hmode : mode ≠ .None) (groups : List DuplicateGroup) :
    verify_groups sha256 no_files mode unlimited groups = groups.filter paired := by
  induction groups with
  | nil => rfl
  | cons head rest ih =>
    simp only [verify_groups]
    by_cases hfew : head.member_indices.length < 2
    · have hdrop : (head :: rest).filter paired = rest.filter paired :=
        List.filter_cons_of_neg (by simpa [paired] using hfew)
      rw [if_pos hfew, ih, hdrop]
    · have hkeep : (head :: rest).filter paired = head :: rest.filter paired :=
        List.filter_cons_of_pos (decide_eq_true (not_lt.mp hfew))
      have hread : read_by no_files mode = fun _ => none := by
        cases mode with
        | None => exact absurd rfl hmode
        | FirstBytes count => rfl
        | Sha256 => rfl
      rw [if_neg hfew, hkeep]
      split
      · rw [ih]
      · have herror : verify_group sha256 no_files mode unlimited head = (.IoError, unlimited) := by
          rw [verify_group_eq hmode, hread]
          cases hmembers : head.member_indices with
          | nil =>
            rw [hmembers] at hfew
            exact absurd (Nat.zero_lt_two) hfew
          | cons member members =>
            rw [verify_members]
            split <;> rfl
        rw [herror, ← ih]

/-- The totals of a report, beside all groups it had before it was cut and verified. -/
structure Consistent (mode : DuplicateVerify) (all : List DuplicateGroup) (found final : DuplicateResult) : Prop where
  bounded : final.total_reclaimable_bytes ≤ final.total_duplicate_bytes
  files : found.candidate_files.toNat = (all.map (·.count.toNat)).sum
  bytes : found.total_duplicate_bytes.toNat = (all.map (·.total_bytes.toNat)).sum
  reclaimable : found.total_reclaimable_bytes.toNat = (all.map (·.reclaimable_bytes.toNat)).sum
  surviving : mode ≠ .None → final.candidate_files.toNat = (final.groups.map (·.count.toNat)).sum

/-- Files and bytes are counted in 64 bits, no group that has bytes is cut off, and where there is a verification each
group with two members has all its files as members. -/
structure TotalsFit (top : Nat) (mode : DuplicateVerify) (all : List DuplicateGroup) : Prop where
  files : (all.map (·.count.toNat)).sum < 2 ^ 64
  bytes : (all.map (·.total_bytes.toNat)).sum < 2 ^ 64
  shown : ∀ group ∈ all.drop top, group.total_bytes = 0
  sampled : mode ≠ .None → ∀ group ∈ all.take top, 2 ≤ group.member_indices.length →
    group.member_indices.length = group.count.toNat

theorem sum_le_of_sublist {α : Type} {f : α → Nat} {part all : List α} (h : (part.map f).Sublist (all.map f)) :
    (part.map f).sum ≤ (all.map f).sum := h.sum_le_sum fun _ _ => Nat.zero_le _

theorem sum_take_drop {α : Type} (f : α → Nat) (n : Nat) (l : List α) :
    (l.map f).sum = ((l.take n).map f).sum + ((l.drop n).map f).sum := by
  rw [← List.sum_append, ← List.map_append, List.take_append_drop]

theorem sum_u64_map {α : Type} {f : α → UInt64} {l : List α} (h : (l.map fun x => (f x).toNat).sum < 2 ^ 64) :
    (sum_u64 (l.map f)).toNat = (l.map fun x => (f x).toNat).sum := by
  have hmap : (l.map f).map UInt64.toNat = l.map fun x => (f x).toNat := List.map_map
  rw [sum_u64_of_lt (by rwa [hmap]), hmap]

theorem reclaimable_le {α : Type} {l : List α} {total part : α → UInt64} (hle : ∀ x ∈ l, (part x).toNat ≤ (total x).toNat)
    (h : (l.map fun x => (total x).toNat).sum < 2 ^ 64) : sum_u64 (l.map part) ≤ sum_u64 (l.map total) := by
  have hsum : (l.map fun x => (part x).toNat).sum ≤ (l.map fun x => (total x).toNat).sum := List.sum_le_sum hle
  rw [UInt64.le_iff_toNat_le, sum_u64_map h, sum_u64_map (hsum.trans_lt h)]
  exact hsum

end totals

section consistency

variable {walk : WalkOrder} {top : Nat} {sample : UInt8} {mode : DuplicateVerify} {candidates : List CandidateGroup}

theorem members_le_count (h : group ∈ duplicate_groups walk mode (candidates.map (·.entry sample))) :
    group.member_indices.length ≤ group.count.toNat := by
  obtain ⟨candidate, -, -, rfl⟩ := mem_duplicate_groups.mp h
  show (candidate.builder sample).members.length ≤ (candidate.builder sample).stats.count.toNat
  rw [candidate.members_length, candidate.count_eq]
  exact min_le_right _ _

theorem reclaimable_le_total (h : group ∈ duplicate_groups walk mode (candidates.map (·.entry sample))) :
    group.reclaimable_bytes.toNat ≤ group.total_bytes.toNat := by
  obtain ⟨candidate, -, -, rfl⟩ := mem_duplicate_groups.mp h
  exact reclaimable_le_bytes _ _

variable {all : List DuplicateGroup}

theorem Consistent.fits (hall : all = duplicate_groups walk mode (candidates.map (·.entry sample)))
    (h : Consistent mode all (DuplicateAccumulator.finalize walk mode (candidates.map (·.entry sample)) top)
      (report walk top sample mode id no_files unlimited candidates)) : TotalsFit top mode all := by
  have hfiles : (all.map (·.count.toNat)).sum < 2 ^ 64 := h.files ▸ UInt64.toNat_lt _
  have hbytes : (all.map (·.total_bytes.toNat)).sum < 2 ^ 64 := h.bytes ▸ UInt64.toNat_lt _
  have hsplit := sum_take_drop (·.total_bytes.toNat) top all
  refine ⟨hfiles, hbytes, fun group hgroup => ?_, fun hmode group hgroup htwo => ?_⟩
  · have hshown := h.bytes
    rw [DuplicateAccumulator.finalize, ← hall, sum_u64_map (by omega), hsplit] at hshown
    have hzero : ((all.drop top).map (·.total_bytes.toNat)).sum = 0 := by omega
    have hgroup_zero := List.sum_eq_zero_iff_forall_eq_nat.mp hzero _ (List.mem_map_of_mem hgroup)
    exact UInt64.toNat_inj.mp hgroup_zero
  · have hsurvive := h.surviving hmode
    rw [report, verify_eq_recount hmode, DuplicateAccumulator.finalize, ← hall, verify_groups_no_files hmode] at hsurvive
    have hmem : ∀ g ∈ (all.take top).filter paired, g ∈ all := fun g hg => List.mem_of_mem_take (List.mem_filter.mp hg).1
    have hle : ∀ g ∈ (all.take top).filter paired, g.member_indices.length ≤ g.count.toNat :=
      fun g hg => members_le_count (hall ▸ hmem g hg)
    have hlength : (((all.take top).filter paired).map fun g => g.member_indices.length.toUInt64.toNat) =
        ((all.take top).filter paired).map (·.member_indices.length) :=
      List.map_congr_left fun g hg => Nat.mod_eq_of_lt ((hle g hg).trans_lt g.count.toNat_lt)
    have hcounts : (((all.take top).filter paired).map (·.count.toNat)).sum ≤ (all.map (·.count.toNat)).sum :=
      sum_le_of_sublist ((List.filter_sublist.trans (List.take_sublist _ _)).map _)
    have hsum := List.sum_le_sum hle
    rw [recount, sum_u64_map (by rw [hlength]; omega), hlength] at hsurvive
    by_contra hne
    have hin : group ∈ (all.take top).filter paired := List.mem_filter.mpr ⟨hgroup, decide_eq_true htwo⟩
    have hlt := List.sum_lt_sum _ _ hle ⟨group, hin, lt_of_le_of_ne (hle group hin) hne⟩
    exact absurd hsurvive hlt.ne

theorem TotalsFit.shown_sum (h : TotalsFit top mode all) :
    ((all.take top).map (·.total_bytes.toNat)).sum = (all.map (·.total_bytes.toNat)).sum := by
  have hsplit := sum_take_drop (·.total_bytes.toNat) top all
  have hzero : ((all.drop top).map (·.total_bytes.toNat)).sum = 0 := by
    refine List.sum_eq_zero_iff_forall_eq_nat.mpr fun n hn => ?_
    obtain ⟨group, hgroup, rfl⟩ := List.mem_map.mp hn
    rw [h.shown group hgroup]
    rfl
  omega

theorem TotalsFit.consistent (hall : all = duplicate_groups walk mode (candidates.map (·.entry sample)))
    (h : TotalsFit top mode all) (sha256 : List UInt8 → List UInt8) (reader : FileReader) (budget : VerificationBudget) :
    Consistent mode all (DuplicateAccumulator.finalize walk mode (candidates.map (·.entry sample)) top)
      (report walk top sample mode sha256 reader budget candidates) := by
  have hshown := h.shown_sum
  have hbytes := h.bytes
  have htotal : (sum_u64 ((all.take top).map (·.total_bytes))).toNat = (all.map (·.total_bytes.toNat)).sum :=
    (sum_u64_map (by omega)).trans hshown
  have hpart : ∀ group ∈ all, group.reclaimable_bytes.toNat ≤ group.total_bytes.toNat :=
    fun group hgroup => reclaimable_le_total (hall ▸ hgroup)
  have hreclaimable : (sum_u64 (all.map (·.reclaimable_bytes))).toNat = (all.map (·.reclaimable_bytes.toNat)).sum :=
    sum_u64_map ((List.sum_le_sum hpart).trans_lt hbytes)
  have hsub : ∀ {f : DuplicateGroup → Nat}, (∀ group, f { group with verified := true } = f group) →
      ((verify_groups sha256 reader mode budget (all.take top)).map f).sum ≤ ((all.take top).map f).sum := fun hf =>
    sum_le_of_sublist ((verify_groups_sublist hf budget _).trans (List.filter_sublist.map _))
  constructor
  · by_cases hmode : mode = .None
    · subst hmode
      show sum_u64 _ ≤ sum_u64 _
      rw [← hall, UInt64.le_iff_toNat_le, htotal, hreclaimable]
      exact List.sum_le_sum hpart
    · rw [report, verify_eq_recount hmode, DuplicateAccumulator.finalize, ← hall]
      exact reclaimable_le (fun group _ => reclaimable_le_bytes _ _) ((hsub fun _ => rfl).trans_lt (by omega))
  · rw [DuplicateAccumulator.finalize, ← hall]
    exact sum_u64_map h.files
  · rw [DuplicateAccumulator.finalize, ← hall]
    exact htotal
  · rw [DuplicateAccumulator.finalize, ← hall]
    exact hreclaimable
  · intro hmode
    rw [report, verify_eq_recount hmode, DuplicateAccumulator.finalize, ← hall]
    have hkept : ∀ group ∈ verify_groups sha256 reader mode budget (all.take top),
        group.member_indices.length = group.count.toNat := by
      intro group hgroup
      have hmem := (verify_groups_sublist (f := fun g => (g.member_indices.length, g.count.toNat)) (fun _ => rfl) budget
        (all.take top)).subset (List.mem_map_of_mem hgroup)
      obtain ⟨before, hbefore, heq⟩ := List.mem_map.mp hmem
      obtain ⟨htop, htwo⟩ := List.mem_filter.mp hbefore
      have hsampled := h.sampled hmode before htop (of_decide_eq_true htwo)
      obtain ⟨hlen, hcount⟩ := Prod.mk.inj heq
      rw [← hlen, ← hcount, hsampled]
    have hlength : ((verify_groups sha256 reader mode budget (all.take top)).map
        fun g => g.member_indices.length.toUInt64.toNat) =
        (verify_groups sha256 reader mode budget (all.take top)).map (·.count.toNat) := by
      refine List.map_congr_left fun group hgroup => ?_
      rw [hkept group hgroup]
      exact Nat.mod_eq_of_lt group.count.toNat_lt
    have hcounts := (hsub (f := (·.count.toNat)) fun _ => rfl).trans (sum_le_of_sublist ((List.take_sublist top all).map _))
    show (sum_u64 _).toNat = _
    rw [sum_u64_map (by rw [hlength]; exact hcounts.trans_lt h.files), hlength]
    rfl

end consistency

/-- The totals of every report are consistent, whatever the files are, exactly when they fit: no sum
wraps, the groups beyond those shown have no bytes, and no group that is verified is a sample. -/
theorem totals_consistent_iff (walk : WalkOrder) (top : Nat) (sample : UInt8) (mode : DuplicateVerify)
    (candidates : List CandidateGroup) :
    (∀ (sha256 : List UInt8 → List UInt8) (reader : FileReader) (budget : VerificationBudget),
      Consistent mode (duplicate_groups walk mode (candidates.map (·.entry sample)))
        (DuplicateAccumulator.finalize walk mode (candidates.map (·.entry sample)) top)
        (report walk top sample mode sha256 reader budget candidates)) ↔
      TotalsFit top mode (duplicate_groups walk mode (candidates.map (·.entry sample))) :=
  ⟨fun h => (h id no_files unlimited).fits rfl, fun h sha256 reader budget => h.consistent rfl sha256 reader budget⟩

/-- Three files, two of them read: the report counts two files in a group of three. -/
theorem totals_inconsistent :
    ¬ ∀ (walk : WalkOrder) (top : Nat) (sample : UInt8) (mode : DuplicateVerify) (candidates : List CandidateGroup)
      (sha256 : List UInt8 → List UInt8) (reader : FileReader) (budget : VerificationBudget),
      Consistent mode (duplicate_groups walk mode (candidates.map (·.entry sample)))
        (DuplicateAccumulator.finalize walk mode (candidates.map (·.entry sample)) top)
        (report walk top sample mode sha256 reader budget candidates) := by
  intro hclaim
  have hsurviving := (hclaim .forward 100 2 .Sha256 [three_files] id empty_files unlimited).surviving (by decide)
  exact absurd hsurviving (by decide)

end uffs.daemon
