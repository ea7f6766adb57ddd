import Mathlib.Data.List.AList
import Uffs.Lib.Csr
import Uffs.Lib.Postings
import Uffs.Text.CaseFold
import Uffs.Compact.Record

open uffs.lib uffs.mft uffs.text uffs.compact

namespace uffs.trigram

/-- Three folded code units in one key, the first one highest. -/
def pack_char_trigram (cp0 cp1 cp2 : UInt16) : UInt64 :=
  (cp0.toUInt64 <<< 32) ||| (cp1.toUInt64 <<< 16) ||| cp2.toUInt64

def pack_window : List UInt16 → Option UInt64
  | [cp0, cp1, cp2] => some (pack_char_trigram cp0 cp1 cp2)
  | _ => none

/-- `TinyTriSet::insert` as the loop uses it: a key already seen is not pushed again. -/
def see (seen : List UInt64) (packed : UInt64) : List UInt64 :=
  if packed ∈ seen then seen else seen ++ [packed]

/-- Keys of all windows of three code units, each once, in order of first occurrence. -/
def char_trigrams (folded : List UInt16) : List UInt64 :=
  ((windows 3 folded).filterMap pack_window).foldl see []

/-- Keys of a needle, or `none` for fewer than three code units. -/
def needle_trigrams (needle : Str) (fold : CaseFold) : Option (List UInt64) :=
  let folded := fold.fold_to_u16 needle
  if folded.length < 3 then none else some (char_trigrams folded)

/-- Keys a record contributes to the base; none for a name out of range or not UTF-8. -/
def record_trigrams (names : List UInt8) (fold : CaseFold) (rec : CompactRecord) : List UInt64 :=
  match rec.name_range names with
  | none => []
  | some name_bytes =>
    let folded := fold.fold_to_u16 ((from_utf8 name_bytes).getD [])
    if folded.length < 3 then [] else char_trigrams folded

/-- A hash map of counters. -/
abbrev CountMap := AList fun _ : UInt64 => UInt32

def CountMap.add (self : CountMap) (key : UInt64) (cnt : UInt32) : CountMap :=
  self.insert key ((self.lookup key).getD 0 + cnt)

def CHUNK_SIZE : Nat := 64 * 1024

/-- Pass 1 over one chunk. -/
def chunk_count (names : List UInt8) (fold : CaseFold) (chunk : List CompactRecord) : CountMap :=
  chunk.foldl (fun counts rec => (record_trigrams names fold rec).foldl (fun m key => m.add key 1) counts) ∅

def global_counts (chunk_counts : List CountMap) : CountMap :=
  chunk_counts.foldl (fun total chunk_map => chunk_map.entries.foldl (fun m e => m.add e.1 e.2) total) ∅

def freq_cap (record_count : Nat) : Nat := max (record_count / 4) 1024

/-- Keys that survive pruning with their counts, ascending by key. -/
def sorted_keys (records : List CompactRecord) (names : List UInt8) (fold : CaseFold) : List (UInt64 × UInt32) :=
  let counts := global_counts ((chunks CHUNK_SIZE records).map (chunk_count names fold))
  let kept := counts.entries.filter fun e => e.2.toNat ≤ freq_cap records.length
  (kept.map fun e => (e.1, e.2)).mergeSort fun a b => a.1 ≤ b.1

/-- Key to row number. -/
def tri_lut (keys : List UInt64) (packed : UInt64) : Option Nat :=
  (keys.idxOf? packed).map fun key_idx => (len_to_u32 key_idx).toNat

def advance_offsets (keys : List UInt64) (accumulated : List UInt32) (chunk_map : CountMap) : List UInt32 :=
  chunk_map.entries.foldl (fun acc e =>
    match tri_lut keys e.1 with
    | none => acc
    | some ki => acc.modify ki (· + e.2)) accumulated

/-- Rows one record is written to. -/
def record_rows (keys : List UInt64) (names : List UInt8) (fold : CaseFold) (rec : CompactRecord) : List Nat :=
  (record_trigrams names fold rec).filterMap (tri_lut keys)

/-- Pass 2: every chunk scatters from the cursors left by the counts of the chunks before it.
Chunks write disjoint positions, so the order they run in does not matter. -/
def scatter_chunks (keys : List UInt64) (names : List UInt8) (fold : CaseFold) (accumulated : List UInt32)
    (record_offset : Nat) : List (List CompactRecord × CountMap) → List UInt32 → List UInt32
  | [], values => values
  | (chunk, chunk_map) :: rest, values =>
    let state := csr.scatter (record_rows keys names fold) len_to_u32 record_offset chunk
      { write_pos := accumulated, values := values }
    scatter_chunks keys names fold (advance_offsets keys accumulated chunk_map)
      (record_offset + CHUNK_SIZE) rest state.values

def scatter_postings (records : List CompactRecord) (names : List UInt8) (fold : CaseFold)
    (keys : List UInt64) (offsets : List UInt32) (total_postings : UInt32) (chunk_counts : List CountMap) :
    List UInt32 :=
  if offsets.length ≤ 1 then []
  else
    scatter_chunks keys names fold (offsets.take (offsets.length - 1)) 0
      ((chunks CHUNK_SIZE records).zip chunk_counts) (List.replicate total_postings.toNat 0)

/-- Trigram to records table; `keys` is ascending. -/
structure TrigramIndex where
  keys : List UInt64
  offsets : List UInt32
  values : List UInt32
deriving DecidableEq

def TrigramIndex.empty : TrigramIndex := { keys := [], offsets := [0], values := [] }

def TrigramIndex.build (records : List CompactRecord) (names : List UInt8) (fold : CaseFold) : TrigramIndex :=
  if records.isEmpty then TrigramIndex.empty
  else
    let chunk_counts := (chunks CHUNK_SIZE records).map (chunk_count names fold)
    let sorted := sorted_keys records names fold
    let keys := sorted.map (·.1)
    let offsets := csr.offsets 0 (sorted.map (·.2))
    let running := offsets.getLastD 0
    { keys := keys, offsets := offsets,
      values := scatter_postings records names fold keys offsets running chunk_counts }

/-- Posting list of one key. The keys are ascending, so the binary search is a lookup by value. -/
def TrigramIndex.get_posting (self : TrigramIndex) (packed : UInt64) : Option (List UInt32) := do
  let idx ← self.keys.idxOf? packed
  let start ← self.offsets[idx]?
  let stop ← self.offsets[idx + 1]?
  slice? self.values start.toNat stop.toNat

/-- Shortest list first, then intersect. -/
def intersect_all (lists : List (List UInt32)) : List UInt32 :=
  match lists.mergeSort fun a b => a.length ≤ b.length with
  | [] => []
  | first_list :: rest => rest.foldl postings.inter first_list

def TrigramIndex.search (self : TrigramIndex) (needle : Str) (fold : CaseFold) : Option (List UInt32) := do
  let trigrams ← needle_trigrams needle fold
  if trigrams.isEmpty then some []
  else
    let lists := trigrams.filterMap self.get_posting
    if lists.isEmpty then some [] else some (intersect_all lists)

theorem mem_foldl_see {packed : List UInt64} {seen : List UInt64} {key : UInt64} :
    key ∈ packed.foldl see seen ↔ key ∈ seen ∨ key ∈ packed := by
  induction packed generalizing seen with
  | nil => simp
  | cons first packed ih =>
    rw [List.foldl_cons, ih, see]
    split
    next h => grind
    next h => grind

theorem foldl_see_nodup {packed : List UInt64} {seen : List UInt64} (hseen : seen.Nodup) :
    (packed.foldl see seen).Nodup := by
  induction packed generalizing seen with
  | nil => exact hseen
  | cons first packed ih =>
    apply ih
    unfold see
    split
    · exact hseen
    next hfresh => exact List.nodup_append.mpr ⟨hseen, by simp, by simpa using fun a ha => by grind⟩

theorem mem_char_trigrams {folded : List UInt16} {key : UInt64} :
    key ∈ char_trigrams folded ↔ ∃ window ∈ windows 3 folded, pack_window window = some key := by
  simp [char_trigrams, mem_foldl_see]

theorem char_trigrams_nodup (folded : List UInt16) : (char_trigrams folded).Nodup :=
  foldl_see_nodup List.nodup_nil

/-- A folded name that contains the folded needle has all of its keys. -/
theorem char_trigrams_subset {part whole : List UInt16} (hpart : part <:+: whole) :
    char_trigrams part ⊆ char_trigrams whole := by
  intro key hkey
  obtain ⟨window, hwindow, hpack⟩ := mem_char_trigrams.mp hkey
  exact mem_char_trigrams.mpr ⟨window, windows_subset_of_infix (by decide) hpart hwindow, hpack⟩

theorem pack_window_of_length {window : List UInt16} (hlen : window.length = 3) :
    ∃ key, pack_window window = some key := by
  obtain ⟨a, b, c, rfl⟩ := List.length_eq_three.mp hlen
  exact ⟨_, rfl⟩

theorem char_trigrams_ne_nil {folded : List UInt16} (hlong : 3 ≤ folded.length) : char_trigrams folded ≠ [] := by
  obtain ⟨window, hwindow⟩ := List.exists_mem_of_ne_nil _ (windows_ne_nil (n := 3) (by decide) hlong)
  obtain ⟨key, hkey⟩ := pack_window_of_length ((mem_windows (by decide)).mp hwindow).2
  exact List.ne_nil_of_mem (mem_char_trigrams.mpr ⟨window, hwindow, hkey⟩)

/-- The base build and the overlay derive the same keys from a record. -/
theorem record_trigrams_eq (names : List UInt8) (fold : CaseFold) (rec : CompactRecord) :
    record_trigrams names fold rec = (needle_trigrams (rec.name names) fold).getD [] := by
  have hempty : from_utf8 [] = some [] := from_utf8_as_bytes []
  rw [record_trigrams, CompactRecord.name, CompactRecord.name_bytes]
  cases rec.name_range names with
  | none => simp [hempty, needle_trigrams]
  | some bytes =>
    simp only [Option.getD_some, needle_trigrams]
    split <;> rfl

theorem record_trigrams_nodup (names : List UInt8) (fold : CaseFold) (rec : CompactRecord) :
    (record_trigrams names fold rec).Nodup := by
  rw [record_trigrams_eq, needle_trigrams]
  split
  · exact List.nodup_nil
  · exact char_trigrams_nodup _

@[simp] theorem intersect_all_nil : intersect_all [] = [] := by
  simp [intersect_all]

variable {lists : List (List UInt32)}

theorem mem_foldl_inter {first : List UInt32} {c : UInt32} (hfirst : postings.Ascending first)
    (hlists : ∀ list ∈ lists, postings.Ascending list) :
    c ∈ lists.foldl postings.inter first ↔ c ∈ first ∧ ∀ list ∈ lists, c ∈ list := by
  induction lists generalizing first with
  | nil => simp
  | cons list lists ih =>
    have hlist := hlists list List.mem_cons_self
    rw [List.foldl_cons, ih (postings.inter_ascending hfirst list) fun l hl => hlists l (List.mem_cons_of_mem _ hl),
      postings.mem_inter hfirst hlist, List.forall_mem_cons, and_assoc]

/-- The intersection of at least one list, whatever the order they are taken in. -/
theorem mem_intersect_all {c : UInt32} (hlists : ∀ list ∈ lists, postings.Ascending list) :
    c ∈ intersect_all lists ↔ lists ≠ [] ∧ ∀ list ∈ lists, c ∈ list := by
  have hperm := List.mergeSort_perm lists fun a b => decide (a.length ≤ b.length)
  have hnil : lists = [] ↔ (lists.mergeSort fun a b => decide (a.length ≤ b.length)) = [] :=
    ⟨fun h => by subst h; exact hperm.eq_nil, fun h => (h ▸ hperm).nil_eq.symm⟩
  rw [intersect_all, Ne, hnil]
  simp only [← hperm.mem_iff] at hlists ⊢
  cases hsorted : lists.mergeSort fun a b => decide (a.length ≤ b.length) with
  | nil => simp
  | cons first rest =>
    rw [hsorted] at hlists
    rw [mem_foldl_inter (hlists first List.mem_cons_self) fun l hl => hlists l (List.mem_cons_of_mem _ hl)]
    simp

theorem foldl_inter_ascending {first : List UInt32} (hfirst : postings.Ascending first) :
    postings.Ascending (lists.foldl postings.inter first) := by
  induction lists generalizing first with
  | nil => exact hfirst
  | cons list lists ih => exact ih (postings.inter_ascending hfirst list)

theorem intersect_all_ascending (hlists : ∀ list ∈ lists, postings.Ascending list) :
    postings.Ascending (intersect_all lists) := by
  have hperm := List.mergeSort_perm lists fun a b => decide (a.length ≤ b.length)
  rw [intersect_all]
  cases hsorted : lists.mergeSort fun a b => decide (a.length ≤ b.length) with
  | nil => exact List.Pairwise.nil
  | cons first rest =>
    rw [hsorted] at hperm
    exact foldl_inter_ascending (hlists first (hperm.mem_iff.mp List.mem_cons_self))

end uffs.trigram
