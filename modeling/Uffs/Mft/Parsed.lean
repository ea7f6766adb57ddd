import Uffs.Mft.Stored

open uffs.bloom

namespace uffs.mft

/-! The parser as a whole: every accepted record buffer does to the index what its segment does to
the table of files, as long as the arenas have room for it. -/

/-- The vectors of an index that grow. -/
inductive Arena where
  | records
  | links
  | streams
  | internals
  | children
  | names
deriving DecidableEq

theorem Arena.forall_iff {p : Arena → Prop} :
    (∀ arena, p arena) ↔ p .records ∧ p .links ∧ p .streams ∧ p .internals ∧ p .children ∧ p .names := by
  constructor
  · exact fun h => ⟨h _, h _, h _, h _, h _, h _⟩
  · rintro ⟨hrecords, hlinks, hstreams, hinternals, hchildren, hnames⟩ arena
    cases arena <;> assumption

instance Arena.decidableForall (p : Arena → Prop) [DecidablePred p] : Decidable (∀ arena, p arena) :=
  decidable_of_iff _ Arena.forall_iff.symm

def MftIndex.size (self : MftIndex) : Arena → Nat
  | .records => self.records.length
  | .links => self.links.length
  | .streams => self.streams.length
  | .internals => self.internal_streams.length
  | .children => self.children.length
  | .names => self.names.length

/-- Positions are 32-bit with the largest one as a sentinel; a name needs a position of its own even
when it has no bytes. -/
def Arena.limit : Arena → Nat
  | .names => NO_ENTRY.toNat - 1
  | _ => NO_ENTRY.toNat

/-- What an attribute may add to each vector. -/
def Attribute.size : Attribute → Arena → Nat
  | .file_name _, .records => 1
  | .file_name _, .links => 1
  | .file_name _, .children => 1
  | .file_name attr, .names => attr.name.stored.length
  | .named_data _ _ _, .streams => 1
  | .named_data name _ _, .names => name.stored.length
  | .internal _ _ _, .internals => 1
  | _, _ => 0

def Segment.size (self : Segment) (arena : Arena) : Nat :=
  (if arena = .records then 1 else 0) + (self.attributes.map (·.size arena)).sum

/-- The vectors have room for what is to be added. -/
def Room (index : MftIndex) (extra : Arena → Nat) : Prop := ∀ arena, index.size arena + extra arena ≤ arena.limit

/-- The step adds at most this much. -/
def Within (index next : MftIndex) (extra : Arena → Nat) : Prop :=
  ∀ arena, next.size arena ≤ index.size arena + extra arena

/-- The name of an attribute, if it has one, fits the length bits of a name reference. -/
def Attribute.short : Attribute → Prop
  | .file_name attr => attr.name.stored.length < 1024
  | .named_data name _ _ => name.stored.length < 1024
  | _ => True

theorem Within.refl (index : MftIndex) : Within index index fun _ => 0 := fun _ => Nat.le_refl _

theorem Within.trans {index middle next : MftIndex} {first second : Arena → Nat} (h : Within index middle first)
    (h' : Within middle next second) : Within index next fun arena => first arena + second arena := by
  intro arena
  have hfirst := h arena
  have hsecond := h' arena
  dsimp only
  omega

theorem Within.mono {index next : MftIndex} {extra more : Arena → Nat} (h : Within index next extra)
    (hle : ∀ arena, extra arena ≤ more arena) : Within index next more :=
  fun arena => Nat.le_trans (h arena) (Nat.add_le_add_left (hle arena) _)

theorem Room.mono {index : MftIndex} {extra less : Arena → Nat} (h : Room index extra)
    (hle : ∀ arena, less arena ≤ extra arena) : Room index less :=
  fun arena => Nat.le_trans (Nat.add_le_add_left (hle arena) _) (h arena)

theorem Room.step {index next : MftIndex} {extra rest : Arena → Nat} (h : Room index fun arena => extra arena + rest arena)
    (hstep : Within index next extra) : Room next rest := by
  intro arena
  have hroom := h arena
  have hgrow := hstep arena
  dsimp only at hroom
  omega

/-- One more entry in one vector. -/
def one (arena : Arena) : Arena → Nat := fun other => if other = arena then 1 else 0

section

variable (index : MftIndex) (ri : Nat)

theorem within_modify_record (f : FileRecord → FileRecord) : Within index (index.modify_record ri f) fun _ => 0 := by
  intro arena
  cases arena <;> simp [MftIndex.modify_record, MftIndex.size]

theorem within_ensure_record (frs : UInt64) : Within index (index.ensure_record frs).1 (one .records) := by
  intro arena
  rw [MftIndex.ensure_record]
  split <;> cases arena <;> simp [MftIndex.size, one]

theorem within_store_name (env : Env) (index : MftIndex) (name : DecodedName) :
    Within index (index.store_name env name).1 fun arena => if arena = .names then name.stored.length else 0 := by
  intro arena
  obtain ⟨extension_names, extension_id, hname⟩ := store_name_eq env index name
  rw [hname]
  cases arena <;> simp [MftIndex.size]

theorem within_push_link : Within index (index.push_link ri) (one .links) := by
  intro arena
  rw [MftIndex.push_link]
  split
  · exact Nat.le_add_right _ _
  · split
    · cases arena <;> simp [MftIndex.size, MftIndex.modify_record, one]
    · exact Nat.le_add_right _ _

theorem within_push_child (parent_frs child_frs : UInt64) (name_index : UInt16) :
    Within index (index.push_child parent_frs child_frs name_index) fun arena => one .records arena + one .children arena := by
  refine (within_ensure_record index parent_frs).trans fun arena => ?_
  rw [MftIndex.push_child]
  dsimp only
  split
  · exact Nat.le_add_right _ _
  · cases arena <;> simp [MftIndex.size, MftIndex.modify_record, one]

theorem within_store_child (frs_base : UInt64) (base_ri : Nat) (parent_frs : UInt64) :
    Within index (index.store_child frs_base base_ri parent_frs) fun arena => one .records arena + one .children arena := by
  rw [MftIndex.store_child]
  split
  · exact within_push_child _ _ _ _
  · exact (Within.refl _).mono fun _ => Nat.zero_le _

theorem within_store_file_name (env : Env) (index : MftIndex) (frs_base : UInt64) (base_ri : Nat)
    (attr : FileNameAttribute) :
    Within index (index.store_file_name env frs_base base_ri attr) (Attribute.file_name attr).size := by
  have hname := (within_push_link index base_ri).trans (within_store_name env (index.push_link base_ri) attr.name)
  let name_ref := ((index.push_link base_ri).store_name env attr.name).2
  have hput := hname.trans (within_modify_record _ base_ri fun rec =>
    (rec.put_first_name name_ref attr.parent_frs).name_times attr)
  have hchild := hput.trans (within_store_child _ frs_base base_ri attr.parent_frs)
  refine (hchild.trans (within_modify_record _ base_ri FileRecord.count_name)).mono fun arena => ?_
  cases arena <;> simp [one, Attribute.size]

theorem within_store_attribute (env : Env) (frs_base : UInt64) (base_ri : Nat) (is_directory : Bool) (index : MftIndex)
    (attr : Attribute) :
    Within index (index.store_attribute env frs_base base_ri is_directory attr) attr.size := by
  cases attr with
  | standard_information info => exact (within_modify_record _ _ _).mono fun _ => Nat.zero_le _
  | file_name attr => exact within_store_file_name env index frs_base base_ri attr
  | index_i30 size flags => exact (within_modify_record _ _ _).mono fun _ => Nat.zero_le _
  | default_data size flags => exact (within_modify_record _ _ _).mono fun _ => Nat.zero_le _
  | named_data name size flags =>
    intro arena
    obtain ⟨extension_names, extension_id, hname⟩ := store_name_eq env index name
    rw [MftIndex.store_attribute, MftIndex.store_named_data, hname]
    dsimp only
    split
    · cases arena <;> simp [MftIndex.size, Attribute.size]
    · split <;> cases arena <;> simp [MftIndex.size, MftIndex.modify_record, link_tail, Attribute.size]
  | internal size flags reparse_tag =>
    intro arena
    rw [MftIndex.store_attribute, MftIndex.store_internal]
    dsimp only
    split
    · cases arena <;> simp [MftIndex.size, Attribute.size]
    · split <;> cases arena <;> simp [MftIndex.size, MftIndex.modify_record, link_tail, Attribute.size]

theorem Flat.name_times (attr : FileNameAttribute) : Flat fun rec => rec.name_times attr := by
  constructor <;> intro record <;> rfl

theorem Flat.count_name : Flat FileRecord.count_name := by
  constructor <;> intro record <;> rfl

theorem Flat.stdinfo (info : StandardInfo) : Flat fun rec => { rec with stdinfo := info } := by
  constructor <;> intro record <;> rfl

theorem Flat.stamp (stamp : Option (UInt16 × UInt64)) : Flat fun rec => rec.stamp stamp := by
  cases stamp <;> constructor <;> intro record <;> rfl

theorem Flat.mark_directory (is_directory : Bool) : Flat fun rec => rec.mark_directory is_directory := by
  cases is_directory <;> constructor <;> intro record <;> rfl

theorem Flat.id : Flat fun rec => rec := by
  constructor <;> intro record <;> rfl

theorem Flat.ite {f g : FileRecord → FileRecord} (c : FileRecord → Bool) (hc : ∀ record, c record.blank = c record)
    (hf : Flat f) (hg : Flat g) : Flat fun rec => if c rec then f rec else g rec := by
  constructor <;> intro record
  · split
    · exact hf.frs record
    · exact hg.frs record
  · split
    · exact hf.first_name record
    · exact hg.first_name record
  · split
    · exact hf.next_stream record
    · exact hg.next_stream record
  · split
    · exact hf.first_internal_stream record
    · exact hg.first_internal_stream record
  · split
    · exact hf.first_child record
    · exact hg.first_child record
  · rw [hc]
    split
    · exact hf.blank record
    · exact hg.blank record

theorem Flat.comp {f g : FileRecord → FileRecord} (hg : Flat g) (hf : Flat f) : Flat fun rec => g (f rec) where
  frs record := (hg.frs _).trans (hf.frs record)
  first_name record := (hg.first_name _).trans (hf.first_name record)
  next_stream record := (hg.next_stream _).trans (hf.next_stream record)
  first_internal_stream record := (hg.first_internal_stream _).trans (hf.first_internal_stream record)
  first_child record := (hg.first_child _).trans (hf.first_child record)
  blank record := by rw [hg.blank, hf.blank]

theorem Flat.add_i30 (size : SizeInfo) (flags : UInt8) : Flat fun rec => rec.add_i30 size flags := by
  refine @Flat.comp (fun rec => if rec.has_i30_stream then rec
    else { rec with forensic_flags := rec.forensic_flags ||| 0b10000 }.count_stream) (fun rec => { rec with
      stdinfo := rec.stdinfo.set_directory
      first_stream := { rec.first_stream with flags := flags, size := rec.first_stream.size.saturating_add size } }) ?_ ?_
  · constructor <;> intro record <;> rfl
  · refine Flat.ite FileRecord.has_i30_stream (fun _ => rfl) Flat.id ?_
    constructor <;> intro record <;> rfl

theorem Flat.add_default_data (size : SizeInfo) (flags : UInt8) : Flat fun rec => rec.add_default_data size flags := by
  refine @Flat.comp (fun rec => if rec.has_default_data then rec else rec.count_stream) (fun rec => { rec with
      forensic_flags := rec.forensic_flags ||| 0b1000
      first_stream := { rec.first_stream with flags := flags, size := rec.first_stream.size.saturating_add size } }) ?_ ?_
  · constructor <;> intro record <;> rfl
  · refine Flat.ite FileRecord.has_default_data (fun _ => rfl) Flat.id ?_
    constructor <;> intro record <;> rfl

theorem modify_record_modify_record (f g : FileRecord → FileRecord) :
    (index.modify_record ri f).modify_record ri g = index.modify_record ri fun rec => g (f rec) := by
  simp only [MftIndex.modify_record, List.modify_modify_eq]
  rfl

end

section store

variable {index : MftIndex} (hwf : Wf index) {base : UInt64} {ri : Nat} (hbase : index.frs_to_idx_opt base = some ri)
include hwf

variable {rest : Arena → Nat}

theorem Wf.push_child_stores (hroom : Room index fun arena => one .records arena + one .children arena + rest arena)
    (parent_frs child_frs : UInt64) (name_index : UInt16) :
    Stores index (index.push_child parent_frs child_frs name_index)
      (index.view.push_child parent_frs child_frs name_index) := by
  have hrecords := hroom .records
  obtain ⟨hensure, hmapped⟩ := hwf.ensure_record_stores parent_frs (by
    simp only [MftIndex.size, one, Arena.limit, reduceIte, reduceCtorEq] at hrecords
    omega)
  obtain ⟨parent, hparent, _⟩ := hensure.wf.mapped hmapped
  have hchildren := hroom .children
  have hlen := within_ensure_record index parent_frs .children
  rw [MftIndex.push_child]
  dsimp only
  rw [hparent]
  have hpush := hensure.wf.push_entry_stores hmapped hparent (by
    simp only [MftIndex.size, one, Arena.limit, reduceIte, reduceCtorEq] at hchildren hlen
    omega) child_frs name_index
  rw [hensure.view] at hpush
  exact hensure.trans hpush

include hbase

theorem Wf.store_child_stores (hroom : Room index fun arena => one .records arena + one .children arena + rest arena)
    (parent_frs : UInt64) :
    Stores index (index.store_child base ri parent_frs) (index.view.store_child base parent_frs) := by
  obtain ⟨record, hrec, _⟩ := hwf.mapped hbase
  have hcount : (index.records[ri]?.map FileRecord.name_count).getD 0 = (index.view base).record.name_count := by
    rw [view_of_mapped hbase hrec, hrec]
    rfl
  rw [MftIndex.store_child, FileTable.store_child, hcount]
  split
  · exact hwf.push_child_stores hroom _ _ _
  · exact ⟨hwf, rfl, fun h => h⟩

theorem Wf.modify_stores {f : FileRecord → FileRecord} (hf : Flat f) :
    Stores index (index.modify_record ri f) (index.view.modify base f) := by
  obtain ⟨record, hrec, _⟩ := hwf.mapped hbase
  exact hwf.modify_flat hbase hrec hf

section

variable (env : Env) (attr : FileNameAttribute) (hshort : attr.name.stored.length < 1024)
  (hroom : Room index fun arena => (Attribute.file_name attr).size arena + rest arena)

include env attr hshort hroom

theorem Wf.push_name_stores {stored : MftIndex × IndexNameRef}
    (hstored : stored = (index.push_link ri).store_name env attr.name) :
    Stores index (stored.1.modify_record ri fun rec => rec.put_first_name stored.2 attr.parent_frs)
      (index.view.push_link base attr.name.stored attr.parent_frs) := by
  obtain ⟨record, hrec, _⟩ := hwf.mapped hbase
  have hlinks := hroom .links
  have hnames := hroom .names
  simp only [MftIndex.size, Attribute.size, Arena.limit] at hlinks hnames
  have hpush := hwf.push_link_stores hbase hrec (by omega)
  obtain ⟨extension_names, extension_id, hname⟩ := store_name_eq env (index.push_link ri) attr.name
  rw [hname] at hstored
  have hpushed : (index.push_link ri).names.length < NO_ENTRY.toNat := by
    have hlen := within_push_link index ri .names
    simp only [MftIndex.size, one, reduceIte, reduceCtorEq] at hlen
    omega
  have hgrow := hpush.trans (hpush.wf.grow_names attr.name.stored extension_names)
  have hholds := holds_new_name hshort hpushed extension_names (is_ascii attr.name.display) extension_id
  have hbytes := get_new_name hshort hpushed extension_names (is_ascii attr.name.display) extension_id
  obtain ⟨changed, hchanged, _⟩ := hgrow.wf.mapped (hgrow.kept hbase)
  have hput := hgrow.wf.set_first_name (hgrow.kept hbase) hchanged hholds attr.parent_frs
  rw [hstored]
  refine hgrow.trans ⟨hput.wf, hput.view.trans ?_, hput.kept⟩
  rw [hgrow.view, hpush.view, hbytes, Function.update_idem, Function.update_self, FileTable.push_link]
  congr 2
  cases (index.view base).links <;> rfl

theorem Wf.store_file_name_stores :
    Stores index (index.store_file_name env base ri attr) (index.view.store_file_name base attr) := by
  have hpush := hwf.push_name_stores hbase env attr hshort hroom rfl
  have htimes := hpush.trans (hpush.wf.modify_stores (hpush.kept hbase) (Flat.name_times attr))
  have hwithin := ((within_push_link index ri).trans (within_store_name env (index.push_link ri) attr.name)).trans
    (within_modify_record _ ri fun rec =>
      (rec.put_first_name ((index.push_link ri).store_name env attr.name).2 attr.parent_frs).name_times attr)
  rw [hpush.view] at htimes
  rw [MftIndex.store_file_name, FileTable.store_file_name]
  dsimp only
  rw [modify_record_modify_record] at htimes
  generalize MftIndex.modify_record _ ri _ = named at htimes hwithin ⊢
  have hroom' : Room named fun arena => one .records arena + one .children arena + rest arena := by
    refine Room.step (hroom.mono fun arena => ?_) hwithin
    cases arena <;> simp [one, Attribute.size]
  have hchild := htimes.trans (htimes.wf.store_child_stores (htimes.kept hbase) hroom' attr.parent_frs)
  rw [htimes.view] at hchild
  have hcount := hchild.trans (hchild.wf.modify_stores (hchild.kept hbase) Flat.count_name)
  rw [hchild.view] at hcount
  exact hcount

end

theorem Wf.store_named_data_stores (env : Env) (name : DecodedName) (size : SizeInfo) (flags : UInt8)
    (hshort : name.stored.length < 1024)
    (hroom : Room index fun arena => (Attribute.named_data name size flags).size arena + rest arena) :
    Stores index (index.store_named_data env ri name size flags) (index.view.store_named_data base name size flags) := by
  obtain ⟨record, hrec, _⟩ := hwf.mapped hbase
  have hstreams := hroom .streams
  have hnames := hroom .names
  simp only [MftIndex.size, Attribute.size, Arena.limit] at hstreams hnames
  have hlen : index.names.length < NO_ENTRY.toNat := by omega
  obtain ⟨extension_names, extension_id, hname⟩ := store_name_eq env index name
  have hgrow := hwf.grow_names name.stored extension_names
  have hholds := holds_new_name hshort hlen extension_names (is_ascii name.display) extension_id
  have hbytes := get_new_name hshort hlen extension_names (is_ascii name.display) extension_id
  have hpush := hgrow.wf.push_stream_stores hbase hrec (by dsimp only; omega) hholds size flags
  rw [hbytes, hgrow.view] at hpush
  rw [store_named_data_eq env hrec name size flags hname.symm rfl]
  exact hgrow.trans hpush

theorem Wf.store_attribute_stores (env : Env) (is_directory : Bool) (attr : Attribute) (hshort : attr.short)
    (hroom : Room index fun arena => attr.size arena + rest arena) :
    Stores index (index.store_attribute env base ri is_directory attr)
      (index.view.store_attribute base is_directory attr) := by
  cases attr with
  | standard_information info => exact hwf.modify_stores hbase (Flat.stdinfo _)
  | file_name attr => exact hwf.store_file_name_stores hbase env attr hshort hroom
  | index_i30 size flags => exact hwf.modify_stores hbase (Flat.add_i30 size flags)
  | default_data size flags => exact hwf.modify_stores hbase (Flat.add_default_data size flags)
  | named_data name size flags => exact hwf.store_named_data_stores hbase env name size flags hshort hroom
  | internal size flags reparse_tag =>
    obtain ⟨record, hrec, _⟩ := hwf.mapped hbase
    have hinternals := hroom .internals
    simp only [MftIndex.size, Attribute.size, Arena.limit] at hinternals
    exact hwf.store_internal_stores hbase hrec (by omega) size flags reparse_tag

/-- The attribute loop, one attribute after the other. -/
theorem Wf.store_attributes_stores (env : Env) (is_directory : Bool) (attributes : List Attribute)
    (hshort : ∀ attr ∈ attributes, attr.short)
    (hroom : Room index fun arena => (attributes.map (·.size arena)).sum + rest arena) :
    Stores index (attributes.foldl (MftIndex.store_attribute env base ri is_directory) index)
      (attributes.foldl (FileTable.store_attribute base is_directory) index.view) := by
  induction attributes generalizing index with
  | nil => exact ⟨hwf, rfl, fun h => h⟩
  | cons attr attributes ih =>
    have hroom' : Room index fun arena => attr.size arena + ((attributes.map (·.size arena)).sum + rest arena) :=
      hroom.mono fun arena => by simp [Nat.add_assoc]
    have hstep := hwf.store_attribute_stores hbase env is_directory attr (hshort attr List.mem_cons_self) hroom'
    have hrest := ih hstep.wf (hstep.kept hbase) (fun other hmem => hshort other (List.mem_cons_of_mem _ hmem))
      (hroom'.step (within_store_attribute env base ri is_directory index attr))
    rw [hstep.view] at hrest
    exact hstep.trans hrest

end store

theorem within_store_attributes (env : Env) (frs_base : UInt64) (base_ri : Nat) (is_directory : Bool)
    (attributes : List Attribute) (index : MftIndex) :
    Within index (attributes.foldl (MftIndex.store_attribute env frs_base base_ri is_directory) index)
      fun arena => (attributes.map (·.size arena)).sum := by
  induction attributes generalizing index with
  | nil => exact Within.refl index
  | cons attr attributes ih =>
    have hstep := within_store_attribute env frs_base base_ri is_directory index attr
    exact (hstep.trans (ih _)).mono fun arena => by simp

theorem within_store_segment (env : Env) (index : MftIndex) (segment : Segment) :
    Within index (index.store_segment env segment) segment.size := by
  have hensure := (within_ensure_record index segment.base).trans
    (within_modify_record _ (index.ensure_record segment.base).2 fun rec => rec.stamp segment.stamp)
  have hattrs := hensure.trans (within_store_attributes env segment.base (index.ensure_record segment.base).2
    segment.is_directory segment.attributes _)
  refine (hattrs.trans (within_modify_record _ (index.ensure_record segment.base).2 fun rec =>
    rec.mark_directory segment.is_directory)).mono fun arena => ?_
  simp [Segment.size, one]

/-- A whole record buffer. -/
theorem Wf.store_segment_stores {index : MftIndex} (hwf : Wf index) (env : Env) (segment : Segment)
    (hshort : ∀ attr ∈ segment.attributes, attr.short) (hroom : Room index segment.size) :
    Stores index (index.store_segment env segment) (index.view.store_segment segment) := by
  have hroom' : Room index fun arena => one .records arena + ((segment.attributes.map (·.size arena)).sum + 0) :=
    hroom.mono fun arena => by simp [Segment.size, one]
  have hrecords := hroom' .records
  simp only [MftIndex.size, one, Arena.limit, reduceIte] at hrecords
  obtain ⟨hensure, hmapped⟩ := hwf.ensure_record_stores segment.base (by omega)
  have hwithin := (within_ensure_record index segment.base).trans
    (within_modify_record _ (index.ensure_record segment.base).2 fun rec => rec.stamp segment.stamp)
  have hstamp := hensure.trans (hensure.wf.modify_stores hmapped (Flat.stamp segment.stamp))
  rw [hensure.view] at hstamp
  have hmapped' := (hensure.wf.modify_stores hmapped (Flat.stamp segment.stamp)).kept hmapped
  rw [MftIndex.store_segment, FileTable.store_segment]
  dsimp only
  generalize (index.ensure_record segment.base).2 = base_ri at hstamp hmapped' hwithin ⊢
  generalize MftIndex.modify_record _ base_ri _ = stamped at hstamp hmapped' hwithin ⊢
  have hattrs := hstamp.wf.store_attributes_stores hmapped' env segment.is_directory segment.attributes hshort
    (hroom'.step (hwithin.mono fun arena => Nat.le_refl _))
  have hmapped'' := hattrs.kept hmapped'
  rw [hstamp.view] at hattrs
  have hmark := hattrs.wf.modify_stores hmapped'' (Flat.mark_directory segment.is_directory)
  rw [hattrs.view] at hmark
  exact (hstamp.trans hattrs).trans hmark

end uffs.mft
