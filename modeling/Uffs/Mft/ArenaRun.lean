import Uffs.Compact.Rows
import Uffs.Lib.Machine
import Uffs.Mft.FileHistory

open uffs.lib uffs.lib.arena uffs.bloom

namespace uffs.mft

/-- A record buffer as read from the volume, with its record number. -/
structure Buffer where
  frs : UInt64
  data : List UInt8
deriving DecidableEq

def Buffer.segment? (self : Buffer) : Option Segment := read_segment self.data self.frs

/-- One call of `process_record`. -/
def parse_step (env : Env) (index : MftIndex) (buffer : Buffer) : Option MftIndex :=
  some (process_record env buffer.data buffer.frs index).2

/-- The files that the accepted buffers describe, in the order they are parsed. -/
def parsed_files (buffers : List Buffer) : FileTable :=
  (buffers.filterMap Buffer.segment?).foldl FileTable.store_segment FileView.absent

/-- Record numbers a segment makes the lookup table hold. -/
def Segment.referenced (self : Segment) : List UInt64 :=
  self.base :: self.attributes.filterMap (Attribute.entry_parent self.base)

def Attribute.is_i30 : Attribute → Bool
  | .index_i30 _ _ => true
  | _ => false

def Attribute.is_default_data : Attribute → Bool
  | .default_data _ _ => true
  | _ => false

theorem read_attribute_short {data : List UInt8} {frs_base : UInt64} {offset : Nat} {header : AttributeRecordHeader}
    {attr : Attribute} (h : read_attribute data frs_base offset header = some attr) : attr.short := by
  have hstream : ∀ {attr}, read_stream data frs_base offset header = some attr → attr.short := by
    intro attr h
    rw [read_stream] at h
    split at h
    · cases h
      trivial
    · dsimp only at h
      split at h
      · split at h
        · cases h
          trivial
        · obtain ⟨name, hread, rfl⟩ := Option.map_eq_some_iff.mp h
          exact read_stream_name_length hread
      · cases h
        trivial
  rw [read_attribute] at h
  split at h
  · split at h
    · cases h
      trivial
    · cases h
  · split at h
    · split at h
      · obtain ⟨name, hread, rfl⟩ := Option.map_eq_some_iff.mp h
        exact read_file_name_length hread
      · cases h
    · split at h
      · exact hstream h
      · cases h

theorem read_attributes_short {data : List UInt8} {frs_base : UInt64} {max_offset fuel offset : Nat} {attr : Attribute}
    (h : attr ∈ read_attributes data frs_base max_offset fuel offset) : attr.short := by
  induction fuel generalizing offset with
  | zero => cases h
  | succ fuel ih =>
    rw [read_attributes] at h
    split at h
    · dsimp only at h
      split at h
      · cases h
      · split at h
        · cases h
        · cases List.mem_append.mp h with
          | inl hhere => exact read_attribute_short (Option.mem_toList.mp hhere)
          | inr hrest => exact ih hrest
    · cases h

/-- Every name of a record read from bytes fits a name reference. -/
theorem read_segment_short {data : List UInt8} {frs : UInt64} {segment : Segment}
    (h : read_segment data frs = some segment) : ∀ attr ∈ segment.attributes, attr.short := by
  rw [read_segment] at h
  split at h
  · cases h
  · dsimp only at h
    split at h
    · cases h
      intro attr hattr
      exact read_attributes_short hattr
    · cases h

section lookup

variable {index : MftIndex}

theorem ensure_record_lookup_le {frs : UInt64} {limit : Nat} (hlen : index.frs_to_idx.length ≤ limit)
    (hfrs : frs.toNat < limit) : (index.ensure_record frs).1.frs_to_idx.length ≤ limit := by
  have hgrown : (index.frs_to_idx ++ List.replicate (frs.toNat + 1 - index.frs_to_idx.length) NO_ENTRY).length ≤ limit := by
    rw [List.length_append, List.length_replicate]
    omega
  cases hidx : index.frs_to_idx_opt frs with
  | none =>
    rw [ensure_record_new hidx]
    rw [List.length_set]
    exact hgrown
  | some i =>
    rw [ensure_record_old hidx]
    exact hgrown

theorem push_child_lookup_le {parent_frs : UInt64} {limit : Nat} (hlen : index.frs_to_idx.length ≤ limit)
    (hfrs : parent_frs.toNat < limit) (child_frs : UInt64) (name_index : UInt16) :
    (index.push_child parent_frs child_frs name_index).frs_to_idx.length ≤ limit := by
  have hensure := ensure_record_lookup_le hlen hfrs
  rw [MftIndex.push_child]
  dsimp only
  split
  · exact hensure
  · exact hensure

theorem modify_record_lookup (index : MftIndex) (ri : Nat) (f : FileRecord → FileRecord) :
    (index.modify_record ri f).frs_to_idx = index.frs_to_idx := rfl

theorem push_link_lookup (index : MftIndex) (ri : Nat) : (index.push_link ri).frs_to_idx = index.frs_to_idx := by
  rw [MftIndex.push_link]
  split
  · rfl
  · split
    · rfl
    · rfl

theorem store_name_lookup (env : Env) (index : MftIndex) (name : DecodedName) :
    (index.store_name env name).1.frs_to_idx = index.frs_to_idx := by
  obtain ⟨extension_names, extension_id, hname⟩ := store_name_eq env index name
  rw [hname]

theorem store_attribute_lookup_le (env : Env) {base : UInt64} (ri : Nat) (is_directory : Bool) {attr : Attribute}
    {limit : Nat} (hlen : index.frs_to_idx.length ≤ limit)
    (hparent : ∀ parent_frs, attr.entry_parent base = some parent_frs → parent_frs.toNat < limit) :
    (index.store_attribute env base ri is_directory attr).frs_to_idx.length ≤ limit := by
  cases attr with
  | standard_information info => exact hlen
  | file_name attr =>
    have hstored : ((index.push_link ri).store_name env attr.name).1.frs_to_idx.length ≤ limit := by
      rw [store_name_lookup, push_link_lookup]
      exact hlen
    rw [MftIndex.store_attribute, MftIndex.store_file_name]
    rw [modify_record_lookup, MftIndex.store_child]
    split
    next hentry =>
      refine push_child_lookup_le ?_ (hparent attr.parent_frs (if_pos hentry)) _ _
      rw [modify_record_lookup]
      exact hstored
    next =>
      rw [modify_record_lookup]
      exact hstored
  | index_i30 size flags => exact hlen
  | default_data size flags => exact hlen
  | named_data name size flags =>
    have hstored : (index.store_name env name).1.frs_to_idx.length ≤ limit := by
      rw [store_name_lookup]
      exact hlen
    rw [MftIndex.store_attribute, MftIndex.store_named_data]
    dsimp only
    split
    · exact hstored
    · split
      · rw [modify_record_lookup]
        exact hstored
      · rw [modify_record_lookup]
        exact hstored
  | internal size flags reparse_tag =>
    rw [MftIndex.store_attribute, MftIndex.store_internal]
    dsimp only
    split
    · exact hlen
    · split
      · rw [modify_record_lookup]
        exact hlen
      · rw [modify_record_lookup]
        exact hlen

/-- The lookup table grows to the largest number that a segment refers to, and no further. -/
theorem store_segment_lookup_le (env : Env) {segment : Segment} {limit : Nat} (hlen : index.frs_to_idx.length ≤ limit)
    (hrefs : ∀ frs ∈ segment.referenced, frs.toNat < limit) :
    (index.store_segment env segment).frs_to_idx.length ≤ limit := by
  have hbase : segment.base.toNat < limit := hrefs _ List.mem_cons_self
  have hloop : ∀ (attributes : List Attribute) (index : MftIndex) (ri : Nat),
      (∀ attr ∈ attributes, ∀ frs, attr.entry_parent segment.base = some frs → frs.toNat < limit) →
      index.frs_to_idx.length ≤ limit →
      (attributes.foldl (MftIndex.store_attribute env segment.base ri segment.is_directory) index).frs_to_idx.length ≤
        limit := by
    intro attributes
    induction attributes with
    | nil => exact fun index ri _ hlen => hlen
    | cons attr attributes ih =>
      intro index ri hattrs hlen
      refine ih _ ri (fun other hmem => hattrs other (List.mem_cons_of_mem _ hmem)) ?_
      exact store_attribute_lookup_le env ri segment.is_directory hlen (hattrs attr List.mem_cons_self)
  rw [MftIndex.store_segment]
  refine hloop segment.attributes _ _ ?_ (ensure_record_lookup_le hlen hbase)
  intro attr hattr frs hparent
  exact hrefs frs (List.mem_cons_of_mem _ (List.mem_filterMap.mpr ⟨attr, hattr, hparent⟩))

end lookup

section counts

/-- Entries of the default stream's slot: one for unnamed data, one for a directory index. -/
def FileView.default_slots (self : FileView) : Nat :=
  (if self.record.has_default_data then 1 else 0) + (if self.record.has_i30_stream then 1 else 0)

/-- The counters hold the lengths, up to their saturation. -/
structure FileView.Counted (view : FileView) : Prop where
  names : view.record.name_count.toNat = min view.links.length 65535
  streams : view.record.stream_count.toNat = min (view.default_slots + view.streams.length) 65535
  total : view.record.total_stream_count.toNat =
    min (view.default_slots + view.streams.length + view.internals.length) 65535

theorem set_bit_8 (flags : UInt8) : ((flags ||| 0b1000) &&& 0b1000 != 0) = true ∧
    ((flags ||| 0b1000) &&& 0b10000 != 0) = (flags &&& 0b10000 != 0) := by
  obtain ⟨⟨⟨n, hn⟩⟩⟩ := flags
  revert n
  decide +kernel

theorem set_bit_16 (flags : UInt8) : ((flags ||| 0b10000) &&& 0b10000 != 0) = true ∧
    ((flags ||| 0b10000) &&& 0b1000 != 0) = (flags &&& 0b1000 != 0) := by
  obtain ⟨⟨⟨n, hn⟩⟩⟩ := flags
  revert n
  decide +kernel

theorem add_default_data_flags (record : FileRecord) (size : SizeInfo) (flags : UInt8) :
    (record.add_default_data size flags).has_default_data = true ∧
      (record.add_default_data size flags).has_i30_stream = record.has_i30_stream := by
  have hflags : (record.add_default_data size flags).forensic_flags = record.forensic_flags ||| 0b1000 := by
    rw [FileRecord.add_default_data]
    split <;> rfl
  rw [FileRecord.has_default_data, FileRecord.has_i30_stream, hflags]
  exact set_bit_8 record.forensic_flags

theorem add_i30_flags (record : FileRecord) (size : SizeInfo) (flags : UInt8) :
    (record.add_i30 size flags).has_i30_stream = true ∧
      (record.add_i30 size flags).has_default_data = record.has_default_data := by
  rw [FileRecord.add_i30]
  split
  next hflag => exact ⟨hflag, rfl⟩
  next => exact set_bit_16 record.forensic_flags

theorem saturating_succ {count : UInt16} {n : Nat} (h : count.toNat = min n 65535) :
    (saturating_add16 count 1).toNat = min (n + 1) 65535 := by
  have hone : (1 : UInt16).toNat = 1 := rfl
  rw [saturating_add16_toNat, h, hone]
  omega

/-- A kind of default stream is counted when it is first seen. -/
theorem FileView.Counted.fill {view : FileView} (h : view.Counted) {record : FileRecord} {seen : Bool}
    (hslots : (if record.has_default_data then 1 else 0) + (if record.has_i30_stream then 1 else 0) =
      view.default_slots + if seen then 0 else 1)
    (hnames : record.name_count = view.record.name_count)
    (hstreams : record.stream_count = if seen then view.record.stream_count else saturating_add16 view.record.stream_count 1)
    (htotal : record.total_stream_count =
      if seen then view.record.total_stream_count else saturating_add16 view.record.total_stream_count 1) :
    { view with record := record : FileView }.Counted := by
  have hdefault : ({ view with record := record } : FileView).default_slots = view.default_slots + if seen then 0 else 1 :=
    hslots
  refine ⟨hnames ▸ h.names, ?_, ?_⟩
  · rw [hdefault, hstreams]
    cases seen with
    | true => exact h.streams
    | false =>
      refine (saturating_succ h.streams).trans ?_
      simp only [Bool.false_eq_true, if_false]
      omega
  · rw [hdefault, htotal]
    cases seen with
    | true => exact h.total
    | false =>
      refine (saturating_succ h.total).trans ?_
      simp only [Bool.false_eq_true, if_false]
      omega

theorem FileView.Counted.absorb {view : FileView} (h : view.Counted) (is_directory : Bool) (attr : Attribute) :
    (view.absorb is_directory attr).Counted := by
  cases attr with
  | standard_information info => exact ⟨h.names, h.streams, h.total⟩
  | file_name attr => exact ⟨saturating_succ h.names, h.streams, h.total⟩
  | index_i30 size flags =>
    have hflags := add_i30_flags view.record size flags
    have hcounts : (view.record.add_i30 size flags).stream_count =
        (if view.record.has_i30_stream then view.record.stream_count else saturating_add16 view.record.stream_count 1) ∧
        (view.record.add_i30 size flags).total_stream_count = if view.record.has_i30_stream then
          view.record.total_stream_count else saturating_add16 view.record.total_stream_count 1 := by
      rw [FileRecord.add_i30]
      split <;> exact ⟨rfl, rfl⟩
    refine h.fill ?_ ?_ hcounts.1 hcounts.2
    · rw [hflags.1, hflags.2, FileView.default_slots]
      cases view.record.has_i30_stream <;> rfl
    · rw [FileRecord.add_i30]
      dsimp only
      split <;> rfl
  | default_data size flags =>
    have hflags := add_default_data_flags view.record size flags
    have hcounts : (view.record.add_default_data size flags).stream_count =
        (if view.record.has_default_data then view.record.stream_count else saturating_add16 view.record.stream_count 1) ∧
        (view.record.add_default_data size flags).total_stream_count = if view.record.has_default_data then
          view.record.total_stream_count else saturating_add16 view.record.total_stream_count 1 := by
      rw [FileRecord.add_default_data]
      split <;> exact ⟨rfl, rfl⟩
    refine h.fill ?_ ?_ hcounts.1 hcounts.2
    · rw [hflags.1, hflags.2, FileView.default_slots]
      cases view.record.has_default_data <;> cases view.record.has_i30_stream <;> rfl
    · rw [FileRecord.add_default_data]
      dsimp only
      split <;> rfl
  | named_data name size flags =>
    refine ⟨h.names, (saturating_succ h.streams).trans ?_, (saturating_succ h.total).trans ?_⟩
    · simp only [FileView.absorb, List.length_append, List.length_singleton]
      exact congrArg (min · 65535) (Nat.add_assoc _ _ _)
    · simp only [FileView.absorb, List.length_append, List.length_singleton]
      refine congrArg (min · 65535) ?_
      exact (Nat.add_right_comm _ _ _).trans (congrArg (· + _) (Nat.add_assoc _ _ _))
  | internal size flags reparse_tag =>
    refine ⟨h.names, h.streams, (saturating_succ h.total).trans ?_⟩
    simp only [FileView.absorb, List.length_append, List.length_singleton]
    exact congrArg (min · 65535) (Nat.add_assoc _ _ _)

theorem FileView.counted_absent (frs : UInt64) : (FileView.absent frs).Counted := by
  have hslots : (FileView.absent frs).default_slots = 0 := by
    have hflags : (FileView.absent frs).record.forensic_flags = 0b100000 := rfl
    rw [FileView.default_slots, FileRecord.has_default_data, FileRecord.has_i30_stream, hflags]
    rfl
  constructor
  · rfl
  · rw [hslots]
    rfl
  · rw [hslots]
    rfl

theorem counted_store_segment {table : FileTable} (h : ∀ frs, (table frs).Counted) (segment : Segment) (frs : UInt64) :
    (table.store_segment segment frs).Counted := by
  refine FileTable.store_segment_keeps ?_ ?_ ?_ ?_ h frs
  · intro view stamp h
    cases stamp <;> exact ⟨h.names, h.streams, h.total⟩
  · exact fun view attr _ h => h.absorb segment.is_directory attr
  · intro view is_directory h
    cases is_directory <;> exact ⟨h.names, h.streams, h.total⟩
  · exact fun view child_frs name_index h => ⟨h.names, h.streams, h.total⟩

end counts

section default_stream

/-- A segment brings unnamed data or a directory index. -/
def Segment.brings_data (self : Segment) : Bool := self.attributes.any Attribute.is_default_data

def Segment.brings_i30 (self : Segment) : Bool := self.attributes.any Attribute.is_i30

/-- The slot of the default stream is taken once: by the data, or by the directory index. -/
def FileView.one_default (self : FileView) : Prop :=
  ¬ (self.record.has_default_data = true ∧ self.record.has_i30_stream = true)

theorem absorb_flags (is_directory : Bool) (view : FileView) (attr : Attribute) :
    (view.absorb is_directory attr).record.has_default_data =
        (view.record.has_default_data || attr.is_default_data) ∧
      (view.absorb is_directory attr).record.has_i30_stream = (view.record.has_i30_stream || attr.is_i30) := by
  have hsame : ∀ {view' : FileView}, view'.record.forensic_flags = view.record.forensic_flags →
      view'.record.has_default_data = (view.record.has_default_data || false) ∧
        view'.record.has_i30_stream = (view.record.has_i30_stream || false) := by
    intro view' hflags
    rw [FileRecord.has_default_data, FileRecord.has_i30_stream, hflags, Bool.or_false, Bool.or_false]
    exact ⟨rfl, rfl⟩
  cases attr with
  | standard_information info => exact hsame rfl
  | file_name attr => exact hsame rfl
  | index_i30 size flags =>
    have hflags := add_i30_flags view.record size flags
    exact ⟨hflags.2.trans (Bool.or_false _).symm, hflags.1.trans (Bool.or_true _).symm⟩
  | default_data size flags =>
    have hflags := add_default_data_flags view.record size flags
    exact ⟨hflags.1.trans (Bool.or_true _).symm, hflags.2.trans (Bool.or_false _).symm⟩
  | named_data name size flags => exact hsame rfl
  | internal size flags reparse_tag => exact hsame rfl

theorem absorb_all_flags (is_directory : Bool) (attributes : List Attribute) (view : FileView) :
    (attributes.foldl (FileView.absorb is_directory) view).record.has_default_data =
        (view.record.has_default_data || attributes.any Attribute.is_default_data) ∧
      (attributes.foldl (FileView.absorb is_directory) view).record.has_i30_stream =
        (view.record.has_i30_stream || attributes.any Attribute.is_i30) := by
  induction attributes generalizing view with
  | nil => exact ⟨(Bool.or_false _).symm, (Bool.or_false _).symm⟩
  | cons attr attributes ih =>
    have hstep := absorb_flags is_directory view attr
    have hrest := ih (view.absorb is_directory attr)
    rw [List.foldl_cons, hrest.1, hrest.2, hstep.1, hstep.2, List.any_cons, List.any_cons, Bool.or_assoc, Bool.or_assoc]
    exact ⟨rfl, rfl⟩

theorem absorb_segment_flags (view : FileView) (segment : Segment) :
    (view.absorb_segment segment).record.has_default_data = (view.record.has_default_data || segment.brings_data) ∧
      (view.absorb_segment segment).record.has_i30_stream = (view.record.has_i30_stream || segment.brings_i30) := by
  have hopened : (view.record.stamp segment.stamp).forensic_flags = view.record.forensic_flags := by
    cases segment.stamp <;> rfl
  have hloop := absorb_all_flags segment.is_directory segment.attributes
    { view with present := true, record := view.record.stamp segment.stamp }
  have hmark : ∀ record : FileRecord, (record.mark_directory segment.is_directory).forensic_flags = record.forensic_flags := by
    intro record
    cases segment.is_directory <;> rfl
  rw [FileView.absorb_segment]
  rw [FileRecord.has_default_data, FileRecord.has_i30_stream, hmark]
  dsimp only [FileRecord.has_default_data, FileRecord.has_i30_stream] at hloop ⊢
  rw [hopened] at hloop
  exact hloop

end default_stream

/-- The streams of a record: the default one, when there is one, and the chain behind it. -/
def MftIndex.stream_refs (self : MftIndex) (record : FileRecord) : List (IndexNameRef × SizeInfo × UInt8) :=
  (if record.has_default_data || record.has_i30_stream then
    [(record.first_stream.name, record.first_stream.size, record.first_stream.flags)] else []) ++
    contents stream_cell NO_ENTRY self.streams record.first_stream.next_entry

/-- The arenas of an index whose volume's largest record number is `last`, after these buffers. -/
structure ArenaInvariant (last : Nat) (buffers : List Buffer) (index : MftIndex) : Prop where
  one_record : ∀ frs i, index.frs_to_idx_opt frs = some i ↔ ∃ record, index.records[i]? = some record ∧ record.frs = frs
  links : Threaded link_cell index.links (index.records.map fun record => record.first_name.next_entry)
  streams : Threaded stream_cell index.streams (index.records.map fun record => record.first_stream.next_entry)
  internals : Threaded internal_cell index.internal_streams (index.records.map FileRecord.first_internal_stream)
  children : Threaded child_cell index.children (index.records.map FileRecord.first_child)
  name_count : ∀ record ∈ index.records, record.name_count.toNat = min (index.link_refs record).length 65535
  stream_count : ∀ record ∈ index.records, record.stream_count.toNat = min (index.stream_refs record).length 65535
  total_stream_count : ∀ record ∈ index.records, record.total_stream_count.toNat =
    min ((index.stream_refs record).length + (index.internal_chain record).length) 65535
  names : index.view = parsed_files buffers
  lookup : index.frs_to_idx.length ≤ last + 1

/-- The buffer refers to records of the volume only, gives its file one kind of default stream, and the
vectors have room for it. -/
def Contained (last : Nat) (index : MftIndex) (buffer : Buffer) : Prop :=
  ∀ segment, buffer.segment? = some segment →
    (∀ frs ∈ segment.referenced, frs.toNat ≤ last) ∧
    ¬ (((index.view segment.base).record.has_default_data || segment.brings_data) = true ∧
      ((index.view segment.base).record.has_i30_stream || segment.brings_i30) = true) ∧
    Room index segment.size

/-- What a contained buffer keeps. -/
structure Tidy (last : Nat) (index : MftIndex) : Prop where
  wf : Wf index
  counted : ∀ frs, (index.view frs).Counted
  one_default : ∀ frs, (index.view frs).one_default
  lookup : index.frs_to_idx.length ≤ last + 1

theorem Tidy.empty (last : Nat) : Tidy last MftIndex.new where
  wf := Wf.empty
  counted frs := FileView.counted_absent frs
  one_default frs h := by
    have hflags : (MftIndex.new.view frs).record.forensic_flags = 0b100000 := rfl
    rw [FileRecord.has_default_data, hflags] at h
    exact absurd h.1 (by decide)
  lookup := Nat.zero_le _

theorem process_record_eq (env : Env) (index : MftIndex) (buffer : Buffer) :
    (process_record env buffer.data buffer.frs index).2 =
      match buffer.segment? with
      | none => index
      | some segment => index.store_segment env segment := by
  rw [process_record, Buffer.segment?]
  cases read_segment buffer.data buffer.frs <;> rfl

/-- One buffer: the invariant is kept, and the files become what the buffer says. -/
theorem Tidy.step (env : Env) {last : Nat} {index : MftIndex} (h : Tidy last index) {buffer : Buffer}
    (hok : Contained last index buffer) : Tidy last (process_record env buffer.data buffer.frs index).2 ∧
      (process_record env buffer.data buffer.frs index).2.view =
        (buffer.segment?.toList).foldl FileTable.store_segment index.view := by
  rw [process_record_eq]
  cases hsegment : buffer.segment? with
  | none => exact ⟨h, rfl⟩
  | some segment =>
    obtain ⟨hrefs, hone, hroom⟩ := hok segment hsegment
    have hstores := h.wf.store_segment_stores env segment (read_segment_short hsegment) hroom
    refine ⟨⟨hstores.wf, ?_, ?_, ?_⟩, hstores.view⟩
    · rw [hstores.view]
      exact counted_store_segment h.counted segment
    · intro frs
      rw [hstores.view]
      by_cases hframe : frs = segment.base
      · rw [hframe, FileTable.store_segment_own, FileView.one_default, (absorb_segment_flags _ segment).1,
          (absorb_segment_flags _ segment).2]
        exact hone
      · have hown := congrArg FileView.record (FileTable.store_segment_elsewhere index.view segment hframe)
        rw [FileView.one_default, show (FileTable.store_segment index.view segment frs).record = (index.view frs).record from hown]
        exact h.one_default frs
    · refine store_segment_lookup_le env h.lookup fun frs hfrs => ?_
      have hle := hrefs frs hfrs
      omega

/-- A contained run keeps the index tidy, and stores the segments of its buffers in turn. -/
theorem Tidy.run (env : Env) {last : Nat} {buffers : List Buffer} {index index' : MftIndex} (h : Tidy last index)
    (hmeets : Meets (parse_step env) (Contained last) index buffers)
    (hrun : run_events (parse_step env) index buffers = some index') : Tidy last index' ∧
      index'.view = (buffers.filterMap Buffer.segment?).foldl FileTable.store_segment index.view := by
  induction buffers generalizing index with
  | nil =>
    cases hrun
    exact ⟨h, rfl⟩
  | cons buffer buffers ih =>
    obtain ⟨mid, hmid, hrest⟩ := run_events_cons hrun
    obtain rfl := Option.some.inj hmid
    obtain ⟨htidy, hview⟩ := h.step env hmeets.1
    obtain ⟨htidy', hview'⟩ := ih htidy (hmeets.2 _ hmid) hrest
    refine ⟨htidy', hview'.trans ?_⟩
    rw [hview, List.filterMap_cons]
    cases buffer.segment? <;> rfl

/-- A tidy index has sound arenas. -/
theorem Tidy.arenas {last : Nat} {buffers : List Buffer} {index : MftIndex} (h : Tidy last index)
    (hview : index.view = parsed_files buffers) : ArenaInvariant last buffers index := by
  have hcounted : ∀ record ∈ index.records, (index.view_record record).Counted ∧ (index.view_record record).one_default := by
    intro record hmem
    obtain ⟨i, hrec⟩ := List.mem_iff_getElem?.mp hmem
    rw [← view_of_mapped (h.wf.found hrec) hrec]
    exact ⟨h.counted _, h.one_default _⟩
  have hstreams : ∀ record ∈ index.records,
      (index.stream_refs record).length = (index.view_record record).default_slots + (index.view_record record).streams.length := by
    intro record hmem
    have hone : ¬ (record.has_default_data = true ∧ record.has_i30_stream = true) := (hcounted record hmem).2
    have hdata : (index.view_record record).record.has_default_data = record.has_default_data := rfl
    have hi30 : (index.view_record record).record.has_i30_stream = record.has_i30_stream := rfl
    rw [FileView.default_slots, hdata, hi30, MftIndex.stream_refs, List.length_append, MftIndex.view_record, List.length_map]
    cases hdata : record.has_default_data with
    | false => cases record.has_i30_stream <;> rfl
    | true =>
      cases hi30 : record.has_i30_stream with
      | false => rfl
      | true => exact absurd ⟨hdata, hi30⟩ hone
  exact {
    one_record := fun frs i => by
      constructor
      · exact h.wf.mapped
      · rintro ⟨record, hrec, rfl⟩
        exact h.wf.found hrec
    links := h.wf.links
    streams := h.wf.streams
    internals := h.wf.internals
    children := h.wf.children
    name_count := fun record hmem => by
      have hnames := (hcounted record hmem).1.names
      rw [MftIndex.view_record] at hnames
      rwa [List.length_map] at hnames
    stream_count := fun record hmem => by
      rw [hstreams record hmem]
      exact (hcounted record hmem).1.streams
    total_stream_count := fun record hmem => by
      have hinternals : (index.internal_chain record).length = (index.view_record record).internals.length := by
        have hwalk := congrArg List.length (walk_chain_eq internal_cell index.internal_streams
          index.internal_streams.length record.first_internal_stream)
        exact hwalk.trans (@List.length_map _ _ _ internal_cell.payload).symm
      rw [hstreams record hmem, hinternals]
      exact (hcounted record hmem).1.total
    names := hview
    lookup := h.lookup }

/-- Every run of contained buffers builds sound arenas: each record number has one record, each entry
lies in one chain, the counts are those of the chains, and nothing that was parsed is lost. -/
theorem contained_run_arenas (env : Env) (last : Nat) {buffers : List Buffer} {index : MftIndex}
    (hmeets : Meets (parse_step env) (Contained last) MftIndex.new buffers)
    (hrun : run_events (parse_step env) MftIndex.new buffers = some index) : ArenaInvariant last buffers index := by
  obtain ⟨htidy, hview⟩ := (Tidy.empty last).run env hmeets hrun
  exact htidy.arenas (hview.trans (congrArg (List.foldl _ · _) (funext view_empty)))

section sample

open uffs.lib.bytes

/-- Bytes filled up with zeros. -/
def padded (len : Nat) (bytes : List UInt8) : List UInt8 := bytes ++ List.replicate (len - bytes.length) 0

/-- A resident attribute: its header, then the value. -/
def resident_attribute (type_code : UInt32) (value : List UInt8) : List UInt8 :=
  padded 16 (u32.to_bytes type_code ++ u32.to_bytes (UInt32.ofNat (24 + value.length))) ++
    padded 8 (u32.to_bytes (UInt32.ofNat value.length) ++ u16.to_bytes 24) ++ value

/-- A `$FILE_NAME` in the Win32 namespace. -/
def file_name_attribute (parent_frs : UInt64) (name : List UInt8) : List UInt8 :=
  resident_attribute FILE_NAME_TYPE
    (padded 64 (u64.to_bytes parent_frs) ++ [UInt8.ofNat name.length, 1] ++ name.flatMap fun byte => [byte, 0])

/-- A record in use with these attributes; `base` is zero for a base record. -/
def record_bytes (is_directory : Bool) (base : UInt64) (attributes : List (List UInt8)) : List UInt8 :=
  let body := attributes.flatten ++ u32.to_bytes END_MARKER ++ List.replicate 12 0
  padded 16 (u32.to_bytes FILE_RECORD_MAGIC) ++ u16.to_bytes 1 ++ u16.to_bytes 1 ++ u16.to_bytes 48 ++
    u16.to_bytes (if is_directory then 3 else 1) ++ u32.to_bytes (UInt32.ofNat (48 + body.length)) ++
    u32.to_bytes 1024 ++ u64.to_bytes base ++ padded 8 [] ++ body

/-- File 30 of the root directory, named `a`. -/
def file_30 : Buffer := ⟨30, record_bytes false 0 [file_name_attribute ROOT_FRS [97]]⟩

/-- The same file with record 100 as its parent. -/
def stray_30 : Buffer := ⟨30, record_bytes false 0 [file_name_attribute 100 [97]]⟩

end sample

/-- An extension record with a second name of file 30. -/
def link_31 : Buffer := ⟨31, record_bytes false 30 [file_name_attribute ROOT_FRS [98]]⟩

/-- The second name is chained behind the first. -/
theorem contained_run_arenas_linked : ∃ index, run_events (parse_step compact.sample_env) MftIndex.new [file_30, link_31] = some index ∧
    index.links.length = 1 ∧ ArenaInvariant 31 [file_30, link_31] index := by
  have hfirst : file_30.segment? = some { base := 30, stamp := some (1, 0), attributes := [.file_name
      { name := { display := ['a'], stored := [97] }, parent_frs := 5, name_space := 1, creation_time := 0,
        modification_time := 0, mft_change_time := 0, access_time := 0 }] } := by decide +kernel
  have hsecond : link_31.segment? = some { base := 30, stamp := none, attributes := [.file_name
      { name := { display := ['b'], stored := [98] }, parent_frs := 5, name_space := 1, creation_time := 0,
        modification_time := 0, mft_change_time := 0, access_time := 0 }] } := by decide +kernel
  have hrefs : ∀ frs ∈ ([30, 5] : List UInt64), frs.toNat ≤ 31 := by simp
  refine ⟨_, rfl, by decide +kernel, contained_run_arenas compact.sample_env 31 (Meets.cons ?_ rfl (Meets.cons ?_ rfl trivial)) rfl⟩
  · intro segment h
    obtain rfl := Option.some.inj (hfirst.symm.trans h)
    exact ⟨hrefs, by decide, fun arena => by cases arena <;> decide⟩
  · intro segment h
    obtain rfl := Option.some.inj (hsecond.symm.trans h)
    exact ⟨hrefs, by decide +kernel, fun arena => by cases arena <;> decide +kernel⟩

/-- On a volume whose largest record number is 30, the parent reference of one name makes the lookup
table hold 101 numbers. -/
theorem stray_parent_outgrows_volume : stray_30.frs.toNat ≤ 30 ∧
    ∃ index, run_events (parse_step compact.sample_env) MftIndex.new [stray_30] = some index ∧
      ¬ ArenaInvariant 30 [stray_30] index := by
  refine ⟨by decide, _, rfl, fun h => ?_⟩
  have hlen : (process_record compact.sample_env stray_30.data stray_30.frs MftIndex.new).2.frs_to_idx.length = 101 := by
    decide +kernel
  have hlookup := h.lookup
  rw [hlen] at hlookup
  exact absurd hlookup (by decide)

end uffs.mft
