import Uffs.Compact.Index
import Uffs.Lib.Arena
import Uffs.Mft.Segment

open uffs.lib uffs.lib.arena uffs.text uffs.bloom

namespace uffs.mft

/-- Name reference of `length` bytes at `offset`. -/
def IndexNameRef.new (offset : UInt32) (length : UInt16) (is_ascii : Bool) (extension_id : UInt16) : IndexNameRef where
  offset := offset
  bits :=
    let length_bits : UInt32 := length.toUInt32 &&& 0x3FF
    let flags_bits : UInt32 := if is_ascii then 0x400 else 0
    let ext_id_bits : UInt32 := extension_id.toUInt32 <<< 16
    length_bits ||| flags_bits ||| ext_id_bits

def is_ascii (text : Str) : Bool := text.all fun ch => ch.toNat < 128

/-- An empty index; extension id 0 stands for no extension. -/
def MftIndex.new : MftIndex := { extension_names := [[]] }

def MftIndex.modify_record (self : MftIndex) (ri : Nat) (f : FileRecord → FileRecord) : MftIndex :=
  { self with records := self.records.modify ri f }

/-- Record of `frs`, created when it is missing. The lookup table grows to hold the number. -/
def MftIndex.ensure_record (self : MftIndex) (frs : UInt64) : MftIndex × Nat :=
  let frs_usize := frs_to_usize frs
  let frs_to_idx := self.frs_to_idx ++ List.replicate (frs_usize + 1 - self.frs_to_idx.length) NO_ENTRY
  let idx := frs_to_idx.getD frs_usize NO_ENTRY
  if idx = NO_ENTRY then
    let new_idx := len_to_u32 self.records.length
    ({ self with
        frs_to_idx := frs_to_idx.set frs_usize new_idx
        records := self.records ++ [FileRecord.new_unified frs] }, new_idx.toNat)
  else ({ self with frs_to_idx := frs_to_idx }, idx.toNat)

/-- Find or append the extension; past the ceiling of the id space it falls back to 0. -/
def MftIndex.intern_extension (env : Env) (self : MftIndex) (filename : Str) : MftIndex × UInt16 :=
  match compact.normalized_ext env filename with
  | none => (self, 0)
  | some normalized =>
    match self.extension_names.idxOf? normalized with
    | some existing => (self, UInt16.ofNat existing)
    | none =>
      if self.extension_names.length < 0xFFFF then
        ({ self with extension_names := self.extension_names ++ [normalized] },
          UInt16.ofNat self.extension_names.length)
      else (self, 0)

/-- Append the bytes of a name and make its reference. -/
def MftIndex.store_name (env : Env) (self : MftIndex) (name : DecodedName) : MftIndex × IndexNameRef :=
  let name_off := len_to_u32 self.names.length
  let (index, ext_id) := MftIndex.intern_extension env { self with names := self.names ++ name.stored } name.display
  (index, .new name_off (len_to_u16 name.stored.length) (is_ascii name.display) ext_id)

/-- Move the first name of a record to the front of its link chain. -/
def MftIndex.push_link (self : MftIndex) (ri : Nat) : MftIndex :=
  match self.records[ri]? with
  | none => self
  | some record =>
    if record.first_name.name.is_valid then
      { self with links := self.links ++ [record.first_name] }.modify_record ri fun rec =>
        { rec with first_name := { rec.first_name with next_entry := len_to_u32 self.links.length } }
    else self

/-- Put a directory entry at the front of the parent's chain. -/
def MftIndex.push_child (self : MftIndex) (parent_frs child_frs : UInt64) (name_index : UInt16) : MftIndex :=
  let (index, parent_ri) := self.ensure_record parent_frs
  match index.records[parent_ri]? with
  | none => index
  | some parent =>
    let entry : ChildInfo := { next_entry := parent.first_child, child_frs := child_frs, name_index := name_index }
    { index with children := index.children ++ [entry] }.modify_record parent_ri fun rec =>
      { rec with first_child := len_to_u32 index.children.length }

/-- Namespace and times of the name that is now the first one. -/
def FileRecord.name_times (self : FileRecord) (attr : FileNameAttribute) : FileRecord :=
  { self with
    name_space := attr.name_space
    fn_created := attr.creation_time
    fn_modified := attr.modification_time
    fn_accessed := attr.access_time
    fn_mft_changed := attr.mft_change_time }

def FileRecord.put_first_name (self : FileRecord) (name : IndexNameRef) (parent_frs : UInt64) : FileRecord :=
  { self with first_name := { self.first_name with name := name, parent_frs := parent_frs } }

def FileRecord.count_name (self : FileRecord) : FileRecord :=
  { self with name_count := saturating_add16 self.name_count 1 }

/-- Directory entry of the name just stored, numbered by the names before it. The root is its own
parent and gets none. -/
def MftIndex.store_child (self : MftIndex) (frs_base : UInt64) (base_ri : Nat) (parent_frs : UInt64) : MftIndex :=
  if parent_frs ≠ frs_base ∧ parent_frs ≠ NO_ENTRY.toUInt64 then
    self.push_child parent_frs frs_base ((self.records[base_ri]?.map FileRecord.name_count).getD 0)
  else self

/-- A `$FILE_NAME`: the new name becomes the first one, and its parent gets an entry. -/
def MftIndex.store_file_name (env : Env) (self : MftIndex) (frs_base : UInt64) (base_ri : Nat)
    (attr : FileNameAttribute) : MftIndex :=
  let (index, name_ref) := (self.push_link base_ri).store_name env attr.name
  let index := index.modify_record base_ri fun rec => (rec.put_first_name name_ref attr.parent_frs).name_times attr
  let index := index.store_child frs_base base_ri attr.parent_frs
  index.modify_record base_ri FileRecord.count_name

def SizeInfo.saturating_add (self other : SizeInfo) : SizeInfo where
  length := saturating_add64 self.length other.length
  allocated := saturating_add64 self.allocated other.allocated

/-- One more stream is counted. -/
def FileRecord.count_stream (self : FileRecord) : FileRecord :=
  { self with
    stream_count := saturating_add16 self.stream_count 1
    total_stream_count := saturating_add16 self.total_stream_count 1 }

/-- `$I30`: a directory index, accumulated into the first stream and counted once. -/
def FileRecord.add_i30 (self : FileRecord) (size : SizeInfo) (flags : UInt8) : FileRecord :=
  let rec' :=
    if self.has_i30_stream then self
    else { self with forensic_flags := self.forensic_flags ||| 0b10000 }.count_stream
  { rec' with
    stdinfo := rec'.stdinfo.set_directory
    first_stream := { rec'.first_stream with flags := flags, size := rec'.first_stream.size.saturating_add size } }

/-- Unnamed `$DATA`: accumulated into the first stream and counted once. -/
def FileRecord.add_default_data (self : FileRecord) (size : SizeInfo) (flags : UInt8) : FileRecord :=
  let rec' := if self.has_default_data then self else self.count_stream
  { rec' with
    forensic_flags := rec'.forensic_flags ||| 0b1000
    first_stream := { rec'.first_stream with flags := flags, size := rec'.first_stream.size.saturating_add size } }

/-- Links of the stream chain; a stream carries its name, sizes and flags. -/
def stream_cell : Cell IndexStreamInfo (IndexNameRef × SizeInfo × UInt8) where
  next := IndexStreamInfo.next_entry
  set_next stream entry := { stream with next_entry := entry }
  payload stream := (stream.name, stream.size, stream.flags)
  next_set_next _ _ := rfl
  payload_set_next _ _ := rfl

def internal_cell : Cell InternalStreamInfo (SizeInfo × UInt8) where
  next := InternalStreamInfo.next_entry
  set_next stream entry := { stream with next_entry := entry }
  payload stream := (stream.size, stream.flags)
  next_set_next _ _ := rfl
  payload_set_next _ _ := rfl

/-- Write the link of the last cell of the chain that starts at `head`. -/
def link_tail {α β : Type} (cell : Cell α β) (table : List α) (head entry : UInt32) : List α :=
  table.modify (last_cell cell NO_ENTRY table table.length head).toNat (cell.set_next · entry)

/-- Named `$DATA`: appended to the stream chain. -/
def MftIndex.store_named_data (env : Env) (self : MftIndex) (base_ri : Nat) (name : DecodedName) (size : SizeInfo)
    (flags : UInt8) : MftIndex :=
  let (index, name_ref) := self.store_name env name
  let si := len_to_u32 index.streams.length
  let streams := index.streams ++ [{ size := size, name := name_ref, flags := flags }]
  match index.records[base_ri]? with
  | none => { index with streams := streams }
  | some record =>
    let old_next := record.first_stream.next_entry
    if old_next = NO_ENTRY then
      { index with streams := streams }.modify_record base_ri fun rec =>
        { rec with first_stream := { rec.first_stream with next_entry := si } }.count_stream
    else
      { index with streams := link_tail stream_cell streams old_next si }.modify_record base_ri FileRecord.count_stream

/-- Any other attribute: appended to the internal chain, summed up and counted. -/
def FileRecord.add_internal (self : FileRecord) (size : SizeInfo) (reparse_tag : Option UInt32) : FileRecord :=
  { self with
    internal_streams_size := saturating_add64 self.internal_streams_size size.length
    internal_streams_allocated := saturating_add64 self.internal_streams_allocated size.allocated
    total_stream_count := saturating_add16 self.total_stream_count 1
    reparse_tag := reparse_tag.getD self.reparse_tag }

def MftIndex.store_internal (self : MftIndex) (base_ri : Nat) (size : SizeInfo) (flags : UInt8)
    (reparse_tag : Option UInt32) : MftIndex :=
  let ist_idx := len_to_u32 self.internal_streams.length
  let internal_streams := self.internal_streams ++ [{ size := size, flags := flags }]
  match self.records[base_ri]? with
  | none => { self with internal_streams := internal_streams }
  | some record =>
    let head := record.first_internal_stream
    if head = NO_ENTRY then
      { self with internal_streams := internal_streams }.modify_record base_ri fun rec =>
        { rec with first_internal_stream := ist_idx }.add_internal size reparse_tag
    else
      { self with internal_streams := link_tail internal_cell internal_streams head ist_idx }.modify_record base_ri
        fun rec => rec.add_internal size reparse_tag

/-- The storing half of one turn of the attribute loop. -/
def MftIndex.store_attribute (env : Env) (frs_base : UInt64) (base_ri : Nat) (is_directory : Bool) (self : MftIndex)
    (attr : Attribute) : MftIndex :=
  match attr with
  | .standard_information info =>
    self.modify_record base_ri fun rec => { rec with stdinfo := if is_directory then info.set_directory else info }
  | .file_name attr => self.store_file_name env frs_base base_ri attr
  | .index_i30 size flags => self.modify_record base_ri fun rec => rec.add_i30 size flags
  | .default_data size flags => self.modify_record base_ri fun rec => rec.add_default_data size flags
  | .named_data name size flags => self.store_named_data env base_ri name size flags
  | .internal size flags reparse_tag => self.store_internal base_ri size flags reparse_tag

def FileRecord.stamp (self : FileRecord) (stamp : Option (UInt16 × UInt64)) : FileRecord :=
  match stamp with
  | none => self
  | some (sequence_number, lsn) => { self with sequence_number := sequence_number, lsn := lsn }

def FileRecord.mark_directory (self : FileRecord) (is_directory : Bool) : FileRecord :=
  if is_directory then { self with stdinfo := self.stdinfo.set_directory } else self

def MftIndex.store_segment (env : Env) (self : MftIndex) (segment : Segment) : MftIndex :=
  let (index, base_ri) := self.ensure_record segment.base
  let index := index.modify_record base_ri fun rec => rec.stamp segment.stamp
  let index := segment.attributes.foldl (MftIndex.store_attribute env segment.base base_ri segment.is_directory) index
  index.modify_record base_ri fun rec => rec.mark_directory segment.is_directory

/-- Parse one record, base or extension, into the index; `false` for a buffer that is no record in use. -/
def process_record (env : Env) (data : List UInt8) (frs : UInt64) (index : MftIndex) : Bool × MftIndex :=
  match read_segment data frs with
  | none => (false, index)
  | some segment => (true, index.store_segment env segment)

end uffs.mft
