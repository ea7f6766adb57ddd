import Uffs.Mft.FileView

open uffs.lib uffs.lib.arena uffs.text uffs.bloom

namespace uffs.mft

/-! Every operation of the parser on its index is the operation of the same name on the table of files. -/

/-- The step keeps the index well formed, shows as the table, and moves no record. -/
structure Stores (index next : MftIndex) (table : FileTable) : Prop where
  wf : Wf next
  view : next.view = table
  kept : ∀ {frs i}, index.frs_to_idx_opt frs = some i → next.frs_to_idx_opt frs = some i

variable {index : MftIndex}

theorem Stores.trans {middle next : MftIndex} {table table' : FileTable} (h : Stores index middle table)
    (h' : Stores middle next table') : Stores index next table' :=
  ⟨h'.wf, h'.view, fun hmap => h'.kept (h.kept hmap)⟩

section thread

variable {α β : Type} {cell : Cell α β} {table : List α} {records : List FileRecord} {head : FileRecord → UInt32}
  {i : Nat} {record : FileRecord} {item : α}

section

variable (h : Threaded cell table (records.map head))

include h

theorem Threaded.path (hrec : records[i]? = some record) :
    ∃ paths ids, Threads cell NO_ENTRY table (records.map head) paths ∧ paths[i]? = some ids ∧
      (records.map head)[i]? = some (head record) ∧ Chain cell NO_ENTRY table (head record) ids := by
  obtain ⟨paths, hthreads⟩ := h
  have hhead : (records.map head)[i]? = some (head record) := by rw [List.getElem?_map, hrec]; rfl
  obtain ⟨ids, hids, hchain⟩ := hthreads.chain hhead
  exact ⟨paths, ids, hthreads, hids, hhead, hchain⟩

theorem Threaded.chain (hrec : records[i]? = some record) : ∃ ids, Chain cell NO_ENTRY table (head record) ids := by
  obtain ⟨_, ids, _, _, _, hchain⟩ := h.path hrec
  exact ⟨ids, hchain⟩

theorem Threaded.modify {f : FileRecord → FileRecord} (hf : ∀ record, head (f record) = head record) :
    Threaded cell table ((records.modify i f).map head) := by
  rw [map_modify_eq records i hf]
  exact h

end

theorem entry_of_room (hroom : table.length < NO_ENTRY.toNat) :
    len_to_u32 table.length ≠ NO_ENTRY ∧ (len_to_u32 table.length).toNat = table.length := by
  have hsize : NO_ENTRY.toNat < UInt32.size := NO_ENTRY.toNat_lt_size
  exact ⟨len_to_u32_ne_no_entry hroom, len_to_u32_toNat (by omega)⟩

/-- A new entry in front of one record's chain. -/
theorem Threaded.push_front (h : Threaded cell table (records.map head)) (hrec : records[i]? = some record)
    (hnext : cell.next item = head record) (hroom : table.length < NO_ENTRY.toNat) {f : FileRecord → FileRecord}
    (hf : head (f record) = len_to_u32 table.length) :
    Threaded cell (table ++ [item]) ((records.modify i f).map head) := by
  obtain ⟨paths, ids, hthreads, hids, _, hchain⟩ := h.path hrec
  obtain ⟨hentry, hlen⟩ := entry_of_room hroom
  rw [map_modify_set hrec, hf]
  exact ⟨_, hthreads.push_front hids hchain hnext hentry hlen⟩

/-- A chain that is not empty has a last entry, and that is the one whose link is written. -/
theorem link_tail_eq {entry : UInt32} {ids : List Nat} (h : Chain cell NO_ENTRY table entry ids)
    (hentry : entry ≠ NO_ENTRY) (link : UInt32) : ∃ front at_id, ids = front ++ [at_id] ∧
      link_tail cell (table ++ [item]) entry link = table.modify at_id (cell.set_next · link) ++ [item] := by
  have hne : ids ≠ [] := by
    intro hnil
    rw [hnil] at h
    cases h
    exact hentry rfl
  refine ⟨ids.dropLast, ids.getLast hne, (List.dropLast_append_getLast hne).symm, ?_⟩
  have hchain := h.append [item]
  have hlen := h.length_le
  rw [← List.dropLast_append_getLast hne] at hchain
  have hlast := @Chain.last_cell_eq _ _ _ _ _ _ _ (table.length + 1) _ hchain (by rw [List.length_dropLast]; omega)
  have hlt := h.lt_length _ (List.getLast_mem hne)
  rw [link_tail, List.length_append, List.length_singleton, hlast]
  refine List.ext_getElem? fun j => ?_
  rw [List.getElem?_modify]
  by_cases hj : j < table.length
  · rw [List.getElem?_append_left hj, List.getElem?_append_left (by simpa using hj), List.getElem?_modify]
  · rw [List.getElem?_append_right (by omega), List.getElem?_append_right (by simpa using hj), List.length_modify]
    have hother : ids.getLast hne ≠ j := by omega
    simp [hother]

section

variable (h : Threaded cell table (records.map head)) (hrec : records[i]? = some record)

include h hrec

/-- A new entry behind the last one of a record's chain. -/
theorem Threaded.push_back (hhead : head record ≠ NO_ENTRY) (hnext : cell.next item = NO_ENTRY)
    (hroom : table.length < NO_ENTRY.toNat) :
    Threaded cell (link_tail cell (table ++ [item]) (head record) (len_to_u32 table.length)) (records.map head) := by
  obtain ⟨paths, ids, hthreads, hids, hheads, hchain⟩ := h.path hrec
  obtain ⟨hentry, hlen⟩ := entry_of_room hroom
  obtain ⟨front, at_id, rfl, htail⟩ := @link_tail_eq _ _ _ _ item _ _ hchain hhead (len_to_u32 table.length)
  rw [htail]
  exact ⟨_, hthreads.push_back hids hheads hchain hnext hentry hlen⟩

/-- What a chain carries is not changed by an entry for another record. -/
theorem Threaded.contents_other {j : Nat} {other : FileRecord} (hother : records[j]? = some other) (hne : j ≠ i)
    (hhead : head record ≠ NO_ENTRY) (link : UInt32) :
    contents cell NO_ENTRY (link_tail cell (table ++ [item]) (head record) link) (head other) =
      contents cell NO_ENTRY table (head other) := by
  obtain ⟨paths, ids, hthreads, hids, _, hchain⟩ := h.path hrec
  obtain ⟨others, hothers, hchain'⟩ := hthreads.chain (show (records.map head)[j]? = some (head other) by
    rw [List.getElem?_map, hother]; rfl)
  obtain ⟨front, at_id, rfl, htail⟩ := @link_tail_eq _ _ _ _ item _ _ hchain hhead link
  rw [htail]
  refine hchain'.contents_modify (fun hmem => ?_) link [item]
  exact hthreads.disjoint hids hothers (Ne.symm hne) (List.mem_append_right _ List.mem_cons_self) hmem

theorem Threaded.contents_append (more : List α) :
    contents cell NO_ENTRY (table ++ more) (head record) = contents cell NO_ENTRY table (head record) := by
  obtain ⟨ids, hchain⟩ := h.chain hrec
  exact hchain.contents_append more

end

theorem Threaded.contents_push_front (h : Threaded cell table (records.map head)) (hrec : records[i]? = some record)
    (hnext : cell.next item = head record) (hroom : table.length < NO_ENTRY.toNat) :
    contents cell NO_ENTRY (table ++ [item]) (len_to_u32 table.length) =
      cell.payload item :: contents cell NO_ENTRY table (head record) := by
  obtain ⟨ids, hchain⟩ := h.chain hrec
  obtain ⟨hentry, hlen⟩ := entry_of_room hroom
  exact hchain.contents_push_front hnext hentry hlen

theorem Threaded.contents_push_back (h : Threaded cell table (records.map head)) (hrec : records[i]? = some record)
    (hhead : head record ≠ NO_ENTRY) (hnext : cell.next item = NO_ENTRY) (hroom : table.length < NO_ENTRY.toNat) :
    contents cell NO_ENTRY (link_tail cell (table ++ [item]) (head record) (len_to_u32 table.length)) (head record) =
      contents cell NO_ENTRY table (head record) ++ [cell.payload item] := by
  obtain ⟨ids, hchain⟩ := h.chain hrec
  obtain ⟨hentry, hlen⟩ := entry_of_room hroom
  obtain ⟨front, at_id, rfl, htail⟩ := @link_tail_eq _ _ _ _ item _ _ hchain hhead (len_to_u32 table.length)
  rw [htail]
  exact hchain.contents_push_back hnext hentry hlen

/-- A chain with an entry behind its last one: the table, and the head. -/
def chain_append (cell : Cell α β) (table : List α) (head : UInt32) (item : α) : List α × UInt32 :=
  if head = NO_ENTRY then (table ++ [item], len_to_u32 table.length)
  else (link_tail cell (table ++ [item]) head (len_to_u32 table.length), head)

/-- Writing a link changes no payload. -/
theorem mem_chain_append {entry : UInt32} {a : α} (h : a ∈ (chain_append cell table entry item).1) :
    ∃ old ∈ table ++ [item], cell.payload a = cell.payload old := by
  rw [chain_append] at h
  split at h
  · exact ⟨a, h, rfl⟩
  · cases mem_modify h with
    | inl hold => exact ⟨a, hold, rfl⟩
    | inr hnew =>
      obtain ⟨old, hold, rfl⟩ := hnew
      exact ⟨old, List.mem_of_getElem? hold, cell.payload_set_next _ _⟩

theorem Threaded.append (h : Threaded cell table (records.map head)) (hrec : records[i]? = some record)
    (hnext : cell.next item = NO_ENTRY) (hroom : table.length < NO_ENTRY.toNat) {f : FileRecord → FileRecord}
    (hf : head (f record) = (chain_append cell table (head record) item).2) :
    Threaded cell (chain_append cell table (head record) item).1 ((records.modify i f).map head) := by
  rw [chain_append] at hf ⊢
  split at hf
  next hempty =>
    rw [if_pos hempty]
    exact h.push_front hrec (hnext.trans hempty.symm) hroom hf
  next hmore =>
    have hset : (records.modify i f).map head = records.map head := by
      rw [map_modify_set hrec, hf, ← List.getElem?_eq_some_iff.mp (show (records.map head)[i]? = some (head record) by
        rw [List.getElem?_map, hrec]; rfl) |>.2, List.set_getElem_self]
    rw [if_neg hmore, hset]
    exact h.push_back hrec hmore hnext hroom

theorem Threaded.contents_append_self (h : Threaded cell table (records.map head)) (hrec : records[i]? = some record)
    (hnext : cell.next item = NO_ENTRY) (hroom : table.length < NO_ENTRY.toNat) :
    contents cell NO_ENTRY (chain_append cell table (head record) item).1 (chain_append cell table (head record) item).2 =
      contents cell NO_ENTRY table (head record) ++ [cell.payload item] := by
  rw [chain_append]
  split
  next hempty =>
    have hnil : contents cell NO_ENTRY table NO_ENTRY = [] := by
      rw [Chain.contents_eq .nil]
      rfl
    rw [h.contents_push_front hrec (hnext.trans hempty.symm) hroom, hempty, hnil]
    rfl
  next hmore => exact h.contents_push_back hrec hmore hnext hroom

theorem Threaded.contents_append_other (h : Threaded cell table (records.map head)) {j : Nat} {other : FileRecord}
    (hrec : records[i]? = some record) (hother : records[j]? = some other) (hne : j ≠ i) :
    contents cell NO_ENTRY (chain_append cell table (head record) item).1 (head other) =
      contents cell NO_ENTRY table (head other) := by
  rw [chain_append]
  split
  next hempty => exact h.contents_append hother [item]
  next hmore => exact h.contents_other hrec hother hne hmore _

end thread

theorem and_0x3FF_toNat (a : UInt32) : (a &&& (0x3FF : UInt32)).toNat = a.toNat % 2 ^ 10 := by
  rw [UInt32.toNat_and]
  exact Nat.and_two_pow_sub_one_eq_mod a.toNat 10

/-- The flag and extension bits stand above the ten bits of the length. -/
theorem IndexNameRef.length_new (offset : UInt32) {length : UInt16} (hlen : length.toNat < 1024) (is_ascii : Bool)
    (extension_id : UInt16) : (IndexNameRef.new offset length is_ascii extension_id).length = length := by
  have hflags : (if is_ascii then 0x400 else 0 : UInt32).toNat % 2 ^ 10 = 0 := by cases is_ascii <;> rfl
  have hext : (extension_id.toUInt32 <<< (16 : UInt32)).toNat % 2 ^ 10 = 0 := by
    rw [UInt32.toNat_shiftLeft]
    have h16 : (16 : UInt32).toNat % 32 = 16 := rfl
    rw [h16, Nat.shiftLeft_eq]
    omega
  have hbits : (IndexNameRef.new offset length is_ascii extension_id).bits.toNat % 2 ^ 10 = length.toNat := by
    rw [IndexNameRef.new]
    rw [UInt32.toNat_or, UInt32.toNat_or, Nat.or_mod_two_pow, Nat.or_mod_two_pow, hflags, hext, and_0x3FF_toNat,
      UInt16.toNat_toUInt32, Nat.or_zero, Nat.or_zero]
    omega
  refine UInt16.toNat_inj.mp ?_
  rw [IndexNameRef.length, UInt32.toNat_toUInt16, and_0x3FF_toNat, hbits]
  omega

variable {name : IndexNameRef}

theorem MftIndex.holds_name.append (h : index.holds_name name) (more : List UInt8) (names : List Str) :
    MftIndex.holds_name { index with names := index.names ++ more, extension_names := names } name := by
  refine ⟨h.1, ?_⟩
  have hlen := h.2
  rw [List.length_append]
  omega

theorem get_name_bytes_append (h : index.holds_name name) (more : List UInt8) (extension_names : List Str) :
    MftIndex.get_name_bytes { index with names := index.names ++ more, extension_names := extension_names } name =
      index.get_name_bytes name := by
  rw [MftIndex.get_name_bytes, MftIndex.get_name_bytes, if_pos h.1, if_pos h.1]
  rw [slice?_append h.2]

theorem intern_extension_eq (env : Env) (index : MftIndex) (filename : Str) : ∃ extension_names extension_id,
    index.intern_extension env filename = ({ index with extension_names := extension_names }, extension_id) := by
  rw [MftIndex.intern_extension]
  split
  · exact ⟨index.extension_names, _, rfl⟩
  · split
    · exact ⟨index.extension_names, _, rfl⟩
    · split
      · exact ⟨_, _, rfl⟩
      · exact ⟨index.extension_names, _, rfl⟩

/-- Storing a name extends the blob and the extension table and nothing else. -/
theorem store_name_eq (env : Env) (index : MftIndex) (name : DecodedName) : ∃ extension_names extension_id,
    index.store_name env name =
      ({ index with names := index.names ++ name.stored, extension_names := extension_names },
        .new (len_to_u32 index.names.length) (len_to_u16 name.stored.length) (is_ascii name.display) extension_id) := by
  obtain ⟨extension_names, extension_id, hintern⟩ :=
    intern_extension_eq env { index with names := index.names ++ name.stored } name.display
  refine ⟨extension_names, extension_id, ?_⟩
  rw [MftIndex.store_name, hintern]

section name

variable {name : DecodedName} (hshort : name.stored.length < 1024)
  (hroom : index.names.length < NO_ENTRY.toNat) (extension_names : List Str) (ascii : Bool) (extension_id : UInt16)
include hshort hroom

theorem holds_new_name :
    MftIndex.holds_name { index with names := index.names ++ name.stored, extension_names := extension_names }
      (.new (len_to_u32 index.names.length) (len_to_u16 name.stored.length) ascii extension_id) := by
  obtain ⟨hentry, hlen⟩ := entry_of_room hroom
  have hsize : UInt16.size = 65536 := rfl
  have hstored : (len_to_u16 name.stored.length).toNat = name.stored.length := len_to_u16_toNat (by omega)
  refine ⟨bne_iff_ne.mpr hentry, ?_⟩
  rw [IndexNameRef.length_new _ (by omega), hstored, List.length_append]
  exact Nat.add_le_add_right (Nat.le_of_eq hlen) _

theorem get_new_name :
    MftIndex.get_name_bytes { index with names := index.names ++ name.stored, extension_names := extension_names }
      (.new (len_to_u32 index.names.length) (len_to_u16 name.stored.length) ascii extension_id) = name.stored := by
  obtain ⟨hentry, hlen⟩ := entry_of_room hroom
  have hsize : UInt16.size = 65536 := rfl
  have hstored : (len_to_u16 name.stored.length).toNat = name.stored.length := len_to_u16_toNat (by omega)
  have hvalid := (holds_new_name hshort hroom extension_names ascii extension_id).1
  rw [MftIndex.get_name_bytes, if_pos hvalid, IndexNameRef.length_new _ (by omega), hstored]
  rw [show (IndexNameRef.new (len_to_u32 index.names.length) (len_to_u16 name.stored.length) ascii extension_id).offset =
    len_to_u32 index.names.length from rfl, hlen, slice?_append_right]
  rfl

end name

theorem frs_to_idx_opt_eq {next : MftIndex} (hmap : next.frs_to_idx = index.frs_to_idx) (frs : UInt64) :
    next.frs_to_idx_opt frs = index.frs_to_idx_opt frs := by
  rw [MftIndex.frs_to_idx_opt, MftIndex.frs_to_idx_opt, hmap]

variable {record : FileRecord} {i : Nat}

section step

variable (hwf : Wf index)
include hwf

theorem Wf.holds_link_ref (hrec : index.records[i]? = some record)
    {pair : IndexNameRef × UInt64} (h : pair ∈ index.link_refs record) : index.holds_name pair.1 := by
  cases List.mem_append.mp h with
  | inl hfirst =>
    split at hfirst
    next hvalid =>
      rw [List.mem_singleton.mp hfirst]
      exact hwf.first_names record (List.mem_of_getElem? hrec) hvalid
    next => cases hfirst
  | inr hmore =>
    obtain ⟨link, hlink, rfl⟩ := List.mem_map.mp hmore
    exact hwf.link_names link (mem_walk hlink)

theorem Wf.holds_stream_ref {head : UInt32} {row : IndexNameRef × SizeInfo × UInt8}
    (h : row ∈ contents stream_cell NO_ENTRY index.streams head) : index.holds_name row.1 := by
  obtain ⟨stream, hstream, rfl⟩ := List.mem_map.mp h
  exact hwf.stream_names stream (mem_walk hstream)

/-- A step that touches no record and leaves what is read of each. -/
theorem Wf.view_same {next : MftIndex} (hopt : ∀ frs, next.frs_to_idx_opt frs = index.frs_to_idx_opt frs)
    (hrecords : next.records = index.records)
    (hview : ∀ (i : Nat) record, index.records[i]? = some record → next.view_record record = index.view_record record) :
    next.view = index.view := by
  funext frs
  cases hidx : index.frs_to_idx_opt frs with
  | none => rw [view_of_unmapped hidx, view_of_unmapped ((hopt frs).trans hidx)]
  | some i =>
    obtain ⟨record, hrec, _⟩ := hwf.mapped hidx
    rw [view_of_mapped hidx hrec, view_of_mapped ((hopt frs).trans hidx) (hrecords ▸ hrec), hview i record hrec]

/-- More bytes behind the names change nothing that is read. -/
theorem Wf.grow_names (more : List UInt8) (names : List Str) :
    Stores index { index with names := index.names ++ more, extension_names := names } index.view where
  wf :=
    { hwf with
      first_names := fun record hrec hvalid => (hwf.first_names record hrec hvalid).append more names
      link_names := fun link hlink => (hwf.link_names link hlink).append more names
      stream_names := fun stream hstream => (hwf.stream_names stream hstream).append more names }
  view := by
    refine hwf.view_same (fun _ => rfl) rfl fun i record hrec => ?_
    rw [MftIndex.view_record, MftIndex.view_record]
    congr 1
    · refine List.map_congr_left fun pair hpair => ?_
      exact congrArg (·, pair.2) (get_name_bytes_append (hwf.holds_link_ref hrec hpair) more names)
    · refine List.map_congr_left fun row hrow => ?_
      exact congrArg (·, row.2) (get_name_bytes_append (hwf.holds_stream_ref hrow) more names)
  kept hmap := hmap

variable (next : MftIndex) {ri : Nat} {f : FileRecord → FileRecord} (hframe : ∀ record, (f record).frs = record.frs)
  (hrecords : next.records = index.records.modify ri f) (hmap : next.frs_to_idx = index.frs_to_idx)
include hframe hrecords hmap

theorem Wf.mapped_modify {frs : UInt64} (h : next.frs_to_idx_opt frs = some i) :
    ∃ record, next.records[i]? = some record ∧ record.frs = frs := by
  rw [frs_to_idx_opt_eq hmap] at h
  obtain ⟨record, hrec, hfrs⟩ := hwf.mapped h
  rw [hrecords, List.getElem?_modify, hrec]
  by_cases hi : ri = i
  · exact ⟨f record, by simp [hi], (hframe record).trans hfrs⟩
  · exact ⟨record, by simp [hi], hfrs⟩

theorem Wf.found_modify (h : next.records[i]? = some record) :
    next.frs_to_idx_opt record.frs = some i := by
  rw [frs_to_idx_opt_eq hmap]
  rw [hrecords, List.getElem?_modify] at h
  obtain ⟨old, hold, rfl⟩ := Option.map_eq_some_iff.mp h
  by_cases hi : ri = i
  · rw [if_pos hi, hframe]
    exact hwf.found hold
  · rw [if_neg hi]
    exact hwf.found hold

end step

section first_name

variable (hwf : Wf index) {f : FileRecord → FileRecord} {ri : Nat}
  (hname : ∀ record, (f record).first_name = record.first_name)
include hwf hname

theorem Wf.unnamed_modify (record : FileRecord) (hmem : record ∈ index.records.modify ri f)
    (hvalid : record.first_name.name.is_valid = false) : record.first_name.next_entry = NO_ENTRY := by
  cases mem_modify hmem with
  | inl hold => exact hwf.unnamed record hold hvalid
  | inr hnew =>
    obtain ⟨old, hold, rfl⟩ := hnew
    rw [hname] at hvalid ⊢
    exact hwf.unnamed old (List.mem_of_getElem? hold) hvalid

theorem Wf.first_names_modify (record : FileRecord) (hmem : record ∈ index.records.modify ri f)
    (hvalid : record.first_name.name.is_valid = true) : index.holds_name record.first_name.name := by
  cases mem_modify hmem with
  | inl hold => exact hwf.first_names record hold hvalid
  | inr hnew =>
    obtain ⟨old, hold, rfl⟩ := hnew
    rw [hname] at hvalid ⊢
    exact hwf.first_names old (List.mem_of_getElem? hold) hvalid

end first_name

/-- A change of a record that keeps its number, its first name and the heads of its chains. -/
structure Flat (f : FileRecord → FileRecord) : Prop where
  frs : ∀ record, (f record).frs = record.frs
  first_name : ∀ record, (f record).first_name = record.first_name
  next_stream : ∀ record, (f record).first_stream.next_entry = record.first_stream.next_entry
  first_internal_stream : ∀ record, (f record).first_internal_stream = record.first_internal_stream
  first_child : ∀ record, (f record).first_child = record.first_child
  blank : ∀ record, (f record).blank = f record.blank

theorem getElem?_modify_self {α : Type} {table : List α} {a : α} (h : table[i]? = some a) (f : α → α) :
    (table.modify i f)[i]? = some (f a) := by
  rw [List.getElem?_modify_eq, h]
  rfl

theorem getElem?_modify_other {α : Type} {table : List α} {j : Nat} {a : α} (h : table[j]? = some a) (hne : j ≠ i)
    (f : α → α) : (table.modify i f)[j]? = some a := by
  rw [List.getElem?_modify_ne _ _ (Ne.symm hne), h]

section record

variable (hwf : Wf index) {base : UInt64} {ri : Nat}
  (hbase : index.frs_to_idx_opt base = some ri) (hrec : index.records[ri]? = some record)
include hwf hbase hrec

theorem Wf.modify_flat {f : FileRecord → FileRecord} (hf : Flat f) :
    Stores index (index.modify_record ri f) (FileTable.modify index.view base f) where
  wf :=
    { mapped := hwf.mapped_modify (index.modify_record ri f) hf.frs rfl rfl
      found := hwf.found_modify (index.modify_record ri f) hf.frs rfl rfl
      links := hwf.links.modify fun record => congrArg LinkInfo.next_entry (hf.first_name record)
      streams := hwf.streams.modify hf.next_stream
      internals := hwf.internals.modify hf.first_internal_stream
      children := hwf.children.modify hf.first_child
      unnamed := hwf.unnamed_modify hf.first_name
      first_names := hwf.first_names_modify hf.first_name
      link_names := hwf.link_names
      stream_names := hwf.stream_names }
  view := by
    rw [hwf.view_update (index.modify_record ri f) (frs_to_idx_opt_eq rfl) hbase (getElem?_modify_self hrec f)
      fun j record hne hrec => ⟨getElem?_modify_other hrec hne f, rfl⟩]
    rw [FileTable.modify, view_of_mapped hbase hrec]
    congr 1
    rw [MftIndex.view_record, MftIndex.view_record, MftIndex.link_refs, MftIndex.link_refs, hf.blank, hf.first_name,
      hf.next_stream, hf.first_internal_stream, hf.first_child]
    rfl
  kept h := h

/-- The first name is doubled: it stays in front and is pushed behind itself. -/
theorem Wf.push_link_stores (hroom : index.links.length < NO_ENTRY.toNat) :
    Stores index (index.push_link ri) (Function.update index.view base
      { index.view base with links := (index.view base).links.head?.toList ++ (index.view base).links }) := by
  have hview := view_of_mapped hbase hrec
  rw [MftIndex.push_link, hrec]
  dsimp only
  split
  next hvalid =>
    let push : FileRecord → FileRecord := fun rec =>
      { rec with first_name := { rec.first_name with next_entry := len_to_u32 index.links.length } }
    let next := MftIndex.modify_record { index with links := index.links ++ [record.first_name] } ri push
    have hframe : ∀ record, (push record).frs = record.frs := fun _ => rfl
    have hpushed := getElem?_modify_self hrec push
    have hthreads : Threaded link_cell next.links (next.records.map fun record => record.first_name.next_entry) :=
      @Threaded.push_front _ _ _ _ _ (fun record => record.first_name.next_entry) _ _ record.first_name
        hwf.links hrec rfl hroom push rfl
    show Stores index next _
    refine ⟨?_, ?_, fun h => h⟩
    · exact {
        mapped := hwf.mapped_modify next hframe rfl rfl
        found := hwf.found_modify next hframe rfl rfl
        links := hthreads
        streams := hwf.streams.modify fun _ => rfl
        internals := hwf.internals.modify fun _ => rfl
        children := hwf.children.modify fun _ => rfl
        unnamed := fun changed hmem hinvalid => by
          cases mem_modify hmem with
          | inl hold => exact hwf.unnamed changed hold hinvalid
          | inr hnew =>
            obtain ⟨old, hold, rfl⟩ := hnew
            obtain rfl := Option.some.inj (hrec.symm.trans hold)
            exact absurd (hvalid.symm.trans hinvalid) (by decide)
        first_names := fun changed hmem hvalid => by
          cases mem_modify hmem with
          | inl hold => exact hwf.first_names changed hold hvalid
          | inr hnew =>
            obtain ⟨old, hold, rfl⟩ := hnew
            exact hwf.first_names old (List.mem_of_getElem? hold) hvalid
        link_names := fun link hmem => by
          cases List.mem_append.mp hmem with
          | inl hold => exact hwf.link_names link hold
          | inr hnew =>
            rw [List.mem_singleton.mp hnew]
            exact hwf.first_names record (List.mem_of_getElem? hrec) hvalid
        stream_names := hwf.stream_names }
    · rw [hwf.view_update next (frs_to_idx_opt_eq rfl) hbase hpushed fun j other hne hother =>
        ⟨getElem?_modify_other hother hne push, ?_⟩]
      · have hrefs : next.link_refs (push record) =
            (record.first_name.name, record.first_name.parent_frs) :: index.link_refs record := by
          have hcontents := @Threaded.contents_push_front _ _ _ _ _ (fun record => record.first_name.next_entry) _ _
            record.first_name hwf.links hrec rfl hroom
          rw [MftIndex.link_refs, MftIndex.link_refs, if_pos hvalid]
          exact congrArg (List.cons _) hcontents
        rw [hview, MftIndex.view_record, MftIndex.view_record, hrefs]
        have hhead : (index.link_refs record).head? = some (record.first_name.name, record.first_name.parent_frs) := by
          rw [MftIndex.link_refs, if_pos hvalid]
          rfl
        rw [List.head?_map, hhead]
        rfl
      · have hcontents := hwf.links.contents_append hother [record.first_name]
        rw [MftIndex.view_record, MftIndex.view_record, MftIndex.link_refs, MftIndex.link_refs]
        exact congrArg (fun more => FileView.mk true other.blank (List.map _ (_ ++ more)) _ _ _) hcontents
  next hinvalid =>
    have hnone := hwf.unnamed record (List.mem_of_getElem? hrec) (Bool.eq_false_iff.mpr hinvalid)
    have hlinks : (index.view base).links = [] := by
      rw [hview, MftIndex.view_record, MftIndex.link_refs, if_neg hinvalid, hnone, List.nil_append]
      rw [Chain.contents_eq .nil]
      rfl
    have hsame : ({ index.view base with links := (index.view base).links.head?.toList ++ (index.view base).links } :
        FileView) = index.view base := by
      rw [hlinks]
      exact FileView.ext rfl rfl hlinks.symm rfl rfl rfl
    rw [hsame, Function.update_eq_self]
    exact ⟨hwf, rfl, fun h => h⟩

/-- A stored name takes the place of the first one. -/
theorem Wf.set_first_name (hname : index.holds_name name) (parent_frs : UInt64) :
    Stores index (index.modify_record ri fun rec => rec.put_first_name name parent_frs)
      (Function.update index.view base
        { index.view base with
          links := (index.get_name_bytes name, parent_frs) :: (index.view base).links.tail }) := by
  let put : FileRecord → FileRecord := fun rec => rec.put_first_name name parent_frs
  let next := index.modify_record ri put
  have hframe : ∀ record, (put record).frs = record.frs := fun _ => rfl
  show Stores index next _
  refine ⟨?_, ?_, fun h => h⟩
  · exact {
      mapped := hwf.mapped_modify next hframe rfl rfl
      found := hwf.found_modify next hframe rfl rfl
      links := hwf.links.modify fun _ => rfl
      streams := hwf.streams.modify fun _ => rfl
      internals := hwf.internals.modify fun _ => rfl
      children := hwf.children.modify fun _ => rfl
      unnamed := fun changed hmem hinvalid => by
        cases mem_modify hmem with
        | inl hold => exact hwf.unnamed changed hold hinvalid
        | inr hnew =>
          obtain ⟨old, hold, rfl⟩ := hnew
          exact absurd (hname.1.symm.trans hinvalid) (by decide)
      first_names := fun changed hmem hvalid => by
        cases mem_modify hmem with
        | inl hold => exact hwf.first_names changed hold hvalid
        | inr hnew =>
          obtain ⟨old, hold, rfl⟩ := hnew
          exact hname
      link_names := hwf.link_names
      stream_names := hwf.stream_names }
  · rw [hwf.view_update next (frs_to_idx_opt_eq rfl) hbase (getElem?_modify_self hrec put) fun j other hne hother =>
      ⟨getElem?_modify_other hother hne put, rfl⟩]
    rw [view_of_mapped hbase hrec, MftIndex.view_record, MftIndex.view_record]
    have hrefs : next.link_refs (put record) = (name, parent_frs) :: (index.link_refs record).tail := by
      have hput : (put record).first_name.name.is_valid = true := hname.1
      rw [MftIndex.link_refs, if_pos hput, MftIndex.link_refs]
      split
      · rfl
      next hinvalid =>
        have hnone := hwf.unnamed record (List.mem_of_getElem? hrec) (Bool.eq_false_iff.mpr hinvalid)
        have hempty : contents link_cell NO_ENTRY index.links record.first_name.next_entry = [] := by
          rw [hnone, Chain.contents_eq .nil]
          rfl
        rw [hempty]
        exact congrArg (List.cons _) hempty
    rw [hrefs, List.map_cons, List.map_tail]
    rfl

end record

section ensure

/-- The record number a lookup table gives for a file number. -/
theorem frs_to_idx_opt_of {frs : UInt64} {idx : UInt32} (h : index.frs_to_idx.getD frs.toNat NO_ENTRY = idx) :
    index.frs_to_idx_opt frs = if idx = NO_ENTRY then none else some idx.toNat := by
  rw [MftIndex.frs_to_idx_opt, frs_to_usize]
  rw [List.getD_eq_getElem?_getD] at h
  cases hget : index.frs_to_idx[frs.toNat]? with
  | none =>
    rw [hget, Option.getD_none] at h
    rw [← h, if_pos rfl]
  | some entry =>
    rw [hget, Option.getD_some] at h
    rw [← h]

theorem getD_append_replicate (table : List UInt32) (count i : Nat) :
    (table ++ List.replicate count NO_ENTRY).getD i NO_ENTRY = table.getD i NO_ENTRY := by
  rw [List.getD_eq_getElem?_getD, List.getD_eq_getElem?_getD]
  by_cases hi : i < table.length
  · rw [List.getElem?_append_left hi]
  · rw [List.getElem?_append_right (Nat.le_of_not_lt hi), List.getElem?_eq_none (Nat.le_of_not_lt hi)]
    rw [List.getElem?_replicate]
    split <;> rfl

theorem getD_set_append (table : List UInt32) (i j : Nat) (entry : UInt32) :
    ((table ++ List.replicate (i + 1 - table.length) NO_ENTRY).set i entry).getD j NO_ENTRY =
      if i = j then entry else table.getD j NO_ENTRY := by
  rw [← getD_append_replicate table (i + 1 - table.length) j, List.getD_eq_getElem?_getD, List.getElem?_set]
  by_cases hij : i = j
  · have hlt : i < (table ++ List.replicate (i + 1 - table.length) NO_ENTRY).length := by
      rw [List.length_append, List.length_replicate]
      omega
    rw [if_pos hij, if_pos hij, if_pos hlt]
    rfl
  · rw [if_neg hij, if_neg hij, List.getD_eq_getElem?_getD]

theorem Threaded.grow {α β : Type} {cell : Cell α β} {table : List α} {records : List FileRecord}
    {head : FileRecord → UInt32} (h : Threaded cell table (records.map head))
    (hhead : head record = NO_ENTRY) : Threaded cell table ((records ++ [record]).map head) := by
  obtain ⟨paths, hthreads⟩ := h
  rw [List.map_append, List.map_singleton, hhead]
  exact ⟨_, hthreads.grow⟩

variable (hwf : Wf index) (frs : UInt64)
include hwf

theorem Wf.ensure_new (hnone : index.frs_to_idx_opt frs = none) (hroom : index.records.length < NO_ENTRY.toNat)
    {next : MftIndex} (hnext : next = { index with
      frs_to_idx := (index.frs_to_idx ++ List.replicate (frs.toNat + 1 - index.frs_to_idx.length) NO_ENTRY).set
        frs.toNat (len_to_u32 index.records.length)
      records := index.records ++ [FileRecord.new_unified frs] }) :
    Stores index next (index.view.ensure frs) ∧ next.frs_to_idx_opt frs = some index.records.length := by
  obtain ⟨hentry, hlen⟩ := entry_of_room hroom
  have hopt : ∀ other, next.frs_to_idx_opt other =
      if other = frs then some index.records.length else index.frs_to_idx_opt other := by
    intro other
    have hget : next.frs_to_idx.getD other.toNat NO_ENTRY =
        if frs.toNat = other.toNat then len_to_u32 index.records.length else index.frs_to_idx.getD other.toNat NO_ENTRY := by
      rw [hnext]
      exact getD_set_append _ _ _ _
    rw [frs_to_idx_opt_of hget]
    by_cases hother : other = frs
    · subst hother
      rw [if_pos rfl, if_pos rfl, if_neg hentry, hlen]
    · have hne : frs.toNat ≠ other.toNat := fun heq => hother (UInt64.toNat_inj.mp heq).symm
      rw [if_neg hne, if_neg hother, frs_to_idx_opt_of rfl]
  have hmapped : next.frs_to_idx_opt frs = some index.records.length := by rw [hopt, if_pos rfl]
  have hnew : next.records[index.records.length]? = some (FileRecord.new_unified frs) := by
    rw [hnext]
    exact List.getElem?_concat_length
  have hold : ∀ {i : Nat} {record}, index.records[i]? = some record → next.records[i]? = some record := by
    intro i record hrec
    rw [hnext]
    exact (List.getElem?_append_left (List.getElem?_eq_some_iff.mp hrec).1).trans hrec
  have hview : ∀ record, next.view_record record = index.view_record record := by
    intro record
    rw [hnext]
    rfl
  refine ⟨⟨?_, ?_, ?_⟩, hmapped⟩
  · have hrecords : next.records = index.records ++ [FileRecord.new_unified frs] := by rw [hnext]
    have hmem : ∀ {record}, record ∈ next.records → record ∈ index.records ∨ record = FileRecord.new_unified frs := by
      intro record hrec
      rw [hrecords] at hrec
      simpa using hrec
    exact {
      mapped := fun {other i} hother => by
        rw [hopt] at hother
        split at hother
        next heq =>
          obtain rfl := Option.some.inj hother
          exact ⟨_, hnew, heq.symm⟩
        next =>
          obtain ⟨record, hrec, hfrs⟩ := hwf.mapped hother
          exact ⟨record, hold hrec, hfrs⟩
      found := fun {i record} hrec => by
        rw [hopt]
        rw [hrecords] at hrec
        by_cases hi : i < index.records.length
        · rw [List.getElem?_append_left hi] at hrec
          have hfound := hwf.found hrec
          rw [if_neg, hfound]
          intro heq
          rw [heq, hnone] at hfound
          cases hfound
        · obtain ⟨hlt, heq⟩ := List.getElem?_eq_some_iff.mp hrec
          rw [List.length_append, List.length_singleton] at hlt
          obtain rfl : i = index.records.length := by omega
          rw [List.getElem?_concat_length] at hrec
          obtain rfl := Option.some.inj hrec
          exact if_pos rfl
      links := by
        rw [hnext]
        exact hwf.links.grow rfl
      streams := by
        rw [hnext]
        exact hwf.streams.grow rfl
      internals := by
        rw [hnext]
        exact hwf.internals.grow rfl
      children := by
        rw [hnext]
        exact hwf.children.grow rfl
      unnamed := fun record hrec hinvalid => by
        cases hmem hrec with
        | inl hold => exact hwf.unnamed record hold hinvalid
        | inr hnew => rw [hnew]; rfl
      first_names := fun record hrec hvalid => by
        cases hmem hrec with
        | inl hold =>
          rw [hnext]
          exact hwf.first_names record hold hvalid
        | inr hnew =>
          rw [hnew] at hvalid
          cases hvalid
      link_names := by
        rw [hnext]
        exact hwf.link_names
      stream_names := by
        rw [hnext]
        exact hwf.stream_names }
  · funext other
    by_cases hother : other = frs
    · subst hother
      rw [FileTable.ensure, Function.update_self, view_of_mapped hmapped hnew, view_of_unmapped hnone]
      have hempty : ∀ {α β : Type} (cell : Cell α β) (table : List α), contents cell NO_ENTRY table NO_ENTRY = [] := by
        intro α β cell table
        rw [Chain.contents_eq .nil]
        rfl
      rw [MftIndex.view_record, MftIndex.link_refs]
      simp only [FileRecord.new_unified, hempty]
      rfl
    · rw [FileTable.ensure, Function.update_of_ne hother]
      cases hidx : index.frs_to_idx_opt other with
      | none =>
        have hidx' : next.frs_to_idx_opt other = none := by rw [hopt, if_neg hother, hidx]
        rw [view_of_unmapped hidx, view_of_unmapped hidx']
      | some i =>
        have hidx' : next.frs_to_idx_opt other = some i := by rw [hopt, if_neg hother, hidx]
        obtain ⟨record, hrec, _⟩ := hwf.mapped hidx
        rw [view_of_mapped hidx hrec, view_of_mapped hidx' (hold hrec), hview]
  · intro other i hother
    rw [hopt, if_neg, hother]
    intro heq
    rw [heq, hnone] at hother
    cases hother

end ensure

theorem ensure_record_new {frs : UInt64} (h : index.frs_to_idx_opt frs = none) :
    index.ensure_record frs = ({ index with
      frs_to_idx := (index.frs_to_idx ++ List.replicate (frs.toNat + 1 - index.frs_to_idx.length) NO_ENTRY).set
        frs.toNat (len_to_u32 index.records.length)
      records := index.records ++ [FileRecord.new_unified frs] }, (len_to_u32 index.records.length).toNat) := by
  have hgrown := getD_append_replicate index.frs_to_idx (frs.toNat + 1 - index.frs_to_idx.length) frs.toNat
  rw [frs_to_idx_opt_of hgrown.symm] at h
  have hempty := of_not_not (fun hfull => by rw [if_neg hfull] at h; cases h)
  rw [MftIndex.ensure_record]
  exact if_pos hempty

theorem ensure_record_old {frs : UInt64} (h : index.frs_to_idx_opt frs = some i) :
    index.ensure_record frs = ({ index with
      frs_to_idx := index.frs_to_idx ++ List.replicate (frs.toNat + 1 - index.frs_to_idx.length) NO_ENTRY }, i) := by
  have hgrown := getD_append_replicate index.frs_to_idx (frs.toNat + 1 - index.frs_to_idx.length) frs.toNat
  rw [frs_to_idx_opt_of hgrown.symm] at h
  split at h
  · cases h
  next hfull =>
    obtain rfl := Option.some.inj h
    rw [MftIndex.ensure_record]
    exact if_neg hfull

theorem Wf.ensure_record_stores (hwf : Wf index) (frs : UInt64) (hroom : index.records.length < NO_ENTRY.toNat) :
    Stores index (index.ensure_record frs).1 (index.view.ensure frs) ∧
      (index.ensure_record frs).1.frs_to_idx_opt frs = some (index.ensure_record frs).2 := by
  cases hidx : index.frs_to_idx_opt frs with
  | none =>
    rw [ensure_record_new hidx, (entry_of_room hroom).2]
    exact hwf.ensure_new frs hidx hroom rfl
  | some i =>
    rw [ensure_record_old hidx]
    generalize hnext : ({ index with
      frs_to_idx := index.frs_to_idx ++ List.replicate (frs.toNat + 1 - index.frs_to_idx.length) NO_ENTRY } :
      MftIndex) = next
    have hopt : ∀ other, next.frs_to_idx_opt other = index.frs_to_idx_opt other := by
      intro other
      have hgrown : next.frs_to_idx.getD other.toNat NO_ENTRY = index.frs_to_idx.getD other.toNat NO_ENTRY := by
        rw [← hnext]
        exact getD_append_replicate _ _ _
      rw [frs_to_idx_opt_of hgrown, frs_to_idx_opt_of rfl]
    have hrecords : next.records = index.records := by rw [← hnext]
    have hview : ∀ record, next.view_record record = index.view_record record := by
      intro record
      rw [← hnext]
      rfl
    obtain ⟨record, hrec, _⟩ := hwf.mapped hidx
    have hpresent : index.view.ensure frs = index.view := by
      rw [FileTable.ensure, view_of_mapped hidx hrec]
      exact (Function.update_eq_iff.mpr ⟨(view_of_mapped hidx hrec).symm, fun _ _ => rfl⟩)
    refine ⟨⟨?_, ?_, fun {other j} h => (hopt other).trans h⟩, (hopt frs).trans hidx⟩
    · subst hnext
      exact {
        hwf with
        mapped := fun h => hwf.mapped ((hopt _).symm.trans h)
        found := fun h => (hopt _).trans (hwf.found h) }
    · rw [hpresent]
      exact hwf.view_same hopt hrecords fun _ record _ => hview record

theorem modify_congr {α : Type} {table : List α} {a : α} (h : table[i]? = some a) {f g : α → α}
    (hfg : f a = g a) : table.modify i f = table.modify i g := by
  refine List.ext_getElem? fun j => ?_
  rw [List.getElem?_modify, List.getElem?_modify]
  by_cases hij : i = j
  · subst hij
    simp [h, hfg]
  · simp [hij]

theorem store_internal_eq {ri : Nat} (hrec : index.records[ri]? = some record)
    (size : SizeInfo) (flags : UInt8) (reparse_tag : Option UInt32) {appended : List InternalStreamInfo × UInt32}
    (happended : appended = chain_append internal_cell index.internal_streams record.first_internal_stream { size := size, flags := flags }) :
    index.store_internal ri size flags reparse_tag =
      MftIndex.modify_record { index with internal_streams := appended.1 } ri fun rec =>
        { rec with first_internal_stream := appended.2 }.add_internal size reparse_tag := by
  rw [MftIndex.store_internal, hrec, happended]
  by_cases hempty : record.first_internal_stream = NO_ENTRY
  · simp only [chain_append, if_pos hempty]
  · simp only [chain_append, if_neg hempty, MftIndex.modify_record]
    exact congrArg (fun records => MftIndex.mk records _ _ _ _ _ _ _ _ _) (modify_congr hrec rfl)

theorem store_named_data_eq (env : Env) {ri : Nat}
    (hrec : index.records[ri]? = some record) (name : DecodedName) (size : SizeInfo) (flags : UInt8)
    {named : MftIndex × IndexNameRef} (hnamed : named = index.store_name env name)
    {appended : List IndexStreamInfo × UInt32}
    (happended : appended = chain_append stream_cell index.streams record.first_stream.next_entry { size := size, name := named.2, flags := flags }) :
    index.store_named_data env ri name size flags =
      MftIndex.modify_record { named.1 with streams := appended.1 } ri fun rec =>
        { rec with first_stream := { rec.first_stream with next_entry := appended.2 } }.count_stream := by
  obtain ⟨extension_names, extension_id, hname⟩ := store_name_eq env index name
  rw [hname] at hnamed
  subst hnamed happended
  rw [MftIndex.store_named_data, hname]
  dsimp only
  rw [hrec]
  by_cases hempty : record.first_stream.next_entry = NO_ENTRY
  · simp only [chain_append, if_pos hempty]
  · simp only [chain_append, if_neg hempty, MftIndex.modify_record]
    exact congrArg (fun records => MftIndex.mk records _ _ _ _ _ _ _ _ _) (modify_congr hrec rfl)

section push

variable (hwf : Wf index) {base : UInt64} {ri : Nat}
  (hbase : index.frs_to_idx_opt base = some ri) (hrec : index.records[ri]? = some record)
include hwf hbase hrec

/-- A directory entry in front of a record's chain. -/
theorem Wf.push_entry_stores (hroom : index.children.length < NO_ENTRY.toNat) (child_frs : UInt64) (name_index : UInt16) :
    Stores index
      (MftIndex.modify_record
        { index with children := index.children ++
          [{ next_entry := record.first_child, child_frs := child_frs, name_index := name_index }] }
        ri fun rec => { rec with first_child := len_to_u32 index.children.length })
      (Function.update index.view base
        { index.view base with children := (child_frs, name_index) :: (index.view base).children }) := by
  let entry : ChildInfo := { next_entry := record.first_child, child_frs := child_frs, name_index := name_index }
  let put : FileRecord → FileRecord := fun rec => { rec with first_child := len_to_u32 index.children.length }
  let next := MftIndex.modify_record { index with children := index.children ++ [entry] } ri put
  have hframe : ∀ record, (put record).frs = record.frs := fun _ => rfl
  have hname : ∀ record, (put record).first_name = record.first_name := fun _ => rfl
  show Stores index next _
  refine ⟨?_, ?_, fun h => h⟩
  · exact {
      mapped := hwf.mapped_modify next hframe rfl rfl
      found := hwf.found_modify next hframe rfl rfl
      links := hwf.links.modify fun _ => rfl
      streams := hwf.streams.modify fun _ => rfl
      internals := hwf.internals.modify fun _ => rfl
      children := @Threaded.push_front _ _ _ _ _ _ _ _ entry hwf.children hrec rfl hroom put rfl
      unnamed := hwf.unnamed_modify hname
      first_names := hwf.first_names_modify hname
      link_names := hwf.link_names
      stream_names := hwf.stream_names }
  · rw [hwf.view_update next (frs_to_idx_opt_eq rfl) hbase (getElem?_modify_self hrec put) fun j other hne hother =>
      ⟨getElem?_modify_other hother hne put, ?_⟩]
    · rw [view_of_mapped hbase hrec, MftIndex.view_record, MftIndex.view_record]
      congr 2
      exact @Threaded.contents_push_front _ _ _ _ _ _ _ _ entry hwf.children hrec rfl hroom
    · rw [MftIndex.view_record, MftIndex.view_record]
      congr 1
      exact hwf.children.contents_append hother [entry]

/-- An internal stream behind the last one of a record's chain. -/
theorem Wf.store_internal_stores (hroom : index.internal_streams.length < NO_ENTRY.toNat) (size : SizeInfo)
    (flags : UInt8) (reparse_tag : Option UInt32) :
    Stores index (index.store_internal ri size flags reparse_tag)
      (index.view.store_internal base size flags reparse_tag) := by
  let item : InternalStreamInfo := { size := size, flags := flags }
  let appended := chain_append internal_cell index.internal_streams record.first_internal_stream item
  let put : FileRecord → FileRecord := fun rec =>
    { rec with first_internal_stream := appended.2 }.add_internal size reparse_tag
  let next := MftIndex.modify_record { index with internal_streams := appended.1 } ri put
  have hnext : index.store_internal ri size flags reparse_tag = next :=
    store_internal_eq hrec size flags reparse_tag rfl
  rw [hnext]
  have hframe : ∀ record, (put record).frs = record.frs := fun _ => rfl
  have hname : ∀ record, (put record).first_name = record.first_name := fun _ => rfl
  refine ⟨?_, ?_, fun h => h⟩
  · exact {
      mapped := hwf.mapped_modify next hframe rfl rfl
      found := hwf.found_modify next hframe rfl rfl
      links := hwf.links.modify fun _ => rfl
      streams := hwf.streams.modify fun _ => rfl
      internals := hwf.internals.append hrec rfl hroom rfl
      children := hwf.children.modify fun _ => rfl
      unnamed := hwf.unnamed_modify hname
      first_names := hwf.first_names_modify hname
      link_names := hwf.link_names
      stream_names := hwf.stream_names }
  · rw [hwf.view_update next (frs_to_idx_opt_eq rfl) hbase (getElem?_modify_self hrec put) fun j other hne hother =>
      ⟨getElem?_modify_other hother hne put, ?_⟩]
    · rw [FileTable.store_internal, view_of_mapped hbase hrec, MftIndex.view_record, MftIndex.view_record]
      congr 2
      exact hwf.internals.contents_append_self hrec rfl hroom
    · rw [MftIndex.view_record, MftIndex.view_record]
      congr 1
      exact hwf.internals.contents_append_other hrec hother hne

/-- A named stream behind the last one of a record's chain. -/
theorem Wf.push_stream_stores (hroom : index.streams.length < NO_ENTRY.toNat)
    (hname : index.holds_name name) (size : SizeInfo) (flags : UInt8) :
    Stores index
      (MftIndex.modify_record
        { index with streams := (chain_append stream_cell index.streams record.first_stream.next_entry
          { size := size, name := name, flags := flags }).1 } ri fun rec =>
        { rec with first_stream := { rec.first_stream with
          next_entry := (chain_append stream_cell index.streams record.first_stream.next_entry
            { size := size, name := name, flags := flags }).2 } }.count_stream)
      (Function.update index.view base
        { index.view base with
          streams := (index.view base).streams ++ [(index.get_name_bytes name, size, flags)]
          record := (index.view base).record.count_stream }) := by
  let item : IndexStreamInfo := { size := size, name := name, flags := flags }
  let appended := chain_append stream_cell index.streams record.first_stream.next_entry item
  let put : FileRecord → FileRecord := fun rec =>
    { rec with first_stream := { rec.first_stream with next_entry := appended.2 } }.count_stream
  let next := MftIndex.modify_record { index with streams := appended.1 } ri put
  have hframe : ∀ record, (put record).frs = record.frs := fun _ => rfl
  have hfirst : ∀ record, (put record).first_name = record.first_name := fun _ => rfl
  show Stores index next _
  refine ⟨?_, ?_, fun h => h⟩
  · exact {
      mapped := hwf.mapped_modify next hframe rfl rfl
      found := hwf.found_modify next hframe rfl rfl
      links := hwf.links.modify fun _ => rfl
      streams := hwf.streams.append hrec rfl hroom rfl
      internals := hwf.internals.modify fun _ => rfl
      children := hwf.children.modify fun _ => rfl
      unnamed := hwf.unnamed_modify hfirst
      first_names := hwf.first_names_modify hfirst
      link_names := hwf.link_names
      stream_names := fun stream hmem => by
        obtain ⟨old, hold, hsame⟩ := mem_chain_append hmem
        have hname_eq : stream.name = old.name := congrArg Prod.fst hsame
        rw [hname_eq]
        cases List.mem_append.mp hold with
        | inl hmem => exact hwf.stream_names old hmem
        | inr hnew =>
          rw [List.mem_singleton.mp hnew]
          exact hname }
  · rw [hwf.view_update next (frs_to_idx_opt_eq rfl) hbase (getElem?_modify_self hrec put) fun j other hne hother =>
      ⟨getElem?_modify_other hother hne put, ?_⟩]
    · have hcontents := @Threaded.contents_append_self _ _ _ _ _ _ _ _ item hwf.streams hrec rfl hroom
      rw [view_of_mapped hbase hrec, MftIndex.view_record, MftIndex.view_record]
      congr 2
      exact (congrArg (List.map _) hcontents).trans List.map_append
    · rw [MftIndex.view_record, MftIndex.view_record]
      congr 2
      exact hwf.streams.contents_append_other hrec hother hne

end push

end uffs.mft
