import Uffs.Mft.ArenaRun

open uffs.lib uffs.bloom

namespace uffs.mft

/-! What a list of segments leaves in each file, and that it does not depend on their order. -/

def Attribute.link : Attribute → Option (List UInt8 × UInt64)
  | .file_name attr => some (attr.name.stored, attr.parent_frs)
  | _ => none

def Attribute.stream : Attribute → Option (List UInt8 × SizeInfo × UInt8)
  | .named_data name size flags => some (name.stored, size, flags)
  | _ => none

def Attribute.internal_stream : Attribute → Option (SizeInfo × UInt8)
  | .internal size flags _ => some (size, flags)
  | _ => none

/-- Size added to the default stream. -/
def Attribute.default_size : Attribute → Option SizeInfo
  | .index_i30 size _ => some size
  | .default_data size _ => some size
  | _ => none

/-- The segments of one file. -/
def own_segments (frs : UInt64) (segments : List Segment) : List Segment := segments.filter (·.base = frs)

/-- What the segments of one file bring of one kind, in the order they are parsed. -/
def brought {β : Type} (part : Attribute → Option β) (frs : UInt64) (segments : List Segment) : List β :=
  (own_segments frs segments).flatMap fun segment => segment.attributes.filterMap part

/-- Files that get an entry in the directory `frs`, in the order of their names. -/
def entered (frs : UInt64) (segments : List Segment) : List UInt64 :=
  segments.flatMap fun segment =>
    segment.attributes.filterMap fun attr => if attr.entry_parent segment.base = some frs then some segment.base else none

/-- `$STANDARD_INFORMATION` and the directory mark after one more attribute. -/
def StandardInfo.after (is_directory : Bool) (info : StandardInfo) : Attribute → StandardInfo
  | .standard_information new => if is_directory then new.set_directory else new
  | .index_i30 _ _ => info.set_directory
  | _ => info

/-- And after a whole segment. -/
def Segment.info (self : Segment) (info : StandardInfo) : StandardInfo :=
  let info := self.attributes.foldl (StandardInfo.after self.is_directory) info
  if self.is_directory then info.set_directory else info

theorem store_segments_own {β : Type} (g : FileView → β) (step : Segment → β → β)
    (hown : ∀ view, g view = g view.own) (hstep : ∀ view segment, g (view.absorb_segment segment) = step segment (g view))
    (segments : List Segment) (table : FileTable) (frs : UInt64) :
    g (segments.foldl FileTable.store_segment table frs) =
      (own_segments frs segments).foldl (fun value segment => step segment value) (g (table frs)) := by
  induction segments generalizing table with
  | nil => rfl
  | cons segment segments ih =>
    rw [List.foldl_cons, ih, own_segments, own_segments, List.filter_cons]
    by_cases hbase : segment.base = frs
    · subst hbase
      rw [if_pos (by simp), List.foldl_cons, FileTable.store_segment_own, hstep]
    · rw [if_neg (by simpa using hbase), hown, FileTable.store_segment_elsewhere table segment (Ne.symm hbase), ← hown]

section parts

variable (view : FileView) (is_directory : Bool) (attr : Attribute)

theorem absorb_links : (view.absorb is_directory attr).links = attr.link.toList ++ view.links := by
  cases attr <;> rfl

theorem absorb_streams : (view.absorb is_directory attr).streams = view.streams ++ attr.stream.toList := by
  cases attr <;> first | rfl | exact (List.append_nil _).symm

theorem absorb_internals : (view.absorb is_directory attr).internals = view.internals ++ attr.internal_stream.toList := by
  cases attr <;> first | rfl | exact (List.append_nil _).symm

theorem absorb_stdinfo : (view.absorb is_directory attr).record.stdinfo =
    StandardInfo.after is_directory view.record.stdinfo attr := by
  cases attr with
  | index_i30 size flags =>
    simp only [FileView.absorb, FileRecord.add_i30, StandardInfo.after]
    split <;> rfl
  | default_data size flags =>
    simp only [FileView.absorb, FileRecord.add_default_data, StandardInfo.after]
    split <;> rfl
  | _ => rfl

theorem absorb_default_size : (view.absorb is_directory attr).record.first_stream.size =
    attr.default_size.toList.foldl SizeInfo.saturating_add view.record.first_stream.size := by
  cases attr with
  | index_i30 size flags =>
    simp only [FileView.absorb, FileRecord.add_i30, Attribute.default_size]
    split <;> rfl
  | default_data size flags =>
    simp only [FileView.absorb, FileRecord.add_default_data, Attribute.default_size]
    split <;> rfl
  | _ => rfl

end parts

section segment

variable (view : FileView) (segment : Segment)

theorem absorb_segment_links :
    (view.absorb_segment segment).links = (segment.attributes.filterMap Attribute.link).reverse ++ view.links := by
  have hloop : ∀ (attributes : List Attribute) (view : FileView),
      (attributes.foldl (FileView.absorb segment.is_directory) view).links =
        (attributes.filterMap Attribute.link).reverse ++ view.links := by
    intro attributes
    induction attributes with
    | nil => exact fun _ => rfl
    | cons attr attributes ih =>
      intro view
      rw [List.foldl_cons, ih, absorb_links, List.filterMap_cons]
      cases attr.link <;> simp
  exact hloop segment.attributes _

/-- Parts that are kept in order. -/
theorem absorb_all_append {β : Type} {part : Attribute → Option β} {g : FileView → List β}
    (hstep : ∀ view is_directory attr, g (FileView.absorb is_directory view attr) = g view ++ (part attr).toList)
    (is_directory : Bool) (attributes : List Attribute) (view : FileView) :
    g (attributes.foldl (FileView.absorb is_directory) view) = g view ++ attributes.filterMap part := by
  induction attributes generalizing view with
  | nil => exact (List.append_nil _).symm
  | cons attr attributes ih =>
    rw [List.foldl_cons, ih, hstep, List.filterMap_cons]
    cases part attr <;> simp

theorem absorb_segment_streams :
    (view.absorb_segment segment).streams = view.streams ++ segment.attributes.filterMap Attribute.stream :=
  absorb_all_append absorb_streams segment.is_directory segment.attributes _

theorem absorb_segment_internals :
    (view.absorb_segment segment).internals = view.internals ++ segment.attributes.filterMap Attribute.internal_stream :=
  absorb_all_append absorb_internals segment.is_directory segment.attributes _

theorem absorb_segment_stdinfo :
    (view.absorb_segment segment).record.stdinfo = segment.info view.record.stdinfo := by
  have hloop : ∀ (attributes : List Attribute) (view : FileView),
      (attributes.foldl (FileView.absorb segment.is_directory) view).record.stdinfo =
        attributes.foldl (StandardInfo.after segment.is_directory) view.record.stdinfo := by
    intro attributes
    induction attributes with
    | nil => exact fun _ => rfl
    | cons attr attributes ih =>
      intro view
      rw [List.foldl_cons, List.foldl_cons, ih, absorb_stdinfo]
  have hstamp : (view.record.stamp segment.stamp).stdinfo = view.record.stdinfo := by
    cases segment.stamp <;> rfl
  rw [FileView.absorb_segment, Segment.info]
  rw [FileRecord.mark_directory]
  split
  · rw [hloop, hstamp]
  · rw [hloop, hstamp]

theorem absorb_segment_default_size :
    (view.absorb_segment segment).record.first_stream.size =
      (segment.attributes.filterMap Attribute.default_size).foldl SizeInfo.saturating_add view.record.first_stream.size := by
  have hloop : ∀ (attributes : List Attribute) (view : FileView),
      (attributes.foldl (FileView.absorb segment.is_directory) view).record.first_stream.size =
        (attributes.filterMap Attribute.default_size).foldl SizeInfo.saturating_add view.record.first_stream.size := by
    intro attributes
    induction attributes with
    | nil => exact fun _ => rfl
    | cons attr attributes ih =>
      intro view
      rw [List.foldl_cons, ih, absorb_default_size, List.filterMap_cons]
      cases attr.default_size <;> rfl
  have hstamp : (view.record.stamp segment.stamp).first_stream = view.record.first_stream := by
    cases segment.stamp <;> rfl
  have hmark : ∀ record : FileRecord, (record.mark_directory segment.is_directory).first_stream = record.first_stream := by
    intro record
    cases segment.is_directory <;> rfl
  rw [FileView.absorb_segment]
  rw [hmark, hloop, hstamp]

end segment

section run

variable (table : FileTable) (frs : UInt64) (segments : List Segment)

theorem run_links : (segments.foldl FileTable.store_segment table frs).links =
    (brought Attribute.link frs segments).reverse ++ (table frs).links := by
  rw [store_segments_own FileView.links (fun segment links => (segment.attributes.filterMap Attribute.link).reverse ++ links)
    (fun _ => rfl) absorb_segment_links, brought]
  generalize (table frs).links = links
  induction own_segments frs segments generalizing links with
  | nil => rfl
  | cons segment segments ih => rw [List.foldl_cons, ih, List.flatMap_cons, List.reverse_append, List.append_assoc]

theorem run_append {β : Type} {part : Attribute → Option β} {g : FileView → List β} (hown : ∀ view, g view = g view.own)
    (hstep : ∀ view segment, g (FileView.absorb_segment view segment) = g view ++ segment.attributes.filterMap part) :
    g (segments.foldl FileTable.store_segment table frs) = g (table frs) ++ brought part frs segments := by
  rw [store_segments_own g (fun segment value => value ++ segment.attributes.filterMap part) hown hstep, brought]
  exact List.foldl_append_eq_append

theorem run_streams : (segments.foldl FileTable.store_segment table frs).streams =
    (table frs).streams ++ brought Attribute.stream frs segments :=
  run_append table frs segments (fun _ => rfl) absorb_segment_streams

theorem run_internals : (segments.foldl FileTable.store_segment table frs).internals =
    (table frs).internals ++ brought Attribute.internal_stream frs segments :=
  run_append table frs segments (fun _ => rfl) absorb_segment_internals

theorem run_stdinfo : (segments.foldl FileTable.store_segment table frs).record.stdinfo =
    (own_segments frs segments).foldl (fun info segment => segment.info info) (table frs).record.stdinfo :=
  store_segments_own (fun view => view.record.stdinfo) Segment.info (fun _ => rfl) absorb_segment_stdinfo segments table frs

theorem run_default_size : (segments.foldl FileTable.store_segment table frs).record.first_stream.size =
    (brought Attribute.default_size frs segments).foldl SizeInfo.saturating_add (table frs).record.first_stream.size := by
  rw [store_segments_own (fun view => view.record.first_stream.size)
    (fun segment size => (segment.attributes.filterMap Attribute.default_size).foldl SizeInfo.saturating_add size)
    (fun _ => rfl) absorb_segment_default_size, brought]
  exact List.foldl_flatMap.symm

theorem run_flags :
    (segments.foldl FileTable.store_segment table frs).record.has_default_data =
        ((table frs).record.has_default_data || (own_segments frs segments).any Segment.brings_data) ∧
      (segments.foldl FileTable.store_segment table frs).record.has_i30_stream =
        ((table frs).record.has_i30_stream || (own_segments frs segments).any Segment.brings_i30) := by
  have hfold : ∀ (brings : Segment → Bool) (segments : List Segment) (flag : Bool),
      segments.foldl (fun flag segment => flag || brings segment) flag = (flag || segments.any brings) := by
    intro brings segments
    induction segments with
    | nil => exact fun flag => (Bool.or_false flag).symm
    | cons segment segments ih =>
      intro flag
      rw [List.foldl_cons, ih, List.any_cons, Bool.or_assoc]
  have hdata := store_segments_own (fun view => view.record.has_default_data) (fun segment flag => flag || segment.brings_data)
    (fun _ => rfl) (fun view segment => (absorb_segment_flags view segment).1) segments table frs
  have hi30 := store_segments_own (fun view => view.record.has_i30_stream) (fun segment flag => flag || segment.brings_i30)
    (fun _ => rfl) (fun view segment => (absorb_segment_flags view segment).2) segments table frs
  exact ⟨hdata.trans (hfold _ _ _), hi30.trans (hfold _ _ _)⟩

/-- Directory entries after one attribute. -/
theorem store_attribute_entries (frs_base : UInt64) (is_directory : Bool) (attr : Attribute) :
    (table.store_attribute frs_base is_directory attr frs).children.map Prod.fst =
        (if attr.entry_parent frs_base = some frs then [frs_base] else []) ++ (table frs).children.map Prod.fst ∧
      (table.store_attribute frs_base is_directory attr frs).present =
        ((table frs).present || decide (attr.entry_parent frs_base = some frs)) := by
  rw [FileTable.store_attribute_apply]
  by_cases hown : frs = frs_base
  · have hno : attr.entry_parent frs_base ≠ some frs := hown ▸ entry_parent_ne frs_base attr
    rw [if_pos hown, if_neg hno, decide_eq_false hno, Bool.or_false]
    cases attr <;> exact ⟨rfl, rfl⟩
  · rw [if_neg hown]
    by_cases hentry : attr.entry_parent frs_base = some frs
    · rw [if_pos hentry, if_pos hentry, decide_eq_true hentry, Bool.or_true]
      exact ⟨rfl, rfl⟩
    · rw [if_neg hentry, if_neg hentry, decide_eq_false hentry, Bool.or_false]
      exact ⟨rfl, rfl⟩

theorem store_attributes_entries (frs_base : UInt64) (is_directory : Bool) (attributes : List Attribute) :
    (attributes.foldl (FileTable.store_attribute frs_base is_directory) table frs).children.map Prod.fst =
        (attributes.filterMap fun attr => if attr.entry_parent frs_base = some frs then some frs_base else none).reverse ++
          (table frs).children.map Prod.fst ∧
      (attributes.foldl (FileTable.store_attribute frs_base is_directory) table frs).present =
        ((table frs).present || decide (frs ∈ attributes.filterMap (Attribute.entry_parent frs_base))) := by
  induction attributes generalizing table with
  | nil => exact ⟨rfl, (Bool.or_false _).symm⟩
  | cons attr attributes ih =>
    obtain ⟨hchildren, hpresent⟩ := ih (table.store_attribute frs_base is_directory attr)
    obtain ⟨hchildren', hpresent'⟩ := store_attribute_entries table frs frs_base is_directory attr
    rw [List.foldl_cons, hchildren, hchildren', hpresent, hpresent', List.filterMap_cons, List.filterMap_cons]
    by_cases hentry : attr.entry_parent frs_base = some frs
    · simp [hentry]
    · cases hparent : attr.entry_parent frs_base with
      | none => simp
      | some parent_frs =>
        have hne : parent_frs ≠ frs := fun heq => hentry (heq ▸ hparent)
        simp [hne, Ne.symm hne]

/-- Directory entries of one segment, and whether the file is there afterwards. -/
theorem store_segment_entries (segment : Segment) :
    (table.store_segment segment frs).children.map Prod.fst =
        (entered frs [segment]).reverse ++ (table frs).children.map Prod.fst ∧
      (table.store_segment segment frs).present = ((table frs).present || decide (frs ∈ segment.referenced)) := by
  have hmodify : ∀ (table : FileTable) (base : UInt64) (f : FileRecord → FileRecord),
      (table.modify base f frs).children = (table frs).children ∧ (table.modify base f frs).present = (table frs).present := by
    intro table base f
    rw [FileTable.modify, Function.update_apply]
    split
    next heq => rw [heq]; exact ⟨rfl, rfl⟩
    next => exact ⟨rfl, rfl⟩
  have hensure : (table.ensure segment.base frs).children = (table frs).children ∧
      (table.ensure segment.base frs).present = ((table frs).present || decide (frs = segment.base)) := by
    rw [FileTable.ensure, Function.update_apply]
    split
    next heq => rw [heq]; exact ⟨rfl, by simp⟩
    next hne => exact ⟨rfl, by simp [hne]⟩
  obtain ⟨hchildren, hpresent⟩ := store_attributes_entries
    ((table.ensure segment.base).modify segment.base fun rec => rec.stamp segment.stamp) frs segment.base
    segment.is_directory segment.attributes
  rw [FileTable.store_segment, (hmodify _ _ _).1, (hmodify _ _ _).2, hchildren, hpresent, (hmodify _ _ _).1, (hmodify _ _ _).2, hensure.1, hensure.2]
  refine ⟨by simp [entered], ?_⟩
  rw [Bool.or_assoc, Segment.referenced]
  congr 1
  by_cases heq : frs = segment.base <;> simp [heq]

theorem run_children : (segments.foldl FileTable.store_segment table frs).children.map Prod.fst =
    (entered frs segments).reverse ++ (table frs).children.map Prod.fst := by
  induction segments generalizing table with
  | nil => rfl
  | cons segment segments ih =>
    rw [List.foldl_cons, ih, (store_segment_entries table frs segment).1, ← List.append_assoc, ← List.reverse_append]
    congr 2
    simp [entered]

theorem run_present : (segments.foldl FileTable.store_segment table frs).present =
    ((table frs).present || segments.any fun segment => decide (frs ∈ segment.referenced)) := by
  induction segments generalizing table with
  | nil => exact (Bool.or_false _).symm
  | cons segment segments ih =>
    rw [List.foldl_cons, ih, (store_segment_entries table frs segment).2, List.any_cons, Bool.or_assoc]

end run

/-- All buffers, one call of `process_record` after the other. -/
def parse_all (env : Env) (buffers : List Buffer) (index : MftIndex) : MftIndex :=
  buffers.foldl (fun index buffer => (process_record env buffer.data buffer.frs index).2) index

/-- What a list of buffers may add to each vector. -/
def total_size (buffers : List Buffer) (arena : Arena) : Nat :=
  ((buffers.filterMap Buffer.segment?).map (·.size arena)).sum

theorem parse_all_stores (env : Env) {buffers : List Buffer} {index : MftIndex} (hwf : Wf index)
    (hroom : Room index (total_size buffers)) :
    Wf (parse_all env buffers index) ∧ (parse_all env buffers index).view =
      (buffers.filterMap Buffer.segment?).foldl FileTable.store_segment index.view := by
  induction buffers generalizing index with
  | nil => exact ⟨hwf, rfl⟩
  | cons buffer buffers ih =>
    rw [parse_all, List.foldl_cons, process_record_eq, List.filterMap_cons]
    cases hsegment : buffer.segment? with
    | none =>
      refine ih hwf (hroom.mono fun arena => ?_)
      rw [total_size, total_size, List.filterMap_cons, hsegment]
    | some segment =>
      have hroom' : Room index fun arena => segment.size arena + total_size buffers arena := by
        refine hroom.mono fun arena => ?_
        rw [total_size, total_size, List.filterMap_cons, hsegment, List.map_cons, List.sum_cons]
      have hstep := hwf.store_segment_stores env segment (read_segment_short hsegment)
        (hroom'.mono fun arena => Nat.le_add_right _ _)
      have hrest := ih hstep.wf (hroom'.step (within_store_segment env index segment))
      rw [hstep.view] at hrest
      exact hrest

/-- Two files that differ in the order of their names, streams and entries only. -/
structure SameFile (left right : FileView) : Prop where
  present : left.present = right.present
  links : left.links.Perm right.links
  streams : left.streams.Perm right.streams
  internals : left.internals.Perm right.internals
  default_size : left.record.first_stream.size = right.record.first_stream.size
  stdinfo : left.record.stdinfo = right.record.stdinfo
  name_count : left.record.name_count = right.record.name_count
  stream_count : left.record.stream_count = right.record.stream_count
  total_stream_count : left.record.total_stream_count = right.record.total_stream_count
  children : (left.children.map Prod.fst).Perm (right.children.map Prod.fst)

def SameIndex (left right : MftIndex) : Prop := ∀ frs, SameFile (left.view frs) (right.view frs)

/-- The standard information a segment leaves, whatever was there before; `none` when it has none. -/
def Segment.sets_info (self : Segment) : Option StandardInfo :=
  if self.attributes.any fun attr => attr matches .standard_information _ then some (self.info {}) else none

/-- What one segment of a file leaves as standard information, every other segment of it keeps. -/
def OneStandardInfo (buffers : List Buffer) : Prop :=
  ∀ segment ∈ buffers.filterMap Buffer.segment?, ∀ other ∈ buffers.filterMap Buffer.segment?,
    segment.base = other.base → ∀ info, segment.sets_info = some info → other.info info = info

section info

theorem set_directory_set_directory (info : StandardInfo) : info.set_directory.set_directory = info.set_directory := by
  rw [StandardInfo.set_directory, StandardInfo.set_directory]
  congr 1
  exact UInt32.toBitVec_inj.mp (by rw [UInt32.toBitVec_or, UInt32.toBitVec_or, BitVec.or_assoc, BitVec.or_self])

/-- Attributes without standard information leave the old one, perhaps marked. -/
theorem after_all_unset {is_directory : Bool} {attributes : List Attribute}
    (h : (attributes.any fun attr => attr matches .standard_information _) = false) :
    (∀ info, attributes.foldl (StandardInfo.after is_directory) info = info) ∨
      ∀ info, attributes.foldl (StandardInfo.after is_directory) info = info.set_directory := by
  induction attributes with
  | nil => exact .inl fun _ => rfl
  | cons attr attributes ih =>
    obtain ⟨hattr, hrest⟩ := Bool.or_eq_false_iff.mp (List.any_cons ▸ h)
    cases attr with
    | standard_information new => cases hattr
    | index_i30 size flags =>
      right
      intro info
      rw [List.foldl_cons, StandardInfo.after]
      cases ih hrest with
      | inl hkeep => rw [hkeep]
      | inr hmark => rw [hmark, set_directory_set_directory]
    | _ => exact ih hrest

theorem after_all_set {is_directory : Bool} {attributes : List Attribute}
    (h : (attributes.any fun attr => attr matches .standard_information _) = true) (info info' : StandardInfo) :
    attributes.foldl (StandardInfo.after is_directory) info = attributes.foldl (StandardInfo.after is_directory) info' := by
  induction attributes generalizing info info' with
  | nil => cases h
  | cons attr attributes ih =>
    cases attr with
    | standard_information new => rfl
    | _ => exact ih h _ _

/-- After a segment without standard information the old one is there, perhaps marked. -/
theorem info_of_sets_none {segment : Segment} (h : segment.sets_info = none) :
    (∀ info, segment.info info = info) ∨ ∀ info, segment.info info = info.set_directory := by
  have hunset : (segment.attributes.any fun attr => attr matches .standard_information _) = false := by
    rw [Segment.sets_info] at h
    split at h
    · cases h
    next hset => exact Bool.eq_false_iff.mpr hset
  cases @after_all_unset segment.is_directory _ hunset with
  | inl hkeep =>
    cases hdir : segment.is_directory with
    | false =>
      left
      intro info
      rw [Segment.info, hkeep, hdir]
      rfl
    | true =>
      right
      intro info
      rw [Segment.info, hkeep, hdir]
      rfl
  | inr hmark =>
    right
    intro info
    rw [Segment.info, hmark]
    split
    · exact set_directory_set_directory info
    · rfl

theorem info_of_sets_some {segment : Segment} {set : StandardInfo} (h : segment.sets_info = some set) (info : StandardInfo) :
    segment.info info = set := by
  rw [Segment.sets_info] at h
  split at h
  next hset =>
    cases h
    rw [Segment.info, after_all_set hset info {}, Segment.info]
  next => cases h

theorem info_comm {segment other : Segment}
    (h : ∀ info, segment.sets_info = some info → other.info info = info)
    (h' : ∀ info, other.sets_info = some info → segment.info info = info) (info : StandardInfo) :
    other.info (segment.info info) = segment.info (other.info info) := by
  cases hsets : segment.sets_info with
  | some set =>
    rw [info_of_sets_some hsets, info_of_sets_some hsets]
    exact h set hsets
  | none =>
    cases hsets' : other.sets_info with
    | some set =>
      rw [info_of_sets_some hsets', info_of_sets_some hsets']
      exact (h' set hsets').symm
    | none =>
      cases info_of_sets_none hsets with
      | inl hkeep => rw [hkeep, hkeep]
      | inr hmark =>
        cases info_of_sets_none hsets' with
        | inl hkeep' => rw [hkeep', hkeep']
        | inr hmark' => rw [hmark, hmark', hmark, hmark']

end info

theorem SizeInfo.saturating_add_right_comm (size one two : SizeInfo) :
    (size.saturating_add one).saturating_add two = (size.saturating_add two).saturating_add one := by
  have hword : ∀ a b c : UInt64, saturating_add64 (saturating_add64 a b) c = saturating_add64 (saturating_add64 a c) b := by
    intro a b c
    refine UInt64.toNat.inj ?_
    rw [saturating_add64_toNat, saturating_add64_toNat, saturating_add64_toNat, saturating_add64_toNat]
    omega
  exact congrArg₂ SizeInfo.mk (hword _ _ _) (hword _ _ _)

section order

variable {segments order : List Segment}

theorem own_segments_perm (hperm : order.Perm segments) (frs : UInt64) :
    (own_segments frs order).Perm (own_segments frs segments) :=
  hperm.filter _

theorem brought_perm {β : Type} (part : Attribute → Option β) (hperm : order.Perm segments) (frs : UInt64) :
    (brought part frs order).Perm (brought part frs segments) :=
  (own_segments_perm hperm frs).flatMap_right _

theorem reverse_perm {β : Type} {left right : List β} (h : left.Perm right) : left.reverse.Perm right.reverse :=
  (left.reverse_perm.trans h).trans right.reverse_perm.symm

theorem any_perm (hperm : order.Perm segments) (p : Segment → Bool) : order.any p = segments.any p := by
  refine Bool.eq_iff_iff.mpr ?_
  rw [List.any_eq_true, List.any_eq_true]
  exact exists_congr fun segment => and_congr_left fun _ => hperm.mem_iff

/-- The table all of whose files are new. -/
theorem counted_run (segments : List Segment) (frs : UInt64) :
    (segments.foldl FileTable.store_segment FileView.absent frs).Counted := by
  have hrun : ∀ (segments : List Segment) (table : FileTable), (∀ frs, (table frs).Counted) →
      ∀ frs, (segments.foldl FileTable.store_segment table frs).Counted := by
    intro segments
    induction segments with
    | nil => exact fun _ h => h
    | cons segment segments ih => exact fun table h => ih _ (counted_store_segment h segment)
  exact hrun segments _ FileView.counted_absent frs

/-- All of a file but its standard information is there in any order. -/
theorem same_file_of_perm (hperm : order.Perm segments) (frs : UInt64)
    (hinfo : (order.foldl FileTable.store_segment FileView.absent frs).record.stdinfo =
      (segments.foldl FileTable.store_segment FileView.absent frs).record.stdinfo) :
    SameFile (order.foldl FileTable.store_segment FileView.absent frs)
      (segments.foldl FileTable.store_segment FileView.absent frs) := by
  have hlinks : (order.foldl FileTable.store_segment FileView.absent frs).links.Perm
      (segments.foldl FileTable.store_segment FileView.absent frs).links := by
    rw [run_links, run_links]
    exact (reverse_perm (brought_perm _ hperm frs)).append_right _
  have hstreams : (order.foldl FileTable.store_segment FileView.absent frs).streams.Perm
      (segments.foldl FileTable.store_segment FileView.absent frs).streams := by
    rw [run_streams, run_streams]
    exact (brought_perm _ hperm frs).append_left _
  have hinternals : (order.foldl FileTable.store_segment FileView.absent frs).internals.Perm
      (segments.foldl FileTable.store_segment FileView.absent frs).internals := by
    rw [run_internals, run_internals]
    exact (brought_perm _ hperm frs).append_left _
  have hslots : (order.foldl FileTable.store_segment FileView.absent frs).default_slots =
      (segments.foldl FileTable.store_segment FileView.absent frs).default_slots := by
    rw [FileView.default_slots, FileView.default_slots, (run_flags _ frs order).1, (run_flags _ frs order).2,
      (run_flags _ frs segments).1, (run_flags _ frs segments).2,
      any_perm (own_segments_perm hperm frs), any_perm (own_segments_perm hperm frs)]
  have hcounted := counted_run order frs
  have hcounted' := counted_run segments frs
  constructor
  · rw [run_present, run_present, any_perm hperm]
  · exact hlinks
  · exact hstreams
  · exact hinternals
  · rw [run_default_size, run_default_size]
    exact (brought_perm _ hperm frs).foldl_eq' (fun one _ two _ size => size.saturating_add_right_comm one two) _
  · exact hinfo
  · refine UInt16.toNat.inj ?_
    rw [hcounted.names, hcounted'.names, hlinks.length_eq]
  · refine UInt16.toNat.inj ?_
    rw [hcounted.streams, hcounted'.streams, hslots, hstreams.length_eq]
  · refine UInt16.toNat.inj ?_
    rw [hcounted.total, hcounted'.total, hslots, hstreams.length_eq, hinternals.length_eq]
  · rw [run_children, run_children]
    exact (reverse_perm (hperm.flatMap_right _)).append_right _

end order

theorem total_size_perm {order buffers : List Buffer} (hperm : order.Perm buffers) : total_size order = total_size buffers :=
  funext fun _ => ((hperm.filterMap _).map _).sum_nat

theorem Room.new {extra : Arena → Nat} (hfits : ∀ arena, extra arena ≤ arena.limit) : Room MftIndex.new extra := by
  intro arena
  have hzero : MftIndex.new.size arena = 0 := by cases arena <;> rfl
  rw [hzero, Nat.zero_add]
  exact hfits arena

theorem parse_all_new (env : Env) {buffers : List Buffer} (hfits : ∀ arena, total_size buffers arena ≤ arena.limit) :
    (parse_all env buffers MftIndex.new).view =
      (buffers.filterMap Buffer.segment?).foldl FileTable.store_segment FileView.absent := by
  rw [(parse_all_stores env Wf.empty (.new hfits)).2]
  exact congrArg (List.foldl _ · _) (funext view_empty)

/-- Two segments that disagree, parsed last, leave what the later one says. -/
theorem info_of_last (segments : List Segment) {segment other : Segment} {info : StandardInfo}
    (hbase : segment.base = other.base) (hsets : segment.sets_info = some info) :
    (((segments ++ [segment, other]).foldl FileTable.store_segment FileView.absent) segment.base).record.stdinfo =
        other.info info ∧
      (((segments ++ [other, segment]).foldl FileTable.store_segment FileView.absent) segment.base).record.stdinfo = info := by
  have hown : ∀ last : List Segment, (∀ segment' ∈ last, segment'.base = segment.base) →
      own_segments segment.base (segments ++ last) = own_segments segment.base segments ++ last := by
    intro last hlast
    have hall : own_segments segment.base last = last :=
      List.filter_eq_self.mpr fun segment' h => decide_eq_true (hlast segment' h)
    exact (List.filter_append segments last).trans (congrArg _ hall)
  constructor
  · rw [run_stdinfo, hown _ (by simp [hbase]), List.foldl_append, List.foldl_cons, info_of_sets_some hsets]
    rfl
  · rw [run_stdinfo, hown _ (by simp [hbase]), List.foldl_append, List.foldl_cons, List.foldl_cons,
      info_of_sets_some hsets]
    rfl

/-- The order of the buffers shows in the standard information at most, and there exactly when two
segments of one file disagree about it. -/
theorem order_independent_iff (env : Env) (buffers : List Buffer)
    (hfits : ∀ arena, total_size buffers arena ≤ arena.limit) :
    (∀ order : List Buffer, order.Perm buffers →
        SameIndex (parse_all env order MftIndex.new) (parse_all env buffers MftIndex.new)) ↔
      OneStandardInfo buffers := by
  have hview : ∀ order : List Buffer, order.Perm buffers → (parse_all env order MftIndex.new).view =
      (order.filterMap Buffer.segment?).foldl FileTable.store_segment FileView.absent := by
    intro order hperm
    exact parse_all_new env fun arena => total_size_perm hperm ▸ hfits arena
  constructor
  · intro h segment hsegment other hother hbase info hsets
    obtain ⟨buffer, hbuffer, hreads⟩ := List.mem_filterMap.mp hsegment
    obtain ⟨buffer', hbuffer', hreads'⟩ := List.mem_filterMap.mp hother
    by_cases hsame : buffer' = buffer
    · rw [hsame, hreads] at hreads'
      cases hreads'
      exact info_of_sets_some hsets info
    · have hmem : buffer' ∈ buffers.erase buffer := (List.mem_erase_of_ne hsame).mpr hbuffer'
      have hrest : buffers.Perm (((buffers.erase buffer).erase buffer') ++ [buffer, buffer']) := by
        refine (List.perm_cons_erase hbuffer).trans (((List.perm_cons_erase hmem).cons buffer).trans ?_)
        exact @List.perm_append_comm _ [buffer, buffer'] _
      have hswap : (((buffers.erase buffer).erase buffer') ++ [buffer', buffer]).Perm buffers :=
        ((List.Perm.swap buffer buffer' []).append_left _).trans hrest.symm
      have hone := (h _ hrest.symm segment.base).stdinfo
      have htwo := (h _ hswap segment.base).stdinfo
      have hlast := info_of_last (((buffers.erase buffer).erase buffer').filterMap Buffer.segment?) hbase hsets
      rw [hview _ hrest.symm, List.filterMap_append] at hone
      rw [hview _ hswap, List.filterMap_append] at htwo
      simp only [List.filterMap_cons, List.filterMap_nil, hreads, hreads'] at hone htwo
      rw [← hlast.1, hone, ← htwo, hlast.2]
  · intro h order hperm frs
    have hsegments := hperm.filterMap Buffer.segment?
    rw [hview order hperm, hview buffers (List.Perm.refl _)]
    refine same_file_of_perm hsegments frs ?_
    rw [run_stdinfo, run_stdinfo]
    refine (own_segments_perm hsegments frs).foldl_eq' ?_ _
    intro segment hsegment other hother info
    obtain ⟨hmem, hbase⟩ := List.mem_filter.mp hsegment
    obtain ⟨hmem', hbase'⟩ := List.mem_filter.mp hother
    have hbases : segment.base = other.base := (of_decide_eq_true hbase).trans (of_decide_eq_true hbase').symm
    have hin := hsegments.mem_iff.mp hmem
    have hin' := hsegments.mem_iff.mp hmem'
    exact info_comm (h segment hin other hin' hbases) (h other hin' segment hin hbases.symm) info

section sample

open uffs.lib.bytes

/-- `$STANDARD_INFORMATION` of a file created at this time. -/
def created_attribute (creation_time : UInt64) : List UInt8 :=
  resident_attribute STANDARD_INFORMATION_TYPE (padded 36 (u64.to_bytes creation_time))

/-- File 30, created at 1 and named `a`. -/
def created_30 : Buffer := ⟨30, record_bytes false 0 [created_attribute 1, file_name_attribute ROOT_FRS [97]]⟩

/-- Its extension record 31, with the name `b`. -/
def extension_31 : Buffer := ⟨31, record_bytes false 30 [file_name_attribute ROOT_FRS [98]]⟩

/-- The same extension record, which says that the file was created at 2. -/
def created_31 : Buffer := ⟨31, record_bytes false 30 [created_attribute 2]⟩

end sample

theorem order_independent_iff_extension : [created_30, extension_31].Pairwise (·.frs ≠ ·.frs) ∧
    ∀ order : List Buffer, order.Perm [created_30, extension_31] →
      SameIndex (parse_all compact.sample_env order MftIndex.new)
        (parse_all compact.sample_env [created_30, extension_31] MftIndex.new) := by
  refine ⟨by decide, (order_independent_iff compact.sample_env _ ?_).mpr ?_⟩
  · decide +kernel
  · have hkeep : ∀ segment ∈ [created_30, extension_31].filterMap Buffer.segment?,
        ∀ other ∈ [created_30, extension_31].filterMap Buffer.segment?,
          ∀ info ∈ segment.sets_info.toList, other.info info = info := by
      decide +kernel
    intro segment hsegment other hother _ info hsets
    exact hkeep segment hsegment other hother info (Option.mem_toList.mpr hsets)

/-- Two records of one file, both with standard information: the one parsed last wins. -/
theorem later_standard_info_wins : [created_30, created_31].Pairwise (·.frs ≠ ·.frs) ∧
    (∀ segment ∈ [created_30, created_31].filterMap Buffer.segment?, segment.brings_i30 = false) ∧
      ¬ ∀ order : List Buffer, order.Perm [created_30, created_31] →
        SameIndex (parse_all compact.sample_env order MftIndex.new)
          (parse_all compact.sample_env [created_30, created_31] MftIndex.new) := by
  refine ⟨by decide, by decide +kernel, fun h => ?_⟩
  have hone : ((parse_all compact.sample_env [created_30, created_31] MftIndex.new).view 30).record.stdinfo.created = 2 := by
    decide +kernel
  have htwo : ((parse_all compact.sample_env [created_31, created_30] MftIndex.new).view 30).record.stdinfo.created = 1 := by
    decide +kernel
  have hsame := congrArg StandardInfo.created (h [created_31, created_30] (List.Perm.swap _ _ _) 30).stdinfo
  exact absurd (htwo.symm.trans (hsame.trans hone)) (by decide)

end uffs.mft
