import Uffs.Mft.SplitStream

open uffs.lib uffs.text

namespace uffs.mft.metafile

/-! When the readers find all runs of a stream in several segments. -/

namespace Stored

variable {vol : Volume} {layout : List DataRun} {frs : UInt64} {stream_name : Option Str}

/-- The record numbers of the segments. -/
def numbers (stream : Stored vol layout frs stream_name) : List UInt64 := stream.segments.map StreamSegment.record

/-- The runs of the first segment in a record. -/
def runs_in (stream : Stored vol layout frs stream_name) : UInt64 → List DataRun :=
  first_piece stream.segments StreamSegment.record StreamSegment.runs

/-- The records the list names for the text of the stream's name. -/
def named (stream : Stored vol layout frs stream_name) : List UInt64 := visited (stream_name.getD []) stream.entries

/-- No segment is in the base record, and each of the named records that has one is linear, has no other, and
comes in the place of its segment. -/
structure InExtensions (stream : Stored vol layout frs stream_name) : Prop where
  name : stream_name.isSome
  outside : frs ∉ stream.numbers
  single : (stream.named.filter fun record => decide (record ∈ stream.numbers)) = stream.numbers
  mapped : stream.segments.flatMap StreamSegment.runs ≠ []
  linear : ∀ record ∈ stream.named, Linear vol layout record

/-- The base record is linear and has the one segment, or named records have one each. -/
def Reachable (stream : Stored vol layout frs stream_name) : Prop :=
  Linear vol layout frs ∧ (stream.numbers = [frs] ∨ stream.InExtensions)

/-- The runs are all runs of the stream, and every record on the way is read from where it is. -/
def ReadWhole (stream : Stored vol layout frs stream_name) (outcome : Reading (List DataRun × UInt64)) : Prop :=
  ∃ reads runs data_size, outcome = ⟨reads, .ok (runs, data_size)⟩ ∧ vcns runs = metafile.whole stream.clusters ∧
    ∀ read ∈ reads, AtPlace vol layout read

theorem vcns_append (left right : List DataRun) : vcns (left ++ right) = vcns left ++ vcns right := List.flatMap_append

theorem whole_sorted (clusters : Nat) : (metafile.whole clusters).Pairwise (· < ·) := by
  rw [metafile.whole, List.pairwise_map]
  exact List.pairwise_lt_range.imp fun hlt => Int.ofNat_lt.mpr hlt

theorem sorted (stream : Stored vol layout frs stream_name) :
    (vcns (stream.segments.flatMap StreamSegment.runs)).Pairwise (· < ·) := stream.whole ▸ whole_sorted _

variable {segment : StreamSegment}

section base

section

variable (stream : Stored vol layout frs stream_name)

include stream

/-- What the search for the attribute finds in a record of the file: its first segment of the stream. -/
theorem find_data_attr_eq {record : List UInt8} {attrs : List AttributeRef} (hparse : attributes record = some attrs)
    {number : UInt64} (hattrs : attrs.filter (is_wanted (stream_name.map encode_utf16)) =
      (stream.segments.filter fun segment => segment.record = number).map StreamSegment.attr) :
    ∃ data_size, find_data_attr record (stream_name.map encode_utf16) =
      (.ok ((stream.segments.find? fun segment => segment.record = number).map fun segment => (segment.runs, data_size)) :
        Checked MetafileError _) := by
  have hfind : attrs.find? (is_wanted (stream_name.map encode_utf16)) =
      (stream.segments.find? fun segment => segment.record = number).map StreamSegment.attr := by
    rw [← List.head?_filter, hattrs, List.head?_map, List.head?_filter]
  cases hsegment : stream.segments.find? fun segment => segment.record = number with
  | none =>
    rw [hsegment] at hfind
    refine ⟨0, ?_⟩
    simp only [find_data_attr, hparse, hfind, Option.map_none]
  | some segment =>
    rw [hsegment] at hfind
    obtain ⟨hresident, hruns⟩ := stream.runs segment (List.mem_of_find?_eq_some hsegment)
    obtain ⟨non_resident, hresident⟩ := Option.isSome_iff_exists.mp hresident
    refine ⟨non_resident.data_size.toUInt64, ?_⟩
    simp only [find_data_attr, hparse, hfind, Option.map_some, hresident, hruns, Checked.ok_bind]
    rfl

theorem runs_in_eq (number : UInt64) :
    stream.runs_in number = ((stream.segments.find? fun segment => segment.record = number).map StreamSegment.runs).getD [] := rfl

theorem find_none_iff {number : UInt64} :
    (stream.segments.find? fun segment => segment.record = number) = none ↔ number ∉ stream.numbers := by
  simp [numbers, List.find?_eq_none]

/-- One segment alone has all VCNs only where there is no other. -/
theorem single_whole_iff (hmem : segment ∈ stream.segments) :
    vcns segment.runs = metafile.whole stream.clusters ↔ stream.segments = [segment] := by
  constructor
  · intro heq
    rcases stream.split with hsplit | ⟨other, hother⟩
    · have hflat : ∀ list : List StreamSegment, vcns (list.flatMap StreamSegment.runs) = list.flatMap fun s => vcns s.runs :=
        fun list => List.flatMap_assoc
      have hsorted := stream.sorted
      rw [hflat] at hsorted
      have hchosen : [segment].flatMap (fun s => vcns s.runs) = stream.segments.flatMap fun s => vcns s.runs := by
        rw [← hflat stream.segments, stream.whole, List.flatMap_singleton, heq]
      exact (eq_of_flatMap_eq hsplit hsorted (by simpa using hmem) hchosen).symm
    · rw [hother, List.mem_singleton] at hmem
      rw [hother, hmem]
  · intro heq
    rw [← stream.whole, heq, List.flatMap_singleton]

end

end base

section extensions

variable (stream : Stored vol layout frs stream_name)
  (haddressable : ∀ offset position, place vol layout offset = some position → position < 2 ^ 64)

/-- The loop reads every record of the list. -/
theorem extension_runs_reads {want : List UInt16} {numbers : List UInt64} {runs : List DataRun} {data_size : UInt64}
    {reads : List RecordRead} {value : List DataRun × UInt64}
    (h : extension_runs vol want numbers runs data_size = ⟨reads, .ok value⟩) :
    reads = numbers.map fun number => (number, linear_offset vol number) := by
  induction numbers generalizing runs data_size reads with
  | nil =>
    rw [extension_runs, Traced.pure_eq, Traced.mk.injEq] at h
    exact h.1.symm
  | cons number rest ih =>
    rw [extension_runs, Traced.bind_eq_ok] at h
    obtain ⟨first, record, others, hrecord, h, rfl⟩ := h
    obtain ⟨found, _, h⟩ := Traced.of_bind_eq_ok.mp h
    rw [read_frs_record_reads hrecord, List.map_cons, List.singleton_append]
    congr 1
    cases found with
    | none => exact ih h
    | some found => exact ih h

include haddressable in
/-- Over linear records of the file it puts their first segments together. -/
theorem extension_runs_eq {numbers : List UInt64} (hnumbers : ∀ number ∈ numbers, number ∈ stream.entries.map ListEntry.frs)
    (hplace : ∀ number ∈ numbers, AtPlace vol layout (number, linear_offset vol number)) {want : List UInt16}
    (hwant : stream_name.map encode_utf16 = some want) (runs : List DataRun) (data_size : UInt64) :
    ∃ total, extension_runs vol want numbers runs data_size =
      ⟨numbers.map fun number => (number, linear_offset vol number), .ok (runs ++ numbers.flatMap stream.runs_in, total)⟩ := by
  induction numbers generalizing runs data_size with
  | nil => exact ⟨data_size, by rw [extension_runs, List.flatMap_nil, List.append_nil]; rfl⟩
  | cons number rest ih =>
    have ih := ih (fun other hmem => hnumbers other (List.mem_cons_of_mem _ hmem)) fun other hmem =>
      hplace other (List.mem_cons_of_mem _ hmem)
    obtain ⟨attrs, hattrs, hsegments⟩ := stream.records number (.inr (hnumbers number List.mem_cons_self))
    obtain ⟨record, hread, hparse⟩ := read_frs_record_eq haddressable (hplace number List.mem_cons_self) hattrs
    obtain ⟨size, hfound⟩ := stream.find_data_attr_eq hparse hsegments
    rw [hwant] at hfound
    have hpiece := stream.runs_in_eq number
    cases hfind : stream.segments.find? fun segment => segment.record = number with
    | none =>
      rw [hfind] at hfound hpiece
      obtain ⟨total, htotal⟩ := ih runs data_size
      refine ⟨total, ?_⟩
      rw [extension_runs, hread, Traced.mk_ok_bind, hfound, Traced.of_ok_bind, List.map_cons, List.flatMap_cons, hpiece]
      simp only [Option.map_none, htotal, Option.getD_none, List.nil_append, List.singleton_append]
    | some segment =>
      rw [hfind] at hfound hpiece
      obtain ⟨total, htotal⟩ := ih (runs ++ segment.runs) (if data_size = 0 then size else data_size)
      refine ⟨total, ?_⟩
      rw [extension_runs, hread, Traced.mk_ok_bind, hfound, Traced.of_ok_bind, List.map_cons, List.flatMap_cons, hpiece]
      simp only [Option.map_some, htotal, Option.getD_some, List.singleton_append, List.append_assoc]

/-- The value of the list is what is read of it. -/
theorem attribute_list_eq {record : List UInt8} {attrs : List AttributeRef} (hparse : attributes record = some attrs)
    {list_attr : AttributeRef} (hfind : (attrs.find? fun attr => attr.header.type_code == ATTRIBUTE_LIST_TYPE) = some list_attr)
    {list : List UInt8} (hvalue : HasValue vol list_attr list) : attribute_list vol record = .ok (some list) := by
  cases hvalue with
  | resident hresident => simp only [attribute_list, hparse, hfind, hresident]
  | non_resident hresident hdata hruns hfit hposition hsize =>
    simp only [attribute_list, hparse, hfind, hresident, hdata, hruns, Checked.ok_bind, read_runs_eq hfit hposition hsize]
    rfl

theorem named_listed {number : UInt64} (h : number ∈ stream.named) : number ∈ stream.entries.map ListEntry.frs := by
  rw [named, visited, mem_distinct] at h
  obtain ⟨entry, hentry, rfl⟩ := List.mem_map.mp h
  exact List.mem_map_of_mem (List.mem_filter.mp hentry).1

/-- The list names the record of each segment. -/
theorem record_named {name : Str} {stream : Stored vol layout frs (some name)}
    (hlist : (stream.entries.filter fun entry => entry.type_code = DATA_TYPE ∧
      entry.name = ((some name).map encode_utf16).getD []).map ListEntry.frs = stream.segments.map StreamSegment.record) (hsegment : segment ∈ stream.segments) : segment.record ∈ stream.named := by
  have hmem : segment.record ∈ stream.segments.map StreamSegment.record := List.mem_map_of_mem hsegment
  rw [← hlist, List.mem_map] at hmem
  obtain ⟨entry, hentry, hrecord⟩ := hmem
  obtain ⟨hentry, hshown⟩ := List.mem_filter.mp hentry
  obtain ⟨htype, hname⟩ := of_decide_eq_true hshown
  have htext : (decode_units entry.name).1 = name := by
    rw [hname, Option.map_some, Option.getD_some, decode_units_encode]
  rw [named, visited, mem_distinct, ← hrecord]
  exact List.mem_map_of_mem (List.mem_filter.mpr ⟨hentry, by simpa [ListEntry.Shows, htype] using htext⟩)

/-- Behind a base record without the stream, the readers put together what the named records have. -/
theorem resolve_extensions_iff {name : Str} {record list : List UInt8} {offset : Nat}
    (hread : read_frs_record vol frs = ⟨[(frs, offset)], .ok record⟩)
    (hfound : find_data_attr record (some (encode_utf16 name)) = (.ok none : Checked MetafileError _))
    (hlist : attribute_list vol record = .ok (some list)) {reads : List RecordRead} {found : List DataRun × UInt64} :
    resolve_data_runs vol frs (some name) = ⟨reads, .ok found⟩ ↔
      ∃ others, extension_runs vol (encode_utf16 name) (attribute_list_data_frs list name) [] 0 = ⟨others, .ok found⟩ ∧
        found.1 ≠ [] ∧ reads = (frs, offset) :: others := by
  obtain ⟨next, hsome, hnone, hopen⟩ : ∃ next : Option (List DataRun × UInt64) → Reading (List DataRun × UInt64),
      (∀ found, next (some found) = pure found) ∧ next none = .error (.no_matching_stream frs (some name)) ∧
      resolve_data_runs vol frs (some name) =
        ⟨[(frs, offset)] ++ (find_data_in_extensions vol record name >>= next).reads,
          (find_data_in_extensions vol record name >>= next).result⟩ := by
    rw [resolve_data_runs, hread, Traced.mk_ok_bind, Option.map_some, hfound]
    exact ⟨_, fun _ => rfl, rfl, rfl⟩
  have hloop : find_data_in_extensions vol record name =
      extension_runs vol (encode_utf16 name) (attribute_list_data_frs list name) [] 0 >>= fun found =>
        (if found.1.isEmpty then pure none else pure (some found) : Reading (Option (List DataRun × UInt64))) := by
    unfold find_data_in_extensions
    rw [hlist, Traced.of_ok_bind]
  rw [hopen, hloop]
  obtain ⟨others, result⟩ := extension_runs vol (encode_utf16 name) (attribute_list_data_frs list name) [] 0
  cases result with
  | panic => simp [bind, Traced.bind]
  | error e => simp [bind, Traced.bind]
  | ok value =>
    by_cases hempty : value.1 = []
    · simp only [Traced.mk_ok_bind, hempty, List.isEmpty_nil, if_true, Traced.pure_eq, hnone, List.append_nil]
      constructor
      · intro h
        cases (Traced.mk.inj h).2
      · rintro ⟨_, h, hne, _⟩
        cases (Traced.mk.inj h).2
        exact absurd hempty hne
    · have hfalse : value.1.isEmpty = false := by simpa using hempty
      simp only [Traced.mk_ok_bind, hfalse, Bool.false_eq_true, if_false, Traced.pure_eq, hsome, List.append_nil, List.singleton_append,
        Traced.mk.injEq, Checked.ok.injEq]
      constructor
      · rintro ⟨rfl, rfl⟩
        exact ⟨others, ⟨rfl, rfl⟩, hempty, rfl⟩
      · rintro ⟨_, ⟨rfl, rfl⟩, _, rfl⟩
        exact ⟨rfl, rfl⟩

end extensions

section whole

variable (stream : Stored vol layout frs stream_name)

/-- The base record is read first, at its linear offset. -/
theorem ReadWhole.base_linear (hcluster : 0 < vol.bytes_per_cluster)
    (h : stream.ReadWhole (resolve_data_runs vol frs stream_name)) : Linear vol layout frs := by
  obtain ⟨reads, runs, data_size, houtcome, _, hplaces⟩ := h
  rw [resolve_data_runs, Traced.bind_eq_ok] at houtcome
  obtain ⟨first, record, rest, hread, _, rfl⟩ := houtcome
  rw [read_frs_record_reads hread] at hplaces
  exact (at_place_iff hcluster).mp (hplaces _ (List.mem_append_left _ (List.mem_singleton_self _)))

/-- A segment in the base record is all that is found. -/
theorem read_whole_base_iff (hplace : AtPlace vol layout (frs, linear_offset vol frs)) {record : List UInt8}
    (hread : read_frs_record vol frs = ⟨[(frs, linear_offset vol frs)], .ok record⟩) {data_size : UInt64}
    (hsegment : (stream.segments.find? fun segment => segment.record = frs) = some segment)
    (hfound : find_data_attr record (stream_name.map encode_utf16) = (.ok (some (segment.runs, data_size)) : Checked MetafileError _)) :
    stream.ReadWhole (resolve_data_runs vol frs stream_name) ↔ stream.numbers = [frs] := by
  have hmem := List.mem_of_find?_eq_some hsegment
  have hrecord : segment.record = frs := by simpa using List.find?_some hsegment
  have hresolve : resolve_data_runs vol frs stream_name = ⟨[(frs, linear_offset vol frs)], .ok (segment.runs, data_size)⟩ := by
    rw [resolve_data_runs, hread, Traced.mk_ok_bind, hfound]
    rfl
  have hone : stream.numbers = [frs] ↔ stream.segments = [segment] := by
    constructor
    · intro hnumbers
      obtain ⟨other, hother⟩ := List.length_eq_one_iff.mp (by rw [← List.length_map, ← numbers, hnumbers]; rfl)
      rw [hother, List.mem_singleton] at hmem
      rw [hother, hmem]
    · intro hsegments
      rw [numbers, hsegments, List.map_singleton, hrecord]
  rw [hone, ← stream.single_whole_iff hmem]
  constructor
  · rintro ⟨reads, runs, size, houtcome, hwhole, _⟩
    rw [hresolve, Traced.mk.injEq] at houtcome
    cases houtcome.2
    exact hwhole
  · intro hwhole
    refine ⟨_, _, _, hresolve, hwhole, ?_⟩
    simpa using hplace

section

variable (hcluster : 0 < vol.bytes_per_cluster)
  (haddressable : ∀ offset position, place vol layout offset = some position → position < 2 ^ 64)

include hcluster haddressable

/-- Without one, the named records must have the segments one by one. -/
theorem read_whole_extensions_iff {name : Str} {stream : Stored vol layout frs (some name)}
    (hplace : AtPlace vol layout (frs, linear_offset vol frs)) (houtside : frs ∉ stream.numbers) {record list : List UInt8}
    (hread : read_frs_record vol frs = ⟨[(frs, linear_offset vol frs)], .ok record⟩)
    (hfound : find_data_attr record (some (encode_utf16 name)) = (.ok none : Checked MetafileError _))
    (hlist : attribute_list vol record = .ok (some list)) (hlisted : Listed list 0 stream.entries)
    (hall : ∀ segment ∈ stream.segments, segment.record ∈ stream.named) :
    stream.ReadWhole (resolve_data_runs vol frs (some name)) ↔ stream.InExtensions := by
  have hnamed : attribute_list_data_frs list name = stream.named := attribute_list_data_frs_eq hlisted name
  have hresolve := fun reads found => @resolve_extensions_iff vol frs name record list _ hread hfound hlist reads found
  rw [hnamed] at hresolve
  have hsingle : vcns (stream.named.flatMap stream.runs_in) = vcns (stream.segments.flatMap StreamSegment.runs) ↔
      (stream.named.filter fun number => decide (number ∈ stream.numbers)) = stream.numbers :=
    first_pieces_whole_iff vcns_append rfl (distinct_nodup _) hall stream.split stream.sorted
  have hruns : (∀ number ∈ stream.named, AtPlace vol layout (number, linear_offset vol number)) →
      ∃ total, extension_runs vol (encode_utf16 name) stream.named [] 0 =
        ⟨stream.named.map fun number => (number, linear_offset vol number), .ok (stream.named.flatMap stream.runs_in, total)⟩ :=
    fun hplaces => stream.extension_runs_eq haddressable (fun _ hmem => stream.named_listed hmem) hplaces rfl [] 0
  have hall_runs : (stream.named.filter fun number => decide (number ∈ stream.numbers)) = stream.numbers →
      stream.named.flatMap stream.runs_in = stream.segments.flatMap StreamSegment.runs :=
    flatMap_first_piece_of_keys (distinct_nodup _)
  constructor
  · rintro ⟨reads, runs, size, houtcome, hwhole, hplaces⟩
    obtain ⟨others, hloop, hne, rfl⟩ := (hresolve _ _).mp houtcome
    obtain rfl := extension_runs_reads hloop
    have hnumbers : ∀ number ∈ stream.named, AtPlace vol layout (number, linear_offset vol number) :=
      fun number hmem => hplaces _ (List.mem_cons_of_mem _ (List.mem_map_of_mem hmem))
    obtain ⟨total, hfirst⟩ := hruns hnumbers
    rw [hfirst, Traced.mk.injEq] at hloop
    cases hloop.2
    have hone := hsingle.mp (hwhole.trans stream.whole.symm)
    refine ⟨rfl, houtside, hone, ?_, fun number hmem => (at_place_iff hcluster).mp (hnumbers number hmem)⟩
    rw [← hall_runs hone]
    exact hne
  · intro h
    have hnumbers : ∀ number ∈ stream.named, AtPlace vol layout (number, linear_offset vol number) :=
      fun number hmem => (at_place_iff hcluster).mpr (h.linear number hmem)
    obtain ⟨total, hfirst⟩ := hruns hnumbers
    refine ⟨_, _, _, (hresolve _ _).mpr ⟨_, hfirst, ?_, rfl⟩, (hsingle.mpr h.single).trans stream.whole, ?_⟩
    · have hmapped := h.mapped
      rw [← hall_runs h.single] at hmapped
      exact hmapped
    · intro read hmem
      rcases List.mem_cons.mp hmem with rfl | hmem
      · exact hplace
      · obtain ⟨number, hnumber, rfl⟩ := List.mem_map.mp hmem
        exact hnumbers number hnumber

/-- A stream is read whole exactly where the readers' ways lead to all of it. -/
theorem read_whole_iff : stream.ReadWhole (resolve_data_runs vol frs stream_name) ↔ stream.Reachable := by
  by_cases hlinear : Linear vol layout frs
  · have hplace := (at_place_iff hcluster).mpr hlinear
    obtain ⟨attrs, hattrs, hsegments⟩ := stream.records frs (.inl rfl)
    obtain ⟨record, hread, hparse⟩ := read_frs_record_eq haddressable hplace hattrs
    obtain ⟨data_size, hfound⟩ := stream.find_data_attr_eq hparse hsegments
    rw [Reachable, and_iff_right hlinear]
    cases hsegment : stream.segments.find? fun segment => segment.record = frs with
    | some segment =>
      rw [hsegment] at hfound
      rw [stream.read_whole_base_iff hplace hread hsegment hfound, iff_self_or]
      intro hextensions
      have hmem : frs ∈ stream.numbers := by
        by_contra hnot
        rw [stream.find_none_iff.mpr hnot] at hsegment
        cases hsegment
      exact absurd hmem hextensions.outside
    | none =>
      rw [hsegment] at hfound
      have houtside := stream.find_none_iff.mp hsegment
      have hbase : stream.numbers ≠ [frs] := by
        intro hnumbers
        exact houtside (hnumbers ▸ List.mem_singleton_self frs)
      rw [or_iff_right hbase]
      cases stream_name with
      | none =>
        constructor
        · rintro ⟨reads, runs, size, houtcome, _⟩
          rw [resolve_data_runs, hread, Traced.mk_ok_bind, hfound] at houtcome
          cases (Traced.mk.inj houtcome).2
        · intro hextensions
          exact absurd hextensions.name (by simp)
      | some name =>
        obtain ⟨segment, rest, hcons⟩ := List.exists_cons_of_ne_nil stream.nonempty
        have hsome : ∃ segment ∈ stream.segments, segment.record ≠ frs := by
          refine ⟨segment, hcons ▸ List.mem_cons_self, ?_⟩
          rintro rfl
          exact houtside (List.mem_map_of_mem (hcons ▸ List.mem_cons_self))
        obtain ⟨attrs', list_attr, list, hattrs', hfind, hvalue, hlisted, hrecords⟩ := stream.list hsome
        obtain rfl : attrs' = attrs := Option.some.inj (hattrs'.symm.trans hattrs)
        exact read_whole_extensions_iff hcluster haddressable hplace houtside hread hfound (attribute_list_eq hparse hfind hvalue) hlisted
          fun segment hsegment => record_named hrecords hsegment
  · constructor
    · intro h
      exact absurd (ReadWhole.base_linear stream hcluster h) hlinear
    · intro h
      exact absurd h.1 hlinear

end

end whole

end Stored

end uffs.mft.metafile
