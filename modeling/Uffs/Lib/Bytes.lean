import Uffs.Lib.Word
import Uffs.Lib.Slice

/-! Fixed-size values as little-endian bytes, arrays of them, and what stands where in a buffer. -/

namespace uffs.lib.bytes

variable {α β : Type}

/-- The `width` low bytes of a number, lowest first. -/
def le_bytes : Nat → Nat → List UInt8
  | 0, _ => []
  | width + 1, n => UInt8.ofNat n :: le_bytes width (n / 256)

def from_le_bytes : List UInt8 → Nat
  | [] => 0
  | byte :: rest => byte.toNat + 256 * from_le_bytes rest

/-- Highest byte first. -/
def from_be_bytes (block : List UInt8) : Nat := block.foldl (fun value byte => value * 256 + byte.toNat) 0

theorem from_be_bytes_cons (byte : UInt8) (rest : List UInt8) :
    from_be_bytes (byte :: rest) = byte.toNat * 256 ^ rest.length + from_be_bytes rest := by
  have hstart : ∀ (block : List UInt8) (start : Nat), block.foldl (fun value byte => value * 256 + byte.toNat) start =
      start * 256 ^ block.length + from_be_bytes block := by
    intro block
    induction block with
    | nil => simp [from_be_bytes]
    | cons first block ih =>
      intro start
      have hfirst : from_be_bytes (first :: block) = first.toNat * 256 ^ block.length + from_be_bytes block := by
        rw [from_be_bytes, List.foldl_cons, ih, Nat.zero_mul, Nat.zero_add]
      rw [List.foldl_cons, ih, hfirst, List.length_cons, Nat.pow_succ', Nat.add_mul, Nat.mul_assoc, Nat.add_assoc]
  rw [from_be_bytes, List.foldl_cons, hstart, Nat.zero_mul, Nat.zero_add]

theorem from_be_bytes_lt (block : List UInt8) : from_be_bytes block < 256 ^ block.length := by
  induction block with
  | nil => exact Nat.one_pos
  | cons byte rest ih =>
    have hbyte : byte.toNat + 1 ≤ 256 := byte.toNat_lt
    have hstep := Nat.mul_le_mul_right (256 ^ rest.length) hbyte
    rw [Nat.add_mul, Nat.one_mul] at hstep
    rw [from_be_bytes_cons, List.length_cons, Nat.pow_succ]
    omega

@[simp] theorem le_bytes_length (width n : Nat) : (le_bytes width n).length = width := by
  induction width generalizing n with
  | zero => rfl
  | succ width ih => rw [le_bytes, List.length_cons, ih]

theorem from_le_bytes_le_bytes {width n : Nat} (hn : n < 256 ^ width) : from_le_bytes (le_bytes width n) = n := by
  induction width generalizing n with
  | zero =>
    rw [Nat.pow_zero] at hn
    exact (Nat.lt_one_iff.mp hn).symm
  | succ width ih =>
    have hrest : n / 256 < 256 ^ width := by
      rw [Nat.pow_succ] at hn
      exact Nat.div_lt_of_lt_mul (by omega)
    have hbyte : (UInt8.ofNat n).toNat = n % 256 := UInt8.toNat_ofNat'
    rw [le_bytes, from_le_bytes, ih hrest, hbyte]
    omega

/-- A type whose values are blocks of `size` bytes. -/
structure Pod (α : Type) where
  size : Nat
  to_bytes : α → List UInt8
  from_bytes : List UInt8 → α
  size_pos : 0 < size
  length_to_bytes : ∀ value, (to_bytes value).length = size
  from_to_bytes : ∀ value, from_bytes (to_bytes value) = value

/-- A machine word of `width + 1` bytes. -/
def Pod.word (width : Nat) (to_nat : α → Nat) (of_nat : Nat → α) (hlt : ∀ value, to_nat value < 256 ^ (width + 1))
    (hof : ∀ value, of_nat (to_nat value) = value) : Pod α where
  size := width + 1
  to_bytes value := le_bytes (width + 1) (to_nat value)
  from_bytes block := of_nat (from_le_bytes block)
  size_pos := Nat.succ_pos width
  length_to_bytes value := le_bytes_length _ _
  from_to_bytes value := by rw [from_le_bytes_le_bytes (hlt value), hof]

def u8 : Pod UInt8 := Pod.word 0 UInt8.toNat UInt8.ofNat (fun value => value.toNat_lt_size) fun _ => UInt8.ofNat_toNat

def u16 : Pod UInt16 := Pod.word 1 UInt16.toNat UInt16.ofNat (fun value => value.toNat_lt_size) fun _ => UInt16.ofNat_toNat

def u32 : Pod UInt32 := Pod.word 3 UInt32.toNat UInt32.ofNat (fun value => value.toNat_lt_size) fun _ => UInt32.ofNat_toNat

def u64 : Pod UInt64 := Pod.word 7 UInt64.toNat UInt64.ofNat (fun value => value.toNat_lt_size) fun _ => UInt64.ofNat_toNat

/-- The same bytes under another type. -/
def Pod.iso (pod : Pod α) (split : β → α) (join : α → β)
    (hjoin : ∀ value, join (split value) = value) : Pod β where
  size := pod.size
  to_bytes value := pod.to_bytes (split value)
  from_bytes block := join (pod.from_bytes block)
  size_pos := pod.size_pos
  length_to_bytes value := pod.length_to_bytes (split value)
  from_to_bytes value := by rw [pod.from_to_bytes, hjoin]

def i64 : Pod Int64 := u64.iso Int64.toUInt64 UInt64.toInt64 Int64.toInt64_toUInt64

/-- Two fields behind each other, without padding between them. -/
def Pod.pair (left : Pod α) (right : Pod β) : Pod (α × β) where
  size := left.size + right.size
  to_bytes value := left.to_bytes value.1 ++ right.to_bytes value.2
  from_bytes block := (left.from_bytes (block.take left.size), right.from_bytes (block.drop left.size))
  size_pos := Nat.add_pos_left left.size_pos right.size
  length_to_bytes value := by rw [List.length_append, left.length_to_bytes, right.length_to_bytes]
  from_to_bytes value := by
    rw [← left.length_to_bytes value.1, List.take_left, List.drop_left, left.from_to_bytes, right.from_to_bytes]

/-- `bytemuck::cast_slice`: the blocks of an array behind each other. -/
def cast_slice (pod : Pod α) (values : List α) : List UInt8 := values.flatMap pod.to_bytes

/-- `aligned_vec_from_bytes`: the array in a byte slice whose length is a multiple of the block size. -/
def aligned_vec_from_bytes (pod : Pod α) (block : List UInt8) : List α :=
  (chunks pod.size block).map pod.from_bytes

@[simp] theorem length_cast_slice (pod : Pod α) (values : List α) :
    (cast_slice pod values).length = values.length * pod.size := by
  induction values with
  | nil => simp [cast_slice]
  | cons value values ih =>
    rw [cast_slice, List.flatMap_cons, List.length_append, pod.length_to_bytes, List.length_cons, Nat.succ_mul]
    rw [cast_slice] at ih
    omega

theorem aligned_vec_cast_slice (pod : Pod α) (values : List α) :
    aligned_vec_from_bytes pod (cast_slice pod values) = values := by
  have hchunks : ∀ (values : List α) (fuel : Nat), (cast_slice pod values).length ≤ fuel →
      (chunksAux pod.size fuel (cast_slice pod values)).map pod.from_bytes = values := by
    intro values
    induction values with
    | nil =>
      intro fuel _
      cases fuel <;> rfl
    | cons value values ih =>
      intro fuel hfuel
      have hblock : cast_slice pod (value :: values) = pod.to_bytes value ++ cast_slice pod values := rfl
      have hlen := pod.length_to_bytes value
      have hpos := pod.size_pos
      rw [hblock] at hfuel ⊢
      rw [List.length_append, hlen] at hfuel
      cases fuel with
      | zero => omega
      | succ fuel =>
        cases hbytes : pod.to_bytes value with
        | nil =>
          rw [hbytes, List.length_nil] at hlen
          omega
        | cons byte rest =>
          rw [List.cons_append, chunksAux, ← List.cons_append, ← hbytes, ← hlen, List.take_left, List.drop_left,
            List.map_cons, pod.from_to_bytes, hlen, ih fuel (by omega)]
  exact hchunks values _ (Nat.le_refl _)

/-- The block stands at the offset of the buffer. -/
def At (data : List UInt8) (offset : Nat) (block : List UInt8) : Prop :=
  ∃ before after, data = before ++ block ++ after ∧ before.length = offset

theorem At.whole (data : List UInt8) : At data 0 data := ⟨[], [], by simp, rfl⟩

variable {data block : List UInt8} {offset : Nat}

theorem At.left {first second : List UInt8} (h : At data offset (first ++ second)) :
    At data offset first := by
  obtain ⟨before, after, hdata, hlen⟩ := h
  exact ⟨before, second ++ after, by rw [hdata]; simp, hlen⟩

theorem At.right {first second : List UInt8} (h : At data offset (first ++ second)) :
    At data (offset + first.length) second := by
  obtain ⟨before, after, hdata, hlen⟩ := h
  exact ⟨before ++ first, after, by rw [hdata]; simp, by rw [List.length_append, hlen]⟩

theorem At.slice (h : At data offset block) :
    slice? data offset (offset + block.length) = some block := by
  obtain ⟨before, after, rfl, rfl⟩ := h
  rw [slice?_append (by rw [List.length_append])]
  exact slice?_append_right before block

theorem At.le_length (h : At data offset block) :
    offset + block.length ≤ data.length := by
  obtain ⟨before, after, rfl, rfl⟩ := h
  rw [List.length_append, List.length_append]
  omega

theorem At.getElem? (h : At data offset block) {i : Nat} (hi : i < block.length) : data[offset + i]? = block[i]? := by
  obtain ⟨before, after, rfl, rfl⟩ := h
  rw [List.append_assoc, List.getElem?_append_right (Nat.le_add_right _ _), Nat.add_sub_cancel_left,
    List.getElem?_append_left hi]

theorem At.nested {inner : List UInt8} {i : Nat} (h : At data offset block)
    (hinner : At block i inner) : At data (offset + i) inner := by
  obtain ⟨before, after, rfl, rfl⟩ := h
  obtain ⟨before', after', rfl, rfl⟩ := hinner
  exact ⟨before ++ before', after' ++ after, by simp, by rw [List.length_append]⟩

/-- Entry `i` of an array stands at `i` block sizes. -/
theorem at_cast_slice {pod : Pod α} {values : List α} {i : Nat} {value : α} (hget : values[i]? = some value) :
    At (cast_slice pod values) (i * pod.size) (pod.to_bytes value) := by
  obtain ⟨hi, rfl⟩ := List.getElem?_eq_some_iff.mp hget
  refine ⟨cast_slice pod (values.take i), cast_slice pod (values.drop (i + 1)), ?_, ?_⟩
  · have hsplit : values = values.take i ++ [values[i]] ++ values.drop (i + 1) := by
      rw [List.append_assoc, List.singleton_append, List.getElem_cons_drop, List.take_append_drop]
    conv_lhs => rw [hsplit]
    simp only [cast_slice, List.flatMap_append, List.flatMap_singleton]
  · rw [length_cast_slice, List.length_take, Nat.min_eq_left (Nat.le_of_lt hi)]

/-- The `count` blocks that stand behind each other from `start` on. -/
def blocks (pod : Pod α) (data : List UInt8) (start count : Nat) : List α :=
  (List.range count).map fun i => pod.from_bytes ((data.drop (start + i * pod.size)).take pod.size)

@[simp] theorem blocks_length (pod : Pod α) (data : List UInt8) (start count : Nat) :
    (blocks pod data start count).length = count := by
  simp [blocks]

theorem chunksAux_eq_range {size fuel count : Nat} (hsize : 0 < size) {list : List UInt8}
    (hlist : list.length = count * size) (hfuel : list.length ≤ fuel) :
    chunksAux size fuel list = (List.range count).map fun i => (list.drop (i * size)).take size := by
  induction count generalizing fuel list with
  | zero =>
    obtain rfl : list = [] := List.length_eq_zero_iff.mp (by simpa using hlist)
    cases fuel <;> simp [chunksAux]
  | succ count ih =>
    have hpos : size ≤ list.length := by
      rw [hlist]
      exact Nat.le_mul_of_pos_left size (Nat.succ_pos count)
    cases list with
    | nil => simp at hpos; omega
    | cons first rest =>
      cases fuel with
      | zero => simp at hfuel
      | succ fuel =>
        have hrest : ((first :: rest).drop size).length = count * size := by
          rw [List.length_drop, hlist, Nat.succ_mul, Nat.add_sub_cancel]
        rw [chunksAux, ih hrest (by rw [List.length_drop]; omega), List.range_succ_eq_map, List.map_cons, List.map_map]
        congr 1
        · simp
        · apply List.map_congr_left
          intro i _
          simp [Nat.succ_mul, Nat.add_comm]

/-- The array in a slice of the buffer is the blocks at the place of the slice. -/
theorem aligned_vec_slice {pod : Pod α} {start count : Nat}
    (h : slice? data start (start + count * pod.size) = some block) :
    aligned_vec_from_bytes pod block = blocks pod data start count := by
  have hlen := slice?_length h
  rw [Nat.add_sub_cancel_left] at hlen
  rw [aligned_vec_from_bytes, chunks, chunksAux_eq_range pod.size_pos hlen (Nat.le_refl _), List.map_map, blocks]
  apply List.map_congr_left
  intro i hi
  have hroom : (i + 1) * pod.size ≤ count * pod.size := Nat.mul_le_mul_right _ (List.mem_range.mp hi)
  rw [Nat.succ_mul] at hroom
  rw [slice?] at h
  split at h
  next =>
    obtain rfl := Option.some.inj h
    rw [Function.comp_apply, List.drop_take, List.drop_drop, List.take_take, Nat.add_sub_cancel_left, Nat.min_eq_left (by omega)]
  next => cases h

end uffs.lib.bytes
