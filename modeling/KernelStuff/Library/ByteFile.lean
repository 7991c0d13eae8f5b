import Mathlib.Data.List.Basic

/-!
# Files of bytes

An open file is its content with the position of the descriptor.  A write goes
over what is there and past the end; a gap is filled with zeros.
-/

namespace KernelStuff.Library

/-- An open file. -/
structure ByteFile where
  bytes : List UInt8
  pos : Nat
  deriving DecidableEq

/-- The part of `bytes` from `pos` on that a read of `count` bytes gets. -/
def slice (bytes : List UInt8) (pos count : Nat) : List UInt8 :=
  (bytes.drop pos).take count

/-- A write of nothing does nothing, not even beyond the end. -/
def overwrite (bytes : List UInt8) (pos : Nat) (data : List UInt8) :
    List UInt8 :=
  if data = [] then bytes
  else
    bytes.take pos ++ List.replicate (pos - bytes.length) 0 ++ data ++
      bytes.drop (pos + data.length)

/-- Cut off, or filled up with zeros. -/
def truncate (bytes : List UInt8) (length : Nat) : List UInt8 :=
  bytes.take length ++ List.replicate (length - bytes.length) 0

/-! ## Slices -/

theorem slice_length (bytes : List UInt8) (pos count : Nat) :
    (slice bytes pos count).length = min count (bytes.length - pos) := by
  rw [slice, List.length_take, List.length_drop]

theorem slice_length_of_le
    {bytes : List UInt8} {pos count : Nat}
    (within : pos + count ≤ bytes.length) :
    (slice bytes pos count).length = count := by
  rw [slice_length]
  omega

@[simp]
theorem slice_zero (bytes : List UInt8) (pos : Nat) :
    slice bytes pos 0 = [] :=
  List.take_zero

theorem slice_all (bytes : List UInt8) : slice bytes 0 bytes.length = bytes :=
  List.take_length

theorem slice_to_end (bytes : List UInt8) (pos : Nat) :
    slice bytes pos (bytes.length - pos) = bytes.drop pos := by
  rw [slice, ← List.length_drop, List.take_length]

theorem getElem?_slice (bytes : List UInt8) (pos count i : Nat) :
    (slice bytes pos count)[i]? =
      if i < count then bytes[pos + i]? else none := by
  rw [slice, List.getElem?_take, List.getElem?_drop]

/-- Two contents with the same bytes in a range have the same slice there. -/
theorem slice_congr
    {bytes other : List UInt8} {pos count : Nat}
    (same : ∀ i, pos ≤ i → i < pos + count → other[i]? = bytes[i]?) :
    slice other pos count = slice bytes pos count := by
  apply List.ext_getElem?
  intro i
  rw [getElem?_slice, getElem?_slice]
  split
  · next within => exact same (pos + i) (by omega) (by omega)
  · rfl

/-- A slice of a slice. -/
theorem slice_slice
    (bytes : List UInt8) {pos count start length : Nat}
    (within : start + length ≤ count) :
    slice (slice bytes pos count) start length =
      slice bytes (pos + start) length := by
  apply List.ext_getElem?
  intro i
  rw [getElem?_slice, getElem?_slice, getElem?_slice, Nat.add_assoc]
  by_cases inside : i < length
  · rw [if_pos inside, if_pos inside, if_pos (by omega)]
  · rw [if_neg inside, if_neg inside]

theorem drop_slice (bytes : List UInt8) (pos count start : Nat) :
    (slice bytes pos count).drop start =
      slice bytes (pos + start) (count - start) := by
  rw [slice, slice, List.drop_take, List.drop_drop]

/-- What a short read gets is a read of its own length. -/
theorem slice_of_length
    {bytes : List UInt8} {pos count most : Nat}
    (length : (slice bytes pos most).length = count) :
    slice bytes pos most = slice bytes pos count := by
  rw [slice, List.length_take] at length
  rw [slice, slice, ← length, List.take_eq_take_min, Nat.min_comm]

theorem slice_append (bytes : List UInt8) (pos first second : Nat) :
    slice bytes pos (first + second) =
      slice bytes pos first ++ slice bytes (pos + first) second := by
  rw [slice, slice, slice, List.take_add, List.drop_drop]

theorem take_slice_drop (bytes : List UInt8) (pos count : Nat) :
    bytes.take pos ++ slice bytes pos count ++ bytes.drop (pos + count) =
      bytes := by
  rw [slice, ← List.drop_drop, List.append_assoc, List.take_append_drop,
    List.take_append_drop]

/-- A slice of the front part of a concatenation. -/
theorem slice_of_append
    {front : List UInt8} {pos count : Nat} (rest : List UInt8)
    (within : pos + count ≤ front.length) :
    slice (front ++ rest) pos count = slice front pos count :=
  slice_congr fun i _ below => List.getElem?_append_left (by omega)

/-- The middle part of a concatenation. -/
theorem slice_middle
    {before data after : List UInt8} {pos count : Nat}
    (start : before.length = pos) (length : data.length = count) :
    slice (before ++ data ++ after) pos count = data := by
  rw [slice, List.append_assoc, ← start, List.drop_left, ← length,
    List.take_left]

/-! ## Writing -/

theorem overwrite_nil (bytes : List UInt8) (pos : Nat) :
    overwrite bytes pos [] = bytes :=
  if_pos rfl

theorem overwrite_end (bytes data : List UInt8) :
    overwrite bytes bytes.length data = bytes ++ data := by
  rw [overwrite]
  split
  · next isNil => rw [isNil, List.append_nil]
  · rw [List.take_length, Nat.sub_self, List.replicate_zero, List.append_nil,
      List.drop_eq_nil_of_le (Nat.le_add_right _ _), List.append_nil]

/-- A write at the end of what was written before from the start on. -/
theorem overwrite_front (old front data : List UInt8) :
    overwrite (front ++ old.drop front.length) front.length data =
      front ++ data ++ old.drop (front ++ data).length := by
  rw [overwrite]
  split
  · next isNil => rw [isNil, List.append_nil]
  · have noGap :
        front.length - (front ++ old.drop front.length).length = 0 := by
      rw [List.length_append]
      omega
    rw [noGap, List.replicate_zero, List.append_nil, List.take_left,
      ← List.drop_drop, List.drop_left, List.drop_drop, List.length_append]

theorem overwrite_of_within
    {bytes data : List UInt8} {pos : Nat}
    (within : pos + data.length ≤ bytes.length) :
    overwrite bytes pos data =
      bytes.take pos ++ data ++ bytes.drop (pos + data.length) := by
  rw [overwrite]
  split
  · next isNil =>
      rw [isNil, List.append_nil, List.length_nil, Nat.add_zero,
        List.take_append_drop]
  · have noGap : pos - bytes.length = 0 := by omega
    rw [noGap, List.replicate_zero, List.append_nil]

/-- Writing what is there. -/
theorem overwrite_slice (bytes : List UInt8) (pos count : Nat) :
    overwrite bytes pos (slice bytes pos count) = bytes := by
  have length := slice_length bytes pos count
  by_cases isNil : slice bytes pos count = []
  · rw [isNil, overwrite_nil]
  · have positive := List.length_pos_of_ne_nil isNil
    have within : pos + (slice bytes pos count).length ≤ bytes.length := by
      omega
    rw [overwrite_of_within within]
    generalize size : (slice bytes pos count).length = n
    rw [slice_of_length size, take_slice_drop]

/-- Writing over the middle part of a concatenation. -/
theorem overwrite_middle
    {before old data after : List UInt8} {pos : Nat}
    (start : before.length = pos) (same : old.length = data.length) :
    overwrite (before ++ old ++ after) pos data = before ++ data ++ after := by
  have within : pos + data.length ≤ (before ++ old ++ after).length := by
    rw [List.length_append, List.length_append]
    omega
  have front : (before ++ old).length = pos + data.length := by
    rw [List.length_append, start, same]
  rw [overwrite_of_within within, ← front, List.drop_left,
    List.append_assoc before, ← start, List.take_left]

theorem overwrite_length
    {bytes data : List UInt8} {pos : Nat}
    (within : pos + data.length ≤ bytes.length) :
    (overwrite bytes pos data).length = bytes.length := by
  rw [overwrite_of_within within, List.length_append, List.length_append,
    List.length_take, List.length_drop]
  omega

/-- What was written is there. -/
theorem slice_overwrite_self (bytes : List UInt8) (pos : Nat)
    (data : List UInt8) :
    slice (overwrite bytes pos data) pos data.length = data := by
  by_cases written : data = []
  · rw [written]
    exact slice_zero _ _
  · rw [overwrite, if_neg written]
    apply slice_middle _ rfl
    rw [List.length_append, List.length_take, List.length_replicate]
    omega

theorem drop_overwrite (bytes : List UInt8) (pos : Nat) (data : List UInt8)
    (written : data ≠ []) :
    (overwrite bytes pos data).drop (pos + data.length) =
      bytes.drop (pos + data.length) := by
  have front :
      (bytes.take pos ++ List.replicate (pos - bytes.length) 0 ++
        data).length = pos + data.length := by
    rw [List.length_append, List.length_append, List.length_take,
      List.length_replicate]
    omega
  rw [overwrite, if_neg written, ← front, List.drop_left]

theorem getElem?_overwrite_inside
    (bytes : List UInt8) (pos : Nat) {data : List UInt8} {i : Nat}
    (inside : i < data.length) :
    (overwrite bytes pos data)[pos + i]? = data[i]? := by
  have part := getElem?_slice (overwrite bytes pos data) pos data.length i
  rw [slice_overwrite_self, if_pos inside] at part
  exact part.symm

/-- After a part of the data has been written all of it is there exactly if the
rest was there before. -/
theorem slice_overwrite_append_iff
    (bytes : List UInt8) (pos : Nat) (part rest : List UInt8) :
    slice (overwrite bytes pos part) pos (part.length + rest.length) =
        part ++ rest ↔
      slice bytes (pos + part.length) rest.length = rest := by
  by_cases written : part = []
  · subst written
    rw [overwrite_nil, List.length_nil, Nat.zero_add, Nat.add_zero,
      List.nil_append]
  · rw [slice_append, slice_overwrite_self, List.append_cancel_left_eq,
      slice, drop_overwrite bytes pos part written, slice]

/-- A write leaves the rest alone. -/
theorem getElem?_overwrite_outside
    {bytes data : List UInt8} {pos : Nat}
    (within : pos + data.length ≤ bytes.length) {i : Nat}
    (outside : i < pos ∨ pos + data.length ≤ i) :
    (overwrite bytes pos data)[i]? = bytes[i]? := by
  have front : (bytes.take pos).length = pos := by
    rw [List.length_take]
    omega
  rw [overwrite_of_within within]
  rcases outside with before | after
  · rw [List.append_assoc, List.getElem?_append_left (by omega),
      List.getElem?_take, if_pos before]
  · rw [List.getElem?_append_right (by
      rw [List.length_append, front]
      exact after), List.length_append, front, List.getElem?_drop,
      Nat.add_sub_cancel' after]

/-- A write into the front part. -/
theorem take_overwrite
    {bytes data : List UInt8} {pos count : Nat}
    (front : pos + data.length ≤ count) (within : count ≤ bytes.length) :
    (overwrite bytes pos data).take count =
      overwrite (bytes.take count) pos data := by
  have length : (bytes.take count).length = count := by
    rw [List.length_take, Nat.min_eq_left within]
  have written : (bytes.take pos ++ data).length = pos + data.length := by
    rw [List.length_append, List.length_take, Nat.min_eq_left (by omega)]
  have kept : (bytes.take pos ++ data).take count = bytes.take pos ++ data :=
    List.take_of_length_le (by omega)
  rw [overwrite_of_within (by omega), overwrite_of_within (by omega),
    List.take_append, kept, written, List.take_take,
    Nat.min_eq_left (by omega), List.drop_take]

theorem drop_overwrite_of_le
    {bytes data : List UInt8} {pos count : Nat}
    (within : pos + data.length ≤ bytes.length)
    (front : pos + data.length ≤ count) :
    (overwrite bytes pos data).drop count = bytes.drop count := by
  apply List.ext_getElem?
  intro i
  rw [List.getElem?_drop, List.getElem?_drop]
  exact getElem?_overwrite_outside within (Or.inr (by omega))

/-- The second of two writes to one place counts. -/
theorem overwrite_overwrite
    {bytes first second : List UInt8} {pos : Nat}
    (same : second.length = first.length)
    (within : pos + first.length ≤ bytes.length) :
    overwrite (overwrite bytes pos first) pos second =
      overwrite bytes pos second := by
  have start : (bytes.take pos).length = pos := by
    rw [List.length_take]
    omega
  rw [overwrite_of_within within, overwrite_middle start same.symm,
    overwrite_of_within (by omega), same]

theorem truncate_of_le
    {bytes : List UInt8} {length : Nat} (shorter : length ≤ bytes.length) :
    truncate bytes length = bytes.take length := by
  have noGap : length - bytes.length = 0 := by omega
  rw [truncate, noGap, List.replicate_zero, List.append_nil]

theorem truncate_length (bytes : List UInt8) (length : Nat) :
    (truncate bytes length).length = length := by
  rw [truncate, List.length_append, List.length_take, List.length_replicate]
  omega

theorem getElem?_truncate
    {bytes : List UInt8} {length i : Nat} (below : i < length)
    (present : i < bytes.length) :
    (truncate bytes length)[i]? = bytes[i]? := by
  have inside : i < (bytes.take length).length := by
    rw [List.length_take]
    omega
  rw [truncate, List.getElem?_append_left inside, List.getElem?_take,
    if_pos below]

end KernelStuff.Library
