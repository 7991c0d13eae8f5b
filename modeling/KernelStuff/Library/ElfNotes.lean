import KernelStuff.Library.Endian
import KernelStuff.Library.Platform

/-!
# ELF notes

A note is a header of three words, a name and a descriptor, each filled up with
zeros to a multiple of four bytes.  Note areas are such notes one after another.
-/

namespace KernelStuff.Library

/-- The next multiple of four. -/
def align4 (n : Nat) : Nat := (n + 3) / 4 * 4

/-- Filled up with zeros to a multiple of four. -/
def padded (bytes : List UInt8) : List UInt8 :=
  bytes ++ List.replicate (align4 bytes.length - bytes.length) 0

theorem le_align4 (n : Nat) : n ≤ align4 n := by
  rw [align4]
  omega

@[simp]
theorem padded_length (bytes : List UInt8) :
    (padded bytes).length = align4 bytes.length := by
  have le := le_align4 bytes.length
  rw [padded, List.length_append, List.length_replicate]
  omega

/-- The padding reads as zeros. -/
theorem getD_padded (bytes : List UInt8) (i : Nat) :
    (padded bytes).getD i 0 = bytes.getD i 0 := by
  rw [List.getD_eq_getElem?_getD, List.getD_eq_getElem?_getD, padded,
    List.getElem?_append, List.getElem?_replicate]
  by_cases inside : i < bytes.length
  · rw [if_pos inside]
  · rw [if_neg inside, List.getElem?_eq_none (Nat.le_of_not_lt inside)]
    split <;> rfl

structure ElfNote where
  name : List UInt8
  desc : List UInt8
  type : Nat
  name_lt : name.length < 2 ^ 32
  desc_lt : desc.length < 2 ^ 32
  type_lt : type < 2 ^ 32

namespace ElfNote

/-- The words of the header. -/
def header (endian : Endian) (note : ElfNote) : List UInt8 :=
  endian.encode 4 note.name.length ++ endian.encode 4 note.desc.length ++
    endian.encode 4 note.type

def encode (endian : Endian) (note : ElfNote) : List UInt8 :=
  note.header endian ++ padded note.name ++ padded note.desc

/-- The bytes a note takes. -/
def size (note : ElfNote) : Nat :=
  12 + align4 note.name.length + align4 note.desc.length

/-- A whole area. -/
def encodeAll (endian : Endian) (notes : List ElfNote) : List UInt8 :=
  notes.flatMap (encode endian)

@[simp]
theorem header_length (endian : Endian) (note : ElfNote) :
    (note.header endian).length = 12 := by
  simp only [header, List.length_append, Endian.encode_length]

@[simp]
theorem encode_length (endian : Endian) (note : ElfNote) :
    (note.encode endian).length = note.size := by
  simp only [encode, List.length_append, header_length, padded_length, size]

theorem encodeAll_cons (endian : Endian) (note : ElfNote)
    (rest : List ElfNote) :
    encodeAll endian (note :: rest) =
      note.encode endian ++ encodeAll endian rest :=
  List.flatMap_cons

end ElfNote

/-! ## Reading notes -/

/-- The bytes from `start` on read as the header and the name of the note. -/
structure ReadsHead (endian : Endian) (bytes : List UInt8) (start : Nat)
    (note : ElfNote) : Prop where
  header_le : start + 12 ≤ bytes.length
  namesz_eq : endian.decode (slice bytes start 4) = note.name.length
  descsz_eq : endian.decode (slice bytes (start + 4) 4) = note.desc.length
  type_eq : endian.decode (slice bytes (start + 8) 4) = note.type
  name_eq : slice bytes (start + 12) note.name.length = note.name

/-- The bytes from `start` on read as the note; what fills it up to a multiple of
four may be anything. -/
structure ReadsNote (endian : Endian) (bytes : List UInt8) (start : Nat)
    (note : ElfNote) : Prop extends ReadsHead endian bytes start note where
  desc_eq :
    slice bytes (start + (12 + align4 note.name.length)) note.desc.length =
      note.desc

/-- The bytes from `start` on read as the notes, to their end. -/
def ReadsNotes (endian : Endian) (bytes : List UInt8) :
    Nat → List ElfNote → Prop
  | start, [] => bytes.length ≤ start
  | start, note :: rest =>
      ReadsNote endian bytes start note ∧
        ReadsNotes endian bytes (start + note.size) rest

theorem ElfNote.size_pos (note : ElfNote) : 12 ≤ note.size := by
  rw [ElfNote.size]
  omega

section Heads

variable {endian : Endian} {start : Nat} {note : ElfNote}

/-- A name with a NUL in it is compared like a string. -/
theorem ReadsHead.strcmpEq_iff
    {data : Buffer} {text : List UInt8}
    (reads : ReadsHead endian data.bytes start note)
    (terminated : (0 : UInt8) ∈ note.name) (plain : (0 : UInt8) ∉ text) :
    strcmpEq text (fun i => data.byte (start + 12 + i)) = true ↔
      note.name.takeWhile (· ≠ 0) = text := by
  obtain ⟨j, jLt, zero⟩ := List.getElem_of_mem terminated
  have same :
      strcmpEq text (fun i => data.byte (start + 12 + i)) =
        strcmpEq text fun i => note.name.getD i 0 := by
    apply strcmpEq_congr_of_zero (j := j)
    · intro i within
      have present : i < note.name.length := by omega
      have here : data.bytes[start + 12 + i]? = note.name[i]? := by
        have part := getElem?_slice data.bytes (start + 12) note.name.length i
        rw [reads.name_eq, if_pos present] at part
        exact part.symm
      rw [List.getElem?_eq_getElem present] at here
      rw [Buffer.byte, List.getD_eq_getElem?_getD, here,
        List.getD_eq_getElem?_getD, List.getElem?_eq_getElem present]
      rfl
    · rw [List.getD_eq_getElem?_getD, List.getElem?_eq_getElem jLt]
      exact zero
    · exact plain
  rw [same]
  exact strcmpEq_getD plain note.name

/-- Only the bytes of the header and of the name matter. -/
theorem ReadsHead.congr {bytes other : List UInt8}
    (reads : ReadsHead endian bytes start note)
    (same : ∀ i, start ≤ i → i < start + (12 + note.name.length) →
      other[i]? = bytes[i]?) : ReadsHead endian other start note := by
  have part {pos count : Nat} (lower : start ≤ pos)
      (upper : pos + count ≤ start + (12 + note.name.length)) :
      slice other pos count = slice bytes pos count :=
    slice_congr fun i above below => same i (by omega) (by omega)
  have long := reads.header_le
  have present : start + 11 < other.length := by
    by_contra absent
    have lastByte := same (start + 11) (by omega) (by omega)
    rw [List.getElem?_eq_none (by omega)] at lastByte
    have missing := List.getElem?_eq_none_iff.mp lastByte.symm
    omega
  constructor
  case header_le => omega
  case namesz_eq =>
    rw [part (by omega) (by omega)]
    exact reads.namesz_eq
  case descsz_eq =>
    rw [part (by omega) (by omega)]
    exact reads.descsz_eq
  case type_eq =>
    rw [part (by omega) (by omega)]
    exact reads.type_eq
  case name_eq =>
    rw [part (by omega) (by omega)]
    exact reads.name_eq

/-- Only what follows `start` matters. -/
theorem ReadsNote.of_drop {bytes other : List UInt8} {otherStart : Nat}
    (reads : ReadsNote endian bytes start note)
    (same : other.drop otherStart = bytes.drop start) :
    ReadsNote endian other otherStart note := by
  have part (k count : Nat) :
      slice other (otherStart + k) count = slice bytes (start + k) count := by
    rw [slice, slice, ← List.drop_drop, same, List.drop_drop]
  have long := reads.header_le
  have lengths := congrArg List.length same
  rw [List.length_drop, List.length_drop] at lengths
  constructor
  case toReadsHead =>
    constructor
    case header_le => omega
    case namesz_eq => exact (congrArg _ (part 0 4)).trans reads.namesz_eq
    case descsz_eq => exact (congrArg _ (part 4 4)).trans reads.descsz_eq
    case type_eq => exact (congrArg _ (part 8 4)).trans reads.type_eq
    case name_eq => exact (part 12 _).trans reads.name_eq
  case desc_eq => exact (part _ _).trans reads.desc_eq

end Heads

theorem readsNotes_of_drop {endian : Endian} {bytes other : List UInt8} :
    ∀ {notes : List ElfNote} {start otherStart : Nat},
      ReadsNotes endian bytes start notes →
        other.drop otherStart = bytes.drop start →
          ReadsNotes endian other otherStart notes
  | [], start, otherStart, ended, same => by
      rw [List.drop_eq_nil_of_le ended] at same
      exact List.drop_eq_nil_iff.mp same
  | note :: rest, start, otherStart, ⟨reads, others⟩, same => by
      refine ⟨reads.of_drop same, readsNotes_of_drop others ?_⟩
      rw [← List.drop_drop, same, List.drop_drop]

/-- The bytes between `start` and `stop` read as the headers and names of the
notes. -/
def ReadsHeads (endian : Endian) (bytes : List UInt8) :
    Nat → List ElfNote → Nat → Prop
  | start, [], stop => start = stop
  | start, note :: rest, stop =>
      ReadsHead endian bytes start note ∧
        ReadsHeads endian bytes (start + note.size) rest stop

theorem ReadsHeads.le {endian : Endian} {bytes : List UInt8} :
    ∀ {notes : List ElfNote} {start stop : Nat},
      ReadsHeads endian bytes start notes stop → start ≤ stop
  | [], _, _, same => Nat.le_of_eq same
  | _ :: _, _, _, ⟨_, others⟩ =>
      Nat.le_trans (Nat.le_add_right _ _) others.le

/-- A name lies within its note. -/
theorem ElfNote.head_le_size (note : ElfNote) :
    12 + note.name.length ≤ note.size := by
  have le := le_align4 note.name.length
  rw [ElfNote.size]
  omega

theorem ReadsHeads.congr {endian : Endian} {bytes other : List UInt8} :
    ∀ {notes : List ElfNote} {start stop : Nat},
      ReadsHeads endian bytes start notes stop →
        (∀ i, start ≤ i → i < stop → other[i]? = bytes[i]?) →
          ReadsHeads endian other start notes stop
  | [], _, _, same, _ => same
  | note :: rest, start, stop, ⟨reads, others⟩, same => by
      have later := others.le
      have within := note.head_le_size
      exact
        ⟨reads.congr fun i above below => same i above (by omega),
          others.congr fun i above below => same i (by omega) below⟩

/-- Notes can be read up to any one of them. -/
theorem readsNotes_append {endian : Endian} {bytes : List UInt8}
    {after : List ElfNote} :
    ∀ {before : List ElfNote} {start : Nat},
      ReadsNotes endian bytes start (before ++ after) →
        ∃ stop,
          stop = start + (before.map ElfNote.size).sum ∧
            ReadsHeads endian bytes start before stop ∧
            ReadsNotes endian bytes stop after
  | [], start, reads => ⟨start, rfl, rfl, reads⟩
  | note :: rest, start, ⟨reads, others⟩ => by
      obtain ⟨stop, stopEq, heads, tail⟩ := readsNotes_append others
      refine ⟨stop, ?_, ⟨reads.toReadsHead, heads⟩, tail⟩
      rw [stopEq, List.map_cons, List.sum_cons, Nat.add_assoc]

/-! ## Reading a note back -/

/-- The note is what the bytes hold from `start` on, with `rest` behind it. -/
def HoldsNote (endian : Endian) (bytes : List UInt8) (start : Nat)
    (note : ElfNote) (rest : List UInt8) : Prop :=
  bytes.drop start = note.encode endian ++ rest

namespace HoldsNote

variable {endian : Endian} {bytes rest : List UInt8} {start : Nat}
  {note : ElfNote} (holds : HoldsNote endian bytes start note rest)

include holds

theorem end_le : start + note.size ≤ bytes.length := by
  have lengths := congrArg List.length holds
  rw [List.length_drop, List.length_append, ElfNote.encode_length] at lengths
  have positive := note.size_pos
  omega

theorem drop_eq : bytes.drop (start + note.size) = rest := by
  rw [← List.drop_drop, holds, ← note.encode_length endian, List.drop_left]

/-- A part of the note, with `before` in front of it. -/
theorem slice_eq
    (before part after : List UInt8)
    (split : note.encode endian = before ++ part ++ after) :
    slice bytes (start + before.length) part.length = part := by
  rw [slice, ← List.drop_drop, holds, split, List.append_assoc]
  exact slice_middle rfl rfl

theorem namesz_eq :
    endian.decode (slice bytes start 4) = note.name.length := by
  have field :=
    holds.slice_eq [] (endian.encode 4 note.name.length) _ (by
      simp only [ElfNote.encode, ElfNote.header, List.append_assoc]
      rfl)
  rw [Endian.encode_length] at field
  change slice bytes start 4 = _ at field
  rw [field]
  exact endian.decode_encode_of_lt note.name_lt

theorem descsz_eq :
    endian.decode (slice bytes (start + 4) 4) = note.desc.length := by
  have field :=
    holds.slice_eq (endian.encode 4 note.name.length)
      (endian.encode 4 note.desc.length) _ (by
        simp only [ElfNote.encode, ElfNote.header, List.append_assoc]
        rfl)
  rw [Endian.encode_length, Endian.encode_length] at field
  rw [field]
  exact endian.decode_encode_of_lt note.desc_lt

theorem type_eq :
    endian.decode (slice bytes (start + 8) 4) = note.type := by
  have field :=
    holds.slice_eq
      (endian.encode 4 note.name.length ++ endian.encode 4 note.desc.length)
      (endian.encode 4 note.type) _ (by
        simp only [ElfNote.encode, ElfNote.header, List.append_assoc]
        rfl)
  rw [List.length_append, Endian.encode_length, Endian.encode_length,
    Endian.encode_length] at field
  rw [field]
  exact endian.decode_encode_of_lt note.type_lt

theorem name_eq :
    slice bytes (start + 12) (align4 note.name.length) = padded note.name := by
  have field := holds.slice_eq (note.header endian) (padded note.name) _ rfl
  rw [ElfNote.header_length, padded_length] at field
  exact field

theorem desc_eq :
    slice bytes (start + (12 + align4 note.name.length)) note.desc.length =
      note.desc := by
  have field :=
    holds.slice_eq (note.header endian ++ padded note.name) note.desc
      (List.replicate (align4 note.desc.length - note.desc.length) 0) (by
        simp only [ElfNote.encode, padded, List.append_assoc])
  rw [List.length_append, ElfNote.header_length, padded_length] at field
  exact field

/-- An encoded note reads as itself. -/
theorem reads : ReadsNote endian bytes start note where
  header_le := by
    have fits := holds.end_le
    have positive := note.size_pos
    omega
  namesz_eq := holds.namesz_eq
  descsz_eq := holds.descsz_eq
  type_eq := holds.type_eq
  name_eq := by
    have part :=
      holds.slice_eq (note.header endian) note.name
        (List.replicate (align4 note.name.length - note.name.length) 0 ++
          padded note.desc) (by
          simp only [ElfNote.encode, padded, List.append_assoc])
    rw [ElfNote.header_length] at part
    exact part
  desc_eq := holds.desc_eq

end HoldsNote

end KernelStuff.Library
