import KernelStuff.Editvmcoreinfo.Editing

/-!
# The parts of the edited file

The edited file is the front of the old one with the new program headers, the new
note, and what followed the old note.
-/

namespace KernelStuff.Editvmcoreinfo

open KernelStuff.Library

/-! ## The program headers -/

theorem toNat_add_sizediff {size : UInt64} {oldDescsz newdescsz : Nat}
    (enough : pad4 oldDescsz ≤ size.toNat + pad4 newdescsz)
    (bound : size.toNat + pad4 newdescsz < 2 ^ 64 + pad4 oldDescsz) :
    (size + sizediff oldDescsz newdescsz).toNat =
      size.toNat + pad4 newdescsz - pad4 oldDescsz := by
  rw [sizediff, UInt64.toNat_add, UInt64.toNat_sub, UInt64.toNat_ofNat',
    UInt64.toNat_ofNat']
  omega

theorem sizediff_add (first second third : Nat) :
    sizediff first second + sizediff second third = sizediff first third := by
  rw [sizediff, sizediff, sizediff]
  grind

theorem firstNotes_eq_some :
    ∀ {list : List Elf64Phdr} {start i : Nat} {segment : Elf64Phdr},
      firstNotes start list = some (i, segment) →
        start ≤ i ∧ list[i - start]? = some segment
  | [], _, _, _, found => by cases found
  | phdr :: rest, start, i, segment, found => by
      rw [firstNotes] at found
      split at found
      · obtain ⟨later, here⟩ := firstNotes_eq_some found
        have index : i - start = (i - (start + 1)) + 1 := by omega
        rw [index]
        exact ⟨by omega, here⟩
      · cases found
        rw [Nat.sub_self]
        exact ⟨Nat.le_refl _, rfl⟩

/-- Headers that keep their types have the same first segment of notes. -/
theorem firstNotes_mapIdx {change : Nat → Elf64Phdr → Elf64Phdr}
    (same : ∀ i phdr, (change i phdr).pType = phdr.pType) :
    ∀ (list : List Elf64Phdr) (start : Nat),
      firstNotes start (list.mapIdx fun i => change (start + i)) =
        (firstNotes start list).map fun found =>
          (found.1, change found.1 found.2)
  | [], _ => rfl
  | phdr :: rest, start => by
      have shifted :
          (fun i => change (start + (i + 1))) =
            fun i => change (start + 1 + i) := by
        funext i
        rw [Nat.add_assoc start 1, Nat.add_comm 1]
      rw [List.mapIdx_cons, firstNotes, firstNotes, same, shifted,
        firstNotes_mapIdx same rest (start + 1)]
      split <;> rfl

theorem shiftPhdr_type (notesSeg : Nat) (difference : UInt64) (i : Nat)
    (phdr : Elf64Phdr) :
    (shiftPhdr notesSeg difference i phdr).pType = phdr.pType := by
  rw [shiftPhdr]
  split
  · rfl
  · split <;> rfl

/-! ## The new note -/

/-- The header and the name of the old note with another size of the descriptor,
and the new descriptor filled up with zeros. -/
theorem newNote_eq (se : SavedElfdata) (newdesc : List UInt8) :
    newNote se newdesc =
      se.notes.read se.viNote 4 ++ littleEncode 4 newdesc.length ++
        se.notes.read (se.viNote + 8)
          (4 + pad4 (nameszAt se.notes se.viNote)) ++
        newdesc ++
        List.replicate (pad4 newdesc.length - newdesc.length) 0 := by
  generalize padEq : pad4 (nameszAt se.notes se.viNote) = namePad
  have descPad := le_pad4 newdesc.length
  have zeros :
      List.replicate (nhdrSize + namePad + pad4 newdesc.length) (0 : UInt8) =
        List.replicate (nhdrSize + namePad) 0 ++
          List.replicate (pad4 newdesc.length) 0 := by
    rw [List.replicate_add]
  have descZeros :
      List.replicate (pad4 newdesc.length) (0 : UInt8) =
        List.replicate newdesc.length 0 ++
          List.replicate (pad4 newdesc.length - newdesc.length) 0 := by
    rw [← List.replicate_add, Nat.add_sub_cancel' descPad]
  have named :
      overwrite
          (List.replicate (nhdrSize + namePad + pad4 newdesc.length) 0) 0
          (se.notes.read se.viNote (nhdrSize + namePad)) =
        se.notes.read se.viNote (nhdrSize + namePad) ++
          List.replicate (pad4 newdesc.length) 0 := by
    have atFront :
        overwrite
            ([] ++ List.replicate (nhdrSize + namePad) 0 ++
              List.replicate (pad4 newdesc.length) 0) 0
            (se.notes.read se.viNote (nhdrSize + namePad)) = [] ++ _ ++ _ :=
      overwrite_middle rfl (by
        rw [List.length_replicate, Buffer.read_length])
    rw [zeros]
    exact atFront
  have head :
      se.notes.read se.viNote (nhdrSize + namePad) =
        se.notes.read se.viNote 4 ++ se.notes.read (se.viNote + 4) 4 ++
          se.notes.read (se.viNote + 8) (4 + namePad) := by
    have split : nhdrSize + namePad = 4 + 4 + (4 + namePad) := by
      rw [nhdrSize]
      omega
    rw [split, Buffer.read_append, Buffer.read_append]
  rw [newNote, padEq, named, head, List.append_assoc,
    overwrite_middle (Buffer.read_length ..)
      (by rw [Buffer.read_length, littleEncode_length]),
    descZeros, ← List.append_assoc, ← List.append_assoc]
  apply overwrite_middle
  · simp only [List.length_append, Buffer.read_length, littleEncode_length]
    rw [nhdrSize]
    omega
  · exact List.length_replicate

theorem newNote_length (se : SavedElfdata) (newdesc : List UInt8) :
    (newNote se newdesc).length =
      nhdrSize + pad4 (nameszAt se.notes se.viNote) + pad4 newdesc.length := by
  have descPad := le_pad4 newdesc.length
  rw [newNote_eq]
  simp only [List.length_append, Buffer.read_length, littleEncode_length,
    List.length_replicate]
  rw [nhdrSize]
  omega

section NoteParts

variable (se : SavedElfdata) (newdesc : List UInt8)

theorem newNote_namesz :
    slice (newNote se newdesc) 0 4 = se.notes.read se.viNote 4 := by
  rw [newNote_eq, List.append_assoc, List.append_assoc, List.append_assoc]
  exact List.take_left' (Buffer.read_length ..)

theorem newNote_descsz :
    slice (newNote se newdesc) 4 4 = littleEncode 4 newdesc.length := by
  rw [newNote_eq, List.append_assoc, List.append_assoc]
  exact slice_middle (Buffer.read_length ..) (littleEncode_length ..)

/-- The type and the name. -/
theorem newNote_name :
    slice (newNote se newdesc) 8
        (4 + pad4 (nameszAt se.notes se.viNote)) =
      se.notes.read (se.viNote + 8)
        (4 + pad4 (nameszAt se.notes se.viNote)) := by
  rw [newNote_eq, List.append_assoc]
  apply slice_middle
  · rw [List.length_append, Buffer.read_length, littleEncode_length]
  · exact Buffer.read_length ..

theorem newNote_desc :
    (newNote se newdesc).drop
        (nhdrSize + pad4 (nameszAt se.notes se.viNote)) =
      newdesc ++
        List.replicate (pad4 newdesc.length - newdesc.length) 0 := by
  rw [newNote_eq, List.append_assoc]
  apply List.drop_left'
  simp only [List.length_append, Buffer.read_length, littleEncode_length]
  rw [nhdrSize]
  omega

end NoteParts

/-! ## The edited file -/

theorem getElem?_withPhdrs
    {bytes : List UInt8} {beyond : Nat → UInt8} {se : SavedElfdata}
    (loads : Loads bytes beyond se) (newdescsz : Nat) {i : Nat}
    (outside :
      i < se.ehdr.ePhoff.toNat ∨
        se.ehdr.ePhoff.toNat + tableSize se.ehdr ≤ i) :
    (withPhdrs bytes se newdescsz)[i]? = bytes[i]? := by
  apply getElem?_overwrite_outside
  · rw [loads.table_length]
    exact loads.table_le
  · rw [loads.table_length]
    exact outside

/-- When the padded size stays the core file is as it was up to here. -/
theorem withPhdrs_of_same
    {bytes : List UInt8} {beyond : Nat → UInt8} {se : SavedElfdata}
    (loads : Loads bytes beyond se) {newdescsz : Nat}
    (same : pad4 newdescsz = pad4 se.oldDescsz) :
    withPhdrs bytes se newdescsz = bytes := by
  rw [withPhdrs, shiftPhdrs_of_same same, loads.table_eq, overwrite_slice]

section Parts

variable {bytes : List UInt8} {beyond : Nat → UInt8} {se : SavedElfdata}
  (loads : Loads bytes beyond se)
  (fits : se.notesStart + se.viNoteEnd ≤ bytes.length)
  (newdesc : List UInt8)

include loads fits

theorem front_length :
    ((withPhdrs bytes se newdesc.length).take
      (se.notesStart + se.viNoteStart)).length =
        se.notesStart + se.viNoteStart := by
  obtain ⟨noteLe, -⟩ := loads.offsets_lt
  rw [List.length_take, withPhdrs_length loads]
  omega

theorem edited_take :
    (edited bytes se newdesc).take (se.notesStart + se.viNoteStart) =
      (withPhdrs bytes se newdesc.length).take
        (se.notesStart + se.viNoteStart) := by
  have front := front_length loads fits newdesc
  rw [edited, List.append_assoc, List.take_append_of_le_length (by omega),
    List.take_take, Nat.min_self]

theorem front_le :
    se.notesStart + se.viNoteStart ≤ (edited bytes se newdesc).length := by
  have front := front_length loads fits newdesc
  rw [← edited_take loads fits, List.length_take] at front
  omega

theorem getElem?_edited {i : Nat}
    (before : i < se.notesStart + se.viNoteStart) :
    (edited bytes se newdesc)[i]? =
      (withPhdrs bytes se newdesc.length)[i]? := by
  have front := congrArg (·[i]?) (edited_take loads fits newdesc)
  rw [List.getElem?_take_of_lt before, List.getElem?_take_of_lt before] at front
  exact front

theorem edited_slice_note :
    slice (edited bytes se newdesc) (se.notesStart + se.viNoteStart)
        (newNote se newdesc).length =
      newNote se newdesc :=
  slice_middle (front_length loads fits newdesc) rfl

theorem edited_drop :
    (edited bytes se newdesc).drop
        (se.notesStart + se.viNoteStart + (newNote se newdesc).length) =
      (withPhdrs bytes se newdesc.length).drop
        (se.notesStart + se.viNoteEnd) := by
  have front := front_length loads fits newdesc
  rw [edited]
  exact List.drop_left' (by rw [List.length_append, front])

theorem edited_length :
    (edited bytes se newdesc).length + pad4 se.oldDescsz =
      bytes.length + pad4 newdesc.length := by
  have front := front_length loads fits newdesc
  have noteEnd := loads.viNoteEnd_eq
  have noteStart := loads.viNoteStart_eq
  rw [edited, List.length_append, List.length_append, front, newNote_length,
    List.length_drop, withPhdrs_length loads, loads.oldDescsz_eq]
  omega

/-- What follows the note has moved by the difference of the padded sizes. -/
theorem getElem?_edited_behind {i : Nat}
    (behind : se.notesStart + se.viNoteEnd ≤ i) :
    (edited bytes se newdesc)[
        i + pad4 newdesc.length - pad4 se.oldDescsz]? =
      (withPhdrs bytes se newdesc.length)[i]? := by
  have noteEnd := loads.viNoteEnd_eq
  have noteStart := loads.viNoteStart_eq
  have noteLength := newNote_length se newdesc
  have oldSize := loads.oldDescsz_eq
  have rest :=
    congrArg (·[i - (se.notesStart + se.viNoteEnd)]?)
      (edited_drop loads fits newdesc)
  rw [List.getElem?_drop, List.getElem?_drop,
    Nat.add_sub_cancel' behind] at rest
  have place :
      se.notesStart + se.viNoteStart + (newNote se newdesc).length +
          (i - (se.notesStart + se.viNoteEnd)) =
        i + pad4 newdesc.length - pad4 se.oldDescsz := by
    rw [oldSize]
    omega
  rw [place] at rest
  exact rest

/-- When the padded size stays only the note changes. -/
theorem getElem?_edited_of_same
    (same : pad4 newdesc.length = pad4 se.oldDescsz) {i : Nat}
    (outside : i < se.notesStart + se.viNoteStart ∨
      se.notesStart + se.viNoteEnd ≤ i) :
    (edited bytes se newdesc)[i]? = bytes[i]? := by
  rcases outside with before | behind
  · rw [getElem?_edited loads fits newdesc before,
      withPhdrs_of_same loads same]
  · have moved := getElem?_edited_behind loads fits newdesc behind
    rw [same, Nat.add_sub_cancel, withPhdrs_of_same loads same] at moved
    exact moved

end Parts

/-! ## The headers of the edited file -/

/-- No byte is in both ranges. -/
def Apart (pos len otherPos otherLen : Nat) : Prop :=
  len = 0 ∨ otherLen = 0 ∨ pos + len ≤ otherPos ∨ otherPos + otherLen ≤ pos

instance (pos len otherPos otherLen : Nat) :
    Decidable (Apart pos len otherPos otherLen) :=
  inferInstanceAs (Decidable (_ ∨ _ ∨ _ ∨ _))

/-- The note overlaps neither the file header nor the table of program headers;
if its size changes, they come one after the other in front of it. -/
structure TableStays (se : SavedElfdata) (newdescsz : Nat) : Prop where
  header : elf64EhdrSize ≤ se.notesStart + se.viNoteStart
  table :
    Apart se.ehdr.ePhoff.toNat (tableSize se.ehdr)
      (se.notesStart + se.viNoteStart) (se.viNoteEnd - se.viNoteStart)
  shifted : pad4 newdescsz ≠ pad4 se.oldDescsz →
    elf64EhdrSize ≤ se.ehdr.ePhoff.toNat ∧
      se.ehdr.ePhoff.toNat + tableSize se.ehdr ≤
        se.notesStart + se.viNoteStart

section Headers

variable {bytes : List UInt8} {beyond : Nat → UInt8} {se : SavedElfdata}
  (loads : Loads bytes beyond se)
  (fits : se.notesStart + se.viNoteEnd ≤ bytes.length)
  {newdesc : List UInt8}

include loads fits

theorem edited_before
    {i : Nat} (before : i < se.notesStart + se.viNoteStart)
    (outside :
      i < se.ehdr.ePhoff.toNat ∨
        se.ehdr.ePhoff.toNat + tableSize se.ehdr ≤ i) :
    (edited bytes se newdesc)[i]? = bytes[i]? := by
  rw [getElem?_edited loads fits newdesc before,
    getElem?_withPhdrs loads _ outside]

theorem TableStays.header_eq (stays : TableStays se newdesc.length) :
    slice (edited bytes se newdesc) 0 elf64EhdrSize =
      slice bytes 0 elf64EhdrSize := by
  have header := stays.header
  apply slice_congr
  intro i _ inHeader
  by_cases same : pad4 newdesc.length = pad4 se.oldDescsz
  · exact
      getElem?_edited_of_same loads fits newdesc same (Or.inl (by omega))
  · obtain ⟨behindHeader, -⟩ := stays.shifted same
    exact edited_before loads fits (by omega) (Or.inl (by omega))

theorem TableStays.table_eq (stays : TableStays se newdesc.length) :
    slice (edited bytes se newdesc) se.ehdr.ePhoff.toNat
        (tableSize se.ehdr) =
      Elf64Phdr.encodeTable (shiftPhdrs se newdesc.length) := by
  obtain ⟨noteLe, -⟩ := loads.offsets_lt
  by_cases same : pad4 newdesc.length = pad4 se.oldDescsz
  · rw [shiftPhdrs_of_same same, loads.table_eq]
    have table := stays.table
    have noteEnd := loads.viNoteEnd_eq
    have noteStart := loads.viNoteStart_eq
    rw [Apart] at table
    rw [nhdrSize] at noteEnd
    exact slice_congr fun i _ inTable =>
      getElem?_edited_of_same loads fits newdesc same (by omega)
  · obtain ⟨-, inFront⟩ := stays.shifted same
    calc
      slice (edited bytes se newdesc) se.ehdr.ePhoff.toNat
            (tableSize se.ehdr) =
          slice (withPhdrs bytes se newdesc.length) se.ehdr.ePhoff.toNat
            (tableSize se.ehdr) :=
          slice_congr fun i _ inTable =>
            getElem?_edited loads fits newdesc (by omega)
      _ = Elf64Phdr.encodeTable (shiftPhdrs se newdesc.length) := by
          rw [← loads.table_length newdesc.length]
          exact slice_overwrite_self ..

/-- The edited file has the shifted program headers. -/
theorem TableStays.headers (stays : TableStays se newdesc.length) :
    Headers (edited bytes se newdesc) se.ehdr
      (shiftPhdrs se newdesc.length) := by
  have header := stays.header_eq loads fits
  have table := stays.table_eq loads fits
  have inFront := stays.header
  have frontLe := front_le loads fits newdesc
  have old := loads.headers
  constructor
  case header_le => omega
  case ehdr_eq => rw [header, ← old.ehdr_eq]
  case supported => exact old.supported
  case sectionless => exact old.sectionless
  case entsize => exact old.entsize
  case phoff_lt => exact old.phoff_lt
  case table_length =>
    rw [table]
    exact loads.table_length newdesc.length
  case phdr_eq =>
    have number :
        (shiftPhdrs se newdesc.length).length = se.ehdr.ePhnum.toNat := by
      rw [shiftPhdrs, List.length_mapIdx, old.phdr_eq,
        Elf64Phdr.decodeTable_length]
    rw [table, ← number, Elf64Phdr.decodeTable_encodeTable]

end Headers

end KernelStuff.Editvmcoreinfo
