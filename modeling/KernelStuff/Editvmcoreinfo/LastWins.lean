import KernelStuff.Editvmcoreinfo.CleanNotes
import KernelStuff.Editvmcoreinfo.Edited

/-!
# The last edit wins

The edited file is loaded with the same note at the same place, the shifted
headers and the new sizes.  The differences of two edits add up, and so a second
edit gives what it would have given without the first.
-/

namespace KernelStuff.Editvmcoreinfo

open KernelStuff.Library

/-! ## Shifting twice -/

theorem shiftPhdr_shiftPhdr
    {notesSeg : Nat} {first second : UInt64} {i : Nat} {phdr : Elf64Phdr}
    (remains :
      i = notesSeg → phdr.pMemsz ≠ 0 → phdr.pMemsz + first ≠ 0) :
    shiftPhdr notesSeg second i (shiftPhdr notesSeg first i phdr) =
      shiftPhdr notesSeg (first + second) i phdr := by
  rw [shiftPhdr, shiftPhdr, shiftPhdr]
  by_cases notes : i = notesSeg
  · rw [if_pos notes, if_pos notes, if_pos notes]
    by_cases empty : phdr.pMemsz = 0
    · simp only [empty, ne_eq, not_true_eq_false, if_false]
      rw [UInt64.add_assoc]
    · simp only [empty, remains notes empty, ne_eq, not_false_eq_true, if_true]
      rw [UInt64.add_assoc, UInt64.add_assoc]
  · rw [if_neg notes, if_neg notes, if_neg notes]
    by_cases later : notesSeg < i
    · rw [if_pos later, if_pos later, if_pos later]
      dsimp only
      rw [UInt64.add_assoc]
    · rw [if_neg later, if_neg later, if_neg later]

/-! ## The edited file is loaded -/

/-- The length of the notes of the edited file. -/
def newNotesLen (se : SavedElfdata) (newdescsz : Nat) : Nat :=
  se.notesLen + pad4 newdescsz - pad4 se.oldDescsz

/-- The notes of the edited file. -/
def newArea (bytes : List UInt8) (se : SavedElfdata) (newdesc : List UInt8) :
    List UInt8 :=
  slice (edited bytes se newdesc) se.notesStart
    (newNotesLen se newdesc.length)

/-- What is loaded from the edited file. -/
def reloaded (bytes : List UInt8) (se : SavedElfdata) (newdesc : List UInt8)
    (beyond : Nat → UInt8) : SavedElfdata where
  ehdr := se.ehdr
  phdr := shiftPhdrs se newdesc.length
  notes := ⟨newArea bytes se newdesc, beyond⟩
  viNote := se.viNote
  notesStart := se.notesStart
  notesLen := newNotesLen se newdesc.length
  notesSeg := se.notesSeg
  viNoteStart := se.viNoteStart
  viNoteEnd := se.viNoteStart + (newNote se newdesc).length
  oldDescsz := newdesc.length

/-- The headers are before the notes, the notes are clean, and the note is
within the file. -/
structure Replaceable (bytes : List UInt8) (se : SavedElfdata) : Prop where
  header_before : elf64EhdrSize ≤ se.ehdr.ePhoff.toNat
  table_before : se.ehdr.ePhoff.toNat + tableSize se.ehdr ≤ se.notesStart
  clean : ∃ list, CleanNotes se.notes.bytes list
  fits : se.notesStart + se.viNoteEnd ≤ bytes.length
  memsz :
    ∀ segment, se.phdr[se.notesSeg]? = some segment →
      segment.pMemsz = 0 ∨ segment.pMemsz = segment.pFilesz

section Reloading

variable {bytes : List UInt8} {beyond : Nat → UInt8} {se : SavedElfdata}
  (loads : Loads bytes beyond se) (replaceable : Replaceable bytes se)

include loads

theorem segment_getElem? :
    ∃ segment,
      se.phdr[se.notesSeg]? = some segment ∧
        se.notesStart = segment.pOffset.toNat ∧
        se.notesLen = segment.pFilesz.toNat := by
  obtain ⟨segment, found, startEq, lenEq⟩ := loads.segment
  exact ⟨segment, (firstNotes_eq_some found).2, startEq, lenEq⟩

include replaceable

/-- The old note in the area. -/
theorem Replaceable.holdsLast :
    ∃ before note after,
      HoldsLast se.notes.bytes before se.viNote note after ∧
        pad4 (nameszAt se.notes se.viNote) = align4 note.name.length ∧
        se.viNote + (12 + align4 note.name.length) + se.oldDescsz ≤
          se.notesLen ∧
        se.oldDescsz = note.desc.length := by
  obtain ⟨list, clean⟩ := replaceable.clean
  obtain ⟨before, note, after, holds, within⟩ :=
    clean.holdsLast loads.viNote_eq
  have descsz := descszAt_of_reads holds.head
  rw [← loads.oldDescsz_eq] at descsz
  have length : se.notes.bytes.length = se.notesLen := by
    rw [loads.notes_eq]
    exact loads.notes_length
  rw [length, ← descsz] at within
  refine ⟨before, note, after, holds, ?_, within, descsz⟩
  rw [nameszAt_of_reads holds.head, pad4_eq_align4]

section Area

variable {newdesc : List UInt8}

theorem newNotesLen_eq (nonempty : newdesc ≠ []) :
    newNotesLen se newdesc.length + pad4 se.oldDescsz =
        se.notesLen + pad4 newdesc.length ∧
      se.viNote + (nhdrSize + pad4 (nameszAt se.notes se.viNote)) <
        newNotesLen se newdesc.length := by
  obtain ⟨before, note, after, -, namePad, within, -⟩ :=
    replaceable.holdsLast loads
  have positive := List.length_pos_of_ne_nil nonempty
  have oldPad := pad4_le se.oldDescsz
  have newPad : 4 ≤ pad4 newdesc.length := by
    rw [pad4]
    split <;> omega
  rw [newNotesLen, namePad, nhdrSize]
  omega

theorem area_length (nonempty : newdesc ≠ []) :
    (newArea bytes se newdesc).length = newNotesLen se newdesc.length := by
  obtain ⟨lengths, -⟩ := newNotesLen_eq loads replaceable nonempty
  have fileLengths := edited_length loads replaceable.fits newdesc
  have oldInside := loads.notes_length
  rw [slice_length] at oldInside
  apply slice_length_of_le
  obtain ⟨-, inFile⟩ := loads.offsets_lt
  have inNotes := loads.viNote_lt
  omega

/-- A part of the new note, read from the area. -/
theorem area_slice
    {k count : Nat} (inNote : k + count ≤ (newNote se newdesc).length)
    (inArea : se.viNote + k + count ≤ newNotesLen se newdesc.length) :
    slice (newArea bytes se newdesc) (se.viNote + k) count =
      slice (newNote se newdesc) k count := by
  have start := loads.viNoteStart_eq
  have note := edited_slice_note loads replaceable.fits newdesc
  rw [start] at note
  calc
    slice (newArea bytes se newdesc) (se.viNote + k) count =
        slice (edited bytes se newdesc) (se.notesStart + (se.viNote + k))
          count := slice_slice _ inArea
    _ = slice
          (slice (edited bytes se newdesc) (se.notesStart + se.viNote)
            (newNote se newdesc).length) k count := by
        rw [slice_slice _ inNote, Nat.add_assoc]
    _ = slice (newNote se newdesc) k count := by rw [note]

/-- The part of the area before the note is the old one. -/
theorem area_before
    (nonempty : newdesc ≠ []) {i : Nat} (before : i < se.viNote) :
    (newArea bytes se newdesc)[i]? = se.notes.bytes[i]? := by
  have inNotes := loads.viNote_lt
  have start := loads.viNoteStart_eq
  obtain ⟨-, longEnough⟩ := newNotesLen_eq loads replaceable nonempty
  have tableBefore := replaceable.table_before
  rw [loads.notes_eq]
  change (slice _ _ _)[i]? = (slice _ _ _)[i]?
  rw [getElem?_slice, getElem?_slice, if_pos (by omega), if_pos (by omega)]
  exact edited_before loads replaceable.fits (by omega) (Or.inr (by omega))

/-- The part of the area behind the note is the old one. -/
theorem area_after (nonempty : newdesc ≠ []) :
    (newArea bytes se newdesc).drop
        (se.viNote + (newNote se newdesc).length) =
      se.notes.bytes.drop se.viNoteEnd := by
  have start := loads.viNoteStart_eq
  have noteEnd := loads.viNoteEnd_eq
  have oldSize := loads.oldDescsz_eq
  obtain ⟨lengths, -⟩ := newNotesLen_eq loads replaceable nonempty
  have behind := edited_drop loads replaceable.fits newdesc
  have tableBefore := replaceable.table_before
  have rest :
      (withPhdrs bytes se newdesc.length).drop
          (se.notesStart + se.viNoteEnd) =
        bytes.drop (se.notesStart + se.viNoteEnd) := by
    apply drop_overwrite_of_le
    · rw [loads.table_length]
      exact loads.table_le
    · rw [loads.table_length]
      omega
  have remaining :
      newNotesLen se newdesc.length -
          (se.viNote + (newNote se newdesc).length) =
        se.notesLen - se.viNoteEnd := by
    rw [newNote_length, noteEnd, ← oldSize]
    omega
  rw [rest, start, Nat.add_assoc] at behind
  rw [loads.notes_eq]
  change (slice _ _ _).drop _ = (slice _ _ _).drop _
  rw [slice, slice, List.drop_take, List.drop_take, List.drop_drop,
    List.drop_drop, behind, remaining]

/-- The note with its new descriptor. -/
def withDesc (note : ElfNote) (newdesc : List UInt8)
    (newdesc_lt : newdesc.length < 2 ^ 32) : ElfNote :=
  { note with desc := newdesc, desc_lt := newdesc_lt }

omit replaceable in
theorem read_notes {pos count : Nat} (within : pos + count ≤ se.notesLen) :
    se.notes.read pos count = slice se.notes.bytes pos count := by
  apply Buffer.read_eq_slice
  rw [loads.notes_eq]
  change _ ≤ (slice _ _ _).length
  rw [loads.notes_length]
  exact within

/-- The type and the name in the area are the old ones. -/
theorem area_name
    (nonempty : newdesc ≠ []) {k count : Nat} (later : 8 ≤ k)
    (within :
      k + count ≤ nhdrSize + pad4 (nameszAt se.notes se.viNote)) :
    slice (newArea bytes se newdesc) (se.viNote + k) count =
      slice se.notes.bytes (se.viNote + k) count := by
  obtain ⟨before, note, after, -, namePad, begun, -⟩ :=
    replaceable.holdsLast loads
  obtain ⟨-, longEnough⟩ := newNotesLen_eq loads replaceable nonempty
  have size : nhdrSize = 12 := rfl
  have length := newNote_length se newdesc
  have inNote :
      k - 8 + count ≤ 4 + pad4 (nameszAt se.notes se.viNote) := by omega
  calc
    slice (newArea bytes se newdesc) (se.viNote + k) count =
        slice (newNote se newdesc) k count :=
          area_slice loads replaceable (by omega) (by omega)
    _ = slice
          (slice (newNote se newdesc) 8
            (4 + pad4 (nameszAt se.notes se.viNote))) (k - 8) count := by
        rw [slice_slice _ inNote, Nat.add_sub_cancel' later]
    _ = slice
          (slice se.notes.bytes (se.viNote + 8)
            (4 + pad4 (nameszAt se.notes se.viNote))) (k - 8) count := by
        rw [newNote_name, read_notes loads (by omega)]
    _ = slice se.notes.bytes (se.viNote + k) count := by
        rw [slice_slice _ inNote, Nat.add_assoc, Nat.add_sub_cancel' later]

theorem area_head
    (nonempty : newdesc ≠ []) (short : newdesc.length < 2 ^ 32)
    {note : ElfNote}
    (head : ReadsHead .little se.notes.bytes se.viNote note) :
    ReadsHead .little (newArea bytes se newdesc) se.viNote
      (withDesc note newdesc short) := by
  obtain ⟨-, longEnough⟩ := newNotesLen_eq loads replaceable nonempty
  have size : nhdrSize = 12 := rfl
  have length := newNote_length se newdesc
  have namesz := nameszAt_of_reads head
  have namePad := le_pad4 (nameszAt se.notes se.viNote)
  have oldHead := head.header_le
  rw [loads.notes_eq] at oldHead
  change _ ≤ (slice _ _ _).length at oldHead
  rw [loads.notes_length] at oldHead
  constructor
  case header_le =>
    rw [area_length loads replaceable nonempty]
    omega
  case namesz_eq =>
    change Endian.little.decode (slice _ (se.viNote + 0) 4) = _
    rw [area_slice loads replaceable (by omega) (by omega), newNote_namesz,
      read_notes loads (by omega)]
    exact head.namesz_eq
  case descsz_eq =>
    change _ = newdesc.length
    rw [area_slice loads replaceable (by omega) (by omega), newNote_descsz,
      Endian.decode, littleDecode_littleEncode]
    exact Nat.mod_eq_of_lt short
  case type_eq =>
    rw [area_name loads replaceable nonempty (Nat.le_refl 8) (by omega)]
    exact head.type_eq
  case name_eq =>
    change slice _ _ note.name.length = note.name
    rw [area_name loads replaceable nonempty (by decide) (by omega)]
    exact head.name_eq

/-- In the edited file the note is where it was. -/
theorem area_holdsLast
    (nonempty : newdesc ≠ []) (short : newdesc.length < 2 ^ 32)
    {before after : List ElfNote} {note : ElfNote}
    (holds : HoldsLast se.notes.bytes before se.viNote note after) :
    HoldsLast (newArea bytes se newdesc) before se.viNote
      (withDesc note newdesc short) after := by
  have noteEnd := loads.viNoteEnd_eq
  have namesz := nameszAt_of_reads holds.head
  have descsz := descszAt_of_reads holds.head
  obtain ⟨-, longEnough⟩ := newNotesLen_eq loads replaceable nonempty
  have terminated := List.forall_mem_append.mp holds.terminated
  obtain ⟨here, later⟩ := List.forall_mem_cons.mp terminated.2
  constructor
  case heads =>
    exact holds.heads.congr fun i _ before =>
      area_before loads replaceable nonempty before
  case head => exact area_head loads replaceable nonempty short holds.head
  case rest =>
    apply readsNotes_of_drop holds.rest
    have sameStart :
        se.viNote + (withDesc note newdesc short).size =
          se.viNote + (newNote se newdesc).length := by
      rw [newNote_length, namesz, pad4_eq_align4, pad4_eq_align4]
      rfl
    have sameEnd : se.viNote + note.size = se.viNoteEnd := by
      rw [noteEnd, namesz, descsz, pad4_eq_align4, pad4_eq_align4, nhdrSize,
        ElfNote.size]
      omega
    rw [sameStart, sameEnd]
    exact area_after loads replaceable nonempty
  case terminated =>
    exact List.forall_mem_append.mpr
      ⟨terminated.1, List.forall_mem_cons.mpr ⟨here, later⟩⟩
  case isVmcoreinfo => exact holds.isVmcoreinfo
  case last => exact holds.last
  case begun =>
    rw [area_length loads replaceable nonempty]
    change se.viNote + (12 + align4 note.name.length) ≤ _
    rw [namesz, pad4_eq_align4, nhdrSize] at longEnough
    omega

end Area

theorem edited_headers (newdesc : List UInt8) :
    Headers (edited bytes se newdesc) se.ehdr
      (shiftPhdrs se newdesc.length) := by
  have headerBefore := replaceable.header_before
  have tableBefore := replaceable.table_before
  have stays : TableStays se newdesc.length :=
    { header := by omega
      table := Or.inr (Or.inr (Or.inl (by omega)))
      shifted := fun _ => ⟨headerBefore, by omega⟩ }
  exact stays.headers loads replaceable.fits

/-- The first segment of notes of the edited file. -/
theorem edited_segment {newdesc : List UInt8} (nonempty : newdesc ≠ [])
    (short : newdesc.length < 2 ^ 32) :
    ∃ segment,
      firstNotes 0 (shiftPhdrs se newdesc.length) =
          some (se.notesSeg, segment) ∧
        se.notesStart = segment.pOffset.toNat ∧
        newNotesLen se newdesc.length = segment.pFilesz.toNat := by
  obtain ⟨segment, found, startEq, lenEq⟩ := loads.segment
  obtain ⟨lengths, -⟩ := newNotesLen_eq loads replaceable nonempty
  have lenLt := loads.notesLen_lt
  have newPad := pad4_le newdesc.length
  have mapped :=
    firstNotes_mapIdx
      (shiftPhdr_type se.notesSeg (sizediff se.oldDescsz newdesc.length))
      se.phdr 0
  simp only [Nat.zero_add] at mapped
  refine ⟨_, (mapped.trans (congrArg _ found)), ?_, ?_⟩
  · dsimp only
    rw [shiftPhdr, if_pos rfl]
    exact startEq
  · dsimp only
    rw [shiftPhdr, if_pos rfl]
    dsimp only
    rw [toNat_add_sizediff (by omega) (by omega), ← lenEq, newNotesLen]

theorem edited_loads
    {newdesc : List UInt8} (nonempty : newdesc ≠ [])
    (short : newdesc.length < 2 ^ 32)
    (lenLt : newNotesLen se newdesc.length < 2 ^ 31)
    (memory : Nat → UInt8) :
    Loads (edited bytes se newdesc) memory
      (reloaded bytes se newdesc memory) := by
  obtain ⟨before, note, after, holds, -⟩ := replaceable.holdsLast loads
  have newHolds :
      HoldsLast (reloaded bytes se newdesc memory).notes.bytes before
        se.viNote (withDesc note newdesc short) after :=
    area_holdsLast loads replaceable nonempty short holds
  have namesz := nameszAt_of_reads newHolds.head
  have descsz := descszAt_of_reads newHolds.head
  constructor
  case headers => exact edited_headers loads replaceable newdesc
  case segment => exact edited_segment loads replaceable nonempty short
  case notesStart_lt => exact loads.notesStart_lt
  case notesLen_lt => exact lenLt
  case notes_length => exact area_length loads replaceable nonempty
  case notes_eq => rfl
  case viNote_eq => exact newHolds.found
  case viNoteStart_eq => exact loads.viNoteStart_eq
  case viNoteEnd_eq =>
    change
      se.viNoteStart + (newNote se newdesc).length =
        se.viNote + nhdrSize + pad4 (descszAt _ se.viNote) +
          pad4 (nameszAt _ se.viNote)
    rw [namesz, descsz, newNote_length, nameszAt_of_reads holds.head,
      loads.viNoteStart_eq]
    change
      _ = se.viNote + nhdrSize + pad4 newdesc.length + pad4 note.name.length
    omega
  case oldDescsz_eq => exact descsz.symm

/-! ## Editing again -/

omit loads replaceable in
/-- The header and the name of the old note determine the new one. -/
theorem newNote_congr {other : SavedElfdata} (newdesc : List UInt8)
    (samePlace : other.viNote = se.viNote)
    (namesz :
      other.notes.read se.viNote 4 = se.notes.read se.viNote 4)
    (name :
      other.notes.read (se.viNote + 8)
          (4 + pad4 (nameszAt se.notes se.viNote)) =
        se.notes.read (se.viNote + 8)
          (4 + pad4 (nameszAt se.notes se.viNote))) :
    newNote other newdesc = newNote se newdesc := by
  have sameSize :
      nameszAt other.notes se.viNote = nameszAt se.notes se.viNote :=
    congrArg littleDecode namesz
  rw [newNote_eq, newNote_eq, samePlace, namesz, sameSize, name]

/-- The differences of two edits add up. -/
theorem shiftPhdrs_reloaded {newdesc : List UInt8} (nonempty : newdesc ≠ [])
    (short : newdesc.length < 2 ^ 32) (memory : Nat → UInt8)
    (newdescsz : Nat) :
    shiftPhdrs (reloaded bytes se newdesc memory) newdescsz =
      shiftPhdrs se newdescsz := by
  obtain ⟨segment, here, -, lenEq⟩ := segment_getElem? loads
  obtain ⟨lengths, longEnough⟩ := newNotesLen_eq loads replaceable nonempty
  have lenLt := loads.notesLen_lt
  have newPad := pad4_le newdesc.length
  change
    (se.phdr.mapIdx _).mapIdx (shiftPhdr se.notesSeg (sizediff _ _)) =
      se.phdr.mapIdx _
  rw [← sizediff_add se.oldDescsz newdesc.length newdescsz]
  apply List.ext_getElem?
  intro i
  rw [List.getElem?_mapIdx, List.getElem?_mapIdx, List.getElem?_mapIdx,
    Option.map_map]
  cases present : se.phdr[i]? with
  | none => rfl
  | some phdr =>
      refine congrArg some (shiftPhdr_shiftPhdr ?_)
      rintro rfl used vanishes
      have same : phdr = segment := Option.some.inj (present.symm.trans here)
      have whole : phdr.pMemsz = phdr.pFilesz :=
        (replaceable.memsz phdr present).resolve_left used
      have size :
          (phdr.pFilesz + sizediff se.oldDescsz newdesc.length).toNat =
            phdr.pFilesz.toNat + pad4 newdesc.length - pad4 se.oldDescsz := by
        rw [same]
        exact toNat_add_sizediff (by omega) (by omega)
      have zero : phdr.pFilesz + sizediff se.oldDescsz newdesc.length = 0 := by
        rw [← whole]
        exact vanishes
      rw [zero, same, ← lenEq] at size
      change 0 = _ at size
      omega

theorem newNote_reloaded {newdesc : List UInt8} (nonempty : newdesc ≠ [])
    (memory : Nat → UInt8) (lastdesc : List UInt8) :
    newNote (reloaded bytes se newdesc memory) lastdesc =
      newNote se lastdesc := by
  obtain ⟨before, note, after, -, namePad, begun, -⟩ :=
    replaceable.holdsLast loads
  have length := area_length loads replaceable nonempty
  obtain ⟨-, longEnough⟩ := newNotesLen_eq loads replaceable nonempty
  have noteLength := newNote_length se newdesc
  have size : nhdrSize = 12 := rfl
  have newRead {pos count : Nat}
      (within : pos + count ≤ newNotesLen se newdesc.length) :
      (reloaded bytes se newdesc memory).notes.read pos count =
        slice (newArea bytes se newdesc) pos count :=
    Buffer.read_eq_slice (by
      change _ ≤ (newArea bytes se newdesc).length
      omega)
  have sizeRead :
      (reloaded bytes se newdesc memory).notes.read se.viNote 4 =
        se.notes.read se.viNote 4 := by
    rw [newRead (by omega)]
    change slice _ (se.viNote + 0) 4 = _
    rw [area_slice loads replaceable (by omega) (by omega), newNote_namesz]
  have nameRead :
      (reloaded bytes se newdesc memory).notes.read (se.viNote + 8)
          (4 + pad4 (nameszAt se.notes se.viNote)) =
        se.notes.read (se.viNote + 8)
          (4 + pad4 (nameszAt se.notes se.viNote)) := by
    rw [newRead (by omega), area_name loads replaceable nonempty
      (Nat.le_refl 8) (by omega), read_notes loads (by omega)]
  exact newNote_congr lastdesc rfl sizeRead nameRead

/-- The second edit gives what it would have given without the first. -/
theorem edited_reloaded {newdesc : List UInt8} (nonempty : newdesc ≠ [])
    (short : newdesc.length < 2 ^ 32) (memory : Nat → UInt8)
    (lastdesc : List UInt8) :
    edited (edited bytes se newdesc) (reloaded bytes se newdesc memory)
        lastdesc =
      edited bytes se lastdesc := by
  have tableBefore := replaceable.table_before
  have tableLe := loads.table_le
  have oldLength := loads.table_length newdesc.length
  have tableLength := loads.table_length lastdesc.length
  obtain ⟨noteLe, -⟩ := loads.offsets_lt
  have fits := replaceable.fits
  have edgeLe := front_le loads fits newdesc
  have sameTable :
      withPhdrs (edited bytes se newdesc) (reloaded bytes se newdesc memory)
          lastdesc.length =
        overwrite (edited bytes se newdesc) se.ehdr.ePhoff.toNat
          (Elf64Phdr.encodeTable (shiftPhdrs se lastdesc.length)) :=
    congrArg
      (fun phdrs =>
        overwrite (edited bytes se newdesc) se.ehdr.ePhoff.toNat
          (Elf64Phdr.encodeTable phdrs))
      (shiftPhdrs_reloaded loads replaceable nonempty short memory _)
  have front :
      (withPhdrs (edited bytes se newdesc) (reloaded bytes se newdesc memory)
          lastdesc.length).take (se.notesStart + se.viNoteStart) =
        (withPhdrs bytes se lastdesc.length).take
          (se.notesStart + se.viNoteStart) := by
    rw [sameTable, take_overwrite (by omega) edgeLe,
      edited_take loads fits, withPhdrs, withPhdrs,
      take_overwrite (by omega) (by omega),
      take_overwrite (by omega) (by omega)]
    apply overwrite_overwrite
    · rw [tableLength, oldLength]
    · rw [oldLength, List.length_take]
      omega
  have back :
      (withPhdrs (edited bytes se newdesc) (reloaded bytes se newdesc memory)
          lastdesc.length).drop
            (se.notesStart +
              (se.viNoteStart + (newNote se newdesc).length)) =
        (withPhdrs bytes se lastdesc.length).drop
          (se.notesStart + se.viNoteEnd) := by
    have behind := edited_drop loads fits newdesc
    rw [sameTable, drop_overwrite_of_le (by omega) (by omega),
      ← Nat.add_assoc, behind, withPhdrs, withPhdrs,
      drop_overwrite_of_le (by omega) (by omega),
      drop_overwrite_of_le (by omega) (by omega)]
  have note := newNote_reloaded loads replaceable nonempty memory lastdesc
  change
    (withPhdrs (edited bytes se newdesc) (reloaded bytes se newdesc memory)
        lastdesc.length).take (se.notesStart + se.viNoteStart) ++
      newNote (reloaded bytes se newdesc memory) lastdesc ++
      (withPhdrs (edited bytes se newdesc) (reloaded bytes se newdesc memory)
        lastdesc.length).drop
          (se.notesStart + (se.viNoteStart + (newNote se newdesc).length)) =
      _
  rw [front, note, back]
  rfl

/-! ## The memory behind the notes -/

theorem loads_withMemory (memory : Nat → UInt8) :
    Loads bytes memory { se with notes := ⟨se.notes.bytes, memory⟩ } := by
  obtain ⟨before, note, after, holds, -⟩ := replaceable.holdsLast loads
  let notes : Buffer := ⟨se.notes.bytes, memory⟩
  have newHolds : HoldsLast notes.bytes before se.viNote note after := holds
  have namesz :
      nameszAt notes se.viNote = nameszAt se.notes se.viNote := by
    rw [nameszAt_of_reads newHolds.head, nameszAt_of_reads holds.head]
  have descsz :
      descszAt notes se.viNote = descszAt se.notes se.viNote := by
    rw [descszAt_of_reads newHolds.head, descszAt_of_reads holds.head]
  constructor
  case headers => exact loads.headers
  case segment => exact loads.segment
  case notesStart_lt => exact loads.notesStart_lt
  case notesLen_lt => exact loads.notesLen_lt
  case notes_length => exact loads.notes_length
  case notes_eq =>
    rw [loads.notes_eq]
  case viNote_eq => exact newHolds.found
  case viNoteStart_eq => exact loads.viNoteStart_eq
  case viNoteEnd_eq =>
    change se.viNoteEnd = _ + pad4 (descszAt notes _) + pad4 (nameszAt notes _)
    rw [namesz, descsz]
    exact loads.viNoteEnd_eq
  case oldDescsz_eq => exact loads.oldDescsz_eq.trans descsz.symm

theorem edited_withMemory (memory : Nat → UInt8) (newdesc : List UInt8) :
    edited bytes { se with notes := ⟨se.notes.bytes, memory⟩ } newdesc =
      edited bytes se newdesc := by
  obtain ⟨before, note, after, -, namePad, begun, -⟩ :=
    replaceable.holdsLast loads
  have length : se.notes.bytes.length = se.notesLen := by
    rw [loads.notes_eq]
    exact loads.notes_length
  have sameRead {pos count : Nat} (within : pos + count ≤ se.notesLen) :
      Buffer.read ⟨se.notes.bytes, memory⟩ pos count =
        se.notes.read pos count := by
    rw [read_notes loads within]
    exact Buffer.read_eq_slice (by
      change _ ≤ se.notes.bytes.length
      omega)
  have note :
      newNote { se with notes := ⟨se.notes.bytes, memory⟩ } newdesc =
        newNote se newdesc :=
    newNote_congr newdesc rfl (sameRead (by omega)) (sameRead (by omega))
  exact congrArg
    (fun data =>
      (withPhdrs bytes se newdesc.length).take
          (se.notesStart + se.viNoteStart) ++ data ++
        (withPhdrs bytes se newdesc.length).drop
          (se.notesStart + se.viNoteEnd)) note

/-! ## Editing back -/

/-- The new content is the descriptor the file has, filled up with zeros. -/
theorem edited_of_same {newdesc : List UInt8}
    (sameSize : se.oldDescsz = newdesc.length)
    (sameDesc :
      slice bytes (se.notesStart + noteDesc se.notes se.viNote)
          (pad4 newdesc.length) =
        newdesc ++
          List.replicate (pad4 newdesc.length - newdesc.length) 0) :
    edited bytes se newdesc = bytes := by
  obtain ⟨before, note, after, -, namePad, begun, -⟩ :=
    replaceable.holdsLast loads
  have start := loads.viNoteStart_eq
  have noteEnd := loads.viNoteEnd_eq
  have descsz := loads.oldDescsz_eq
  have size : nhdrSize = 12 := rfl
  have readFile {pos count : Nat} (within : pos + count ≤ se.notesLen) :
      se.notes.read pos count = slice bytes (se.notesStart + pos) count := by
    rw [read_notes loads within, loads.notes_eq]
    exact slice_slice _ within
  have oldSize :
      littleEncode 4 newdesc.length = se.notes.read (se.viNote + 4) 4 := by
    have encoded :=
      littleEncode_littleDecode (se.notes.read (se.viNote + 4) 4)
    rw [Buffer.read_length] at encoded
    rw [← sameSize, descsz]
    exact encoded
  have sameNote :
      newNote se newdesc =
        slice bytes (se.notesStart + se.viNote)
          (4 + 4 + (4 + pad4 (nameszAt se.notes se.viNote)) +
            pad4 newdesc.length) := by
    have descAt :
        se.notesStart + se.viNote +
            (4 + 4 + (4 + pad4 (nameszAt se.notes se.viNote))) =
          se.notesStart + noteDesc se.notes se.viNote := by
      rw [noteDesc]
      omega
    rw [newNote_eq, oldSize, List.append_assoc, ← sameDesc, slice_append,
      slice_append, slice_append, descAt, readFile (by omega),
      readFile (by omega), readFile (by omega)]
    simp only [Nat.add_assoc, Nat.reduceAdd]
  have noPadding : pad4 newdesc.length = pad4 se.oldDescsz := by rw [sameSize]
  have sameHeaders := withPhdrs_of_same loads noPadding
  have sameEnd :
      se.notesStart + se.viNoteEnd =
        se.notesStart + se.viNote +
          (4 + 4 + (4 + pad4 (nameszAt se.notes se.viNote)) +
            pad4 newdesc.length) := by
    rw [noPadding, descsz, noteEnd]
    omega
  rw [edited, sameHeaders, sameNote, start, sameEnd, take_slice_drop]

end Reloading

/-! ## Two runs -/

/-- A run of `main` that returns 0 makes `result` of the core file. -/
def Edits (bytes content result : List UInt8) : Prop :=
  ∃ env last,
    main env (some content) (Process.initial bytes) = .ok 0 last ∧
      last.elf.bytes = result

/-- There is such a run, and the result is the edited file. -/
theorem edits_iff
    {bytes content result : List UInt8} {beyond : Nat → UInt8}
    {se : SavedElfdata} (loads : Loads bytes beyond se)
    (replaceable : Replaceable bytes se) :
    Edits bytes content result ↔
      bytes.length < 2 ^ 63 ∧ result = edited bytes se (content ++ [0]) := by
  constructor
  · rintro ⟨env, last, run, rfl⟩
    obtain ⟨other, otherLoads, -, lengthLt, bytesEq⟩ := editFile_eq_zero run
    have same :=
      otherLoads.unique (loads_withMemory loads replaceable env.beyond)
    rw [same, edited_withMemory loads replaceable] at bytesEq
    exact ⟨lengthLt, bytesEq⟩
  · rintro ⟨lengthLt, rfl⟩
    let env : Env := { quietEnv (bytes.length + 1) with beyond := beyond }
    have completes : env.Completes :=
      ⟨(quietEnv_completes 0).outcome_eq, (quietEnv_completes 0).sent_ne⟩
    obtain ⟨last, run, bytesEq⟩ :=
      editFile_of_completes completes (content ++ [0]) loads replaceable.fits
        lengthLt (Nat.lt_succ_self _)
    exact ⟨env, last, run, bytesEq⟩

/-- The length of the notes is what the edited file says it is. -/
theorem edited_notesLen
    {bytes newdesc : List UInt8} {beyond memory : Nat → UInt8}
    {se other : SavedElfdata} (loads : Loads bytes beyond se)
    (replaceable : Replaceable bytes se) (nonempty : newdesc ≠ [])
    (short : newdesc.length < 2 ^ 32)
    (reloads : Loads (edited bytes se newdesc) memory other) :
    other.notesLen = newNotesLen se newdesc.length := by
  have headers := edited_headers loads replaceable newdesc
  have sameEhdr : other.ehdr = se.ehdr :=
    reloads.headers.ehdr_eq.trans headers.ehdr_eq.symm
  have samePhdr : other.phdr = shiftPhdrs se newdesc.length := by
    rw [reloads.headers.phdr_eq, sameEhdr, ← headers.phdr_eq]
  obtain ⟨segment, found, -, lenEq⟩ :=
    edited_segment loads replaceable nonempty short
  obtain ⟨otherSegment, otherFound, -, otherLenEq⟩ := reloads.segment
  rw [samePhdr, found] at otherFound
  have same : segment = otherSegment :=
    congrArg Prod.snd (Option.some.inj otherFound)
  rw [otherLenEq, ← same, lenEq]

/-- What a second run leaves. -/
theorem edits_edited
    {bytes newdesc content result : List UInt8} {beyond : Nat → UInt8}
    {se : SavedElfdata} (loads : Loads bytes beyond se)
    (replaceable : Replaceable bytes se) (nonempty : newdesc ≠ [])
    (short : newdesc.length < 2 ^ 32)
    (again : Edits (edited bytes se newdesc) content result) :
    result = edited bytes se (content ++ [0]) := by
  obtain ⟨env, last, run, rfl⟩ := again
  obtain ⟨other, otherLoads, -, -, bytesEq⟩ := editFile_eq_zero run
  have lenLt := otherLoads.notesLen_lt
  rw [edited_notesLen loads replaceable nonempty short otherLoads] at lenLt
  have same :=
    otherLoads.unique
      (edited_loads loads replaceable nonempty short lenLt env.beyond)
  rw [bytesEq, same]
  exact edited_reloaded loads replaceable nonempty short env.beyond _

/-- The new note is within the edited file. -/
theorem edited_fits
    {bytes : List UInt8} {beyond : Nat → UInt8} {se : SavedElfdata}
    (loads : Loads bytes beyond se)
    (fits : se.notesStart + se.viNoteEnd ≤ bytes.length)
    (newdesc : List UInt8) :
    se.notesStart + (se.viNoteStart + (newNote se newdesc).length) ≤
      (edited bytes se newdesc).length := by
  have note := congrArg List.length (edited_slice_note loads fits newdesc)
  have front := front_le loads fits newdesc
  rw [slice_length] at note
  omega

/-- A second edit gives what it would have given without the first, and it can
be made whenever the program can still read the notes. -/
theorem edit_lastWins
    {env : Env} {last : Process} {se : SavedElfdata}
    {bytes first second middle : List UInt8}
    (accepted :
      readElfdata env (Process.initial bytes) = .ok (some se) last)
    (replaceable : Replaceable bytes se)
    (firstShort : first.length < 2 ^ 32 - 1)
    (firstEdit : Edits bytes first middle) :
    (∀ result, Edits middle second result →
      ∀ other, Edits bytes second other ↔ other = result) ∧
    (newNotesLen se (first.length + 1) < 2 ^ 31 → middle.length < 2 ^ 63 →
      ∃ result, Edits middle second result) ∧
    (se.oldDescsz = second.length + 1 →
      slice bytes (se.notesStart + noteDesc se.notes se.viNote)
          (pad4 (second.length + 1)) = padded (second ++ [0]) →
        ∀ result, Edits middle second result → result = bytes) := by
  have loads : Loads bytes env.beyond se := readElfdata_loads rfl accepted
  have nonempty : first ++ [0] ≠ [] :=
    List.append_ne_nil_of_right_ne_nil _ (List.cons_ne_nil _ _)
  have length : (first ++ [0]).length = first.length + 1 :=
    List.length_append
  have short : (first ++ [0]).length < 2 ^ 32 := by omega
  obtain ⟨lengthLt, middleEq⟩ := (edits_iff loads replaceable).mp firstEdit
  subst middleEq
  refine ⟨?_, ?_, ?_⟩
  · intro result secondEdit other
    rw [edits_iff loads replaceable,
      edits_edited loads replaceable nonempty short secondEdit]
    exact and_iff_right lengthLt
  · intro lenLt middleLt
    rw [← length] at lenLt
    let memory : Env :=
      quietEnv ((edited bytes se (first ++ [0])).length + 1)
    obtain ⟨final, run, -⟩ :=
      editFile_of_completes (quietEnv_completes _) (second ++ [0])
        (edited_loads loads replaceable nonempty short lenLt memory.beyond)
        (edited_fits loads replaceable.fits _) middleLt (Nat.lt_succ_self _)
    exact ⟨_, memory, final, run, rfl⟩
  · intro sameSize sameDesc result secondEdit
    have secondLength : (second ++ [0]).length = second.length + 1 :=
      List.length_append
    rw [edits_edited loads replaceable nonempty short secondEdit]
    apply edited_of_same loads replaceable
    · rw [secondLength]
      exact sameSize
    · rw [secondLength, sameDesc, padded, secondLength, pad4_eq_align4]

/-- The note of `exampleCore`. -/
def exampleNote : ElfNote where
  name := vmcoreinfo ++ [0]
  desc := [65, 0]
  type := 0
  name_lt := by decide
  desc_lt := by decide
  type_lt := by decide

theorem exampleNote_clean :
    CleanNotes (slice exampleCore 120 28) [exampleNote] where
  reads := by
    refine ⟨⟨⟨?_, ?_, ?_, ?_, ?_⟩, ?_⟩, ?_⟩
    · decide
    · decide +kernel
    · decide +kernel
    · decide +kernel
    · decide +kernel
    · decide +kernel
    · change 28 ≤ 0 + exampleNote.size
      decide
  terminated := by decide
  begun := by
    intro before note after split
    rcases List.append_eq_singleton_iff.mp split.symm with
      ⟨rfl, single⟩ | ⟨_, impossible⟩
    · cases single
      decide
    · cases impossible

/-- What the program finds in `exampleCore`. -/
def exampleFound : Option SavedElfdata → Bool
  | none => false
  | some se =>
      decide
        (se.ehdr.ePhoff.toNat = 64 ∧ tableSize se.ehdr = 56 ∧
          se.notesStart = 120 ∧ se.notesLen = 28 ∧ se.viNoteEnd = 28 ∧
          se.oldDescsz = 2 ∧ noteDesc se.notes se.viNote = 24 ∧
          se.notes.bytes = slice exampleCore 120 28 ∧
          ∀ segment ∈ se.phdr, segment.pMemsz = segment.pFilesz)

theorem exampleCore_accepted :
    ∃ se last,
      readElfdata (quietEnv 200) (Process.initial exampleCore) =
          .ok (some se) last ∧
        Replaceable exampleCore se ∧ newNotesLen se 5 < 2 ^ 31 ∧
        se.oldDescsz = 2 ∧
        slice exampleCore (se.notesStart + noteDesc se.notes se.viNote) 4 =
          [65, 0, 0, 0] := by
  obtain ⟨result, last, run, found⟩ :
      ∃ result last,
        readElfdata (quietEnv 200) (Process.initial exampleCore) =
            .ok result last ∧
          exampleFound result = true :=
    exists_of_returnsWith (by decide +kernel)
  cases result with
  | none => cases found
  | some se =>
      obtain ⟨phoff, size, start, len, noteEnd, oldSize, desc, area, sizes⟩ :=
        of_decide_eq_true found
      refine ⟨se, last, run, ⟨?_, ?_, ?_, ?_, ?_⟩, ?_, oldSize, ?_⟩
      · rw [phoff]
        decide
      · omega
      · rw [area]
        exact ⟨_, exampleNote_clean⟩
      · rw [start, noteEnd]
        decide +kernel
      · exact fun segment present =>
          Or.inr (sizes segment (List.mem_of_getElem? present))
      · rw [newNotesLen, len, oldSize]
        decide
      · rw [start, desc]
        decide +kernel

theorem edit_lastWins_exampleCore :
    ∃ middle,
      Edits exampleCore [66, 66, 66, 66] middle ∧
        (∃ result, Edits middle [65] result) ∧
        ∀ result, Edits middle [65] result →
          result = exampleCore ∧ Edits exampleCore [65] result := by
  obtain ⟨se, last, accepted, replaceable, lenLt, sameSize, sameDesc⟩ :=
    exampleCore_accepted
  have loads : Loads exampleCore (quietEnv 200).beyond se :=
    readElfdata_loads rfl accepted
  obtain ⟨final, run, bytesEq⟩ :=
    editFile_of_completes (quietEnv_completes 200) ([66, 66, 66, 66] ++ [0])
      loads replaceable.fits (by decide +kernel) (by decide +kernel)
  have firstEdit : Edits exampleCore [66, 66, 66, 66] final.elf.bytes :=
    ⟨quietEnv 200, final, run, rfl⟩
  have middleLt : final.elf.bytes.length < 2 ^ 63 := by
    have lengths :=
      edited_length loads replaceable.fits ([66, 66, 66, 66] ++ [0])
    have before : exampleCore.length = 148 := by decide +kernel
    have newPad : pad4 ([66, 66, 66, 66] ++ [(0 : UInt8)]).length = 8 := rfl
    rw [before, newPad] at lengths
    rw [bytesEq]
    omega
  obtain ⟨same, possible, back⟩ :
      (∀ result, Edits final.elf.bytes [65] result →
        ∀ other, Edits exampleCore [65] other ↔ other = result) ∧ _ :=
    edit_lastWins accepted replaceable (by decide) firstEdit
  refine ⟨_, firstEdit, possible lenLt middleLt, ?_⟩
  intro result secondEdit
  exact ⟨back sameSize sameDesc result secondEdit,
    (same result secondEdit result).mpr rfl⟩

end KernelStuff.Editvmcoreinfo
