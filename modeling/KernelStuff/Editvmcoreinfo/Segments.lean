import KernelStuff.Editvmcoreinfo.LastWins
import KernelStuff.Editvmcoreinfo.NoteParts

/-!
# The segments of the edited file

`update_offsets` shifts the segments that are listed behind the segment of
notes, `shift_data` moves the bytes that lie behind the note.  A segment keeps its
bytes where both agree, and where it does not contain the table of program headers
itself.
-/

namespace KernelStuff.Editvmcoreinfo

open KernelStuff.Library

/-- The table of program headers, read at `e_phoff`. -/
def phdrsOf (bytes : List UInt8) : List Elf64Phdr :=
  let ehdr := Elf64Ehdr.decode (slice bytes 0 elf64EhdrSize)
  Elf64Phdr.decodeTable ehdr.ePhnum.toNat
    (slice bytes ehdr.ePhoff.toNat (tableSize ehdr))

/-- The `p_filesz` bytes at `p_offset`. -/
def segmentBytes (bytes : List UInt8) (phdr : Elf64Phdr) : List UInt8 :=
  slice bytes phdr.pOffset.toNat phdr.pFilesz.toNat

/-- In the result the `i`-th segment has the bytes that it had. -/
def KeepsSegment (bytes result : List UInt8) (i : Nat) : Prop :=
  ∃ old new,
    (phdrsOf bytes)[i]? = some old ∧ (phdrsOf result)[i]? = some new ∧
      segmentBytes result new = segmentBytes bytes old

/-- The segment of notes has the same notes in the same order, but for the
descriptor of the one that was replaced. -/
def KeepsNotes (bytes result : List UInt8) (se : SavedElfdata)
    (newdesc : List UInt8) : Prop :=
  ∃ before note after old new,
    (phdrsOf bytes)[se.notesSeg]? = some old ∧
      (phdrsOf result)[se.notesSeg]? = some new ∧
      notesOf (segmentBytes bytes old) = before ++ note :: after ∧
      (before.map NoteParts.size).sum = se.viNoteStart ∧
      notesOf (segmentBytes result new) =
        before ++
          { note with descsz := newdesc.length, desc := newdesc } :: after

section Conditions

variable (se : SavedElfdata)

/-- The segment has no byte of the note. -/
def ClearOfNote (phdr : Elf64Phdr) : Prop :=
  Apart phdr.pOffset.toNat phdr.pFilesz.toNat
    (se.notesStart + se.viNoteStart) (se.viNoteEnd - se.viNoteStart)

instance (phdr : Elf64Phdr) : Decidable (ClearOfNote se phdr) :=
  inferInstanceAs (Decidable (Apart _ _ _ _))

/-- The segment has no byte of the table of program headers. -/
def ClearOfTable (phdr : Elf64Phdr) : Prop :=
  Apart phdr.pOffset.toNat phdr.pFilesz.toNat se.ehdr.ePhoff.toNat
    (tableSize se.ehdr)

/-- The segment is listed and lies on one side of the note. -/
def InOrder (newdescsz i : Nat) (phdr : Elf64Phdr) : Prop :=
  i < se.notesSeg ∧
      phdr.pOffset.toNat + phdr.pFilesz.toNat ≤
        se.notesStart + se.viNoteStart ∨
    se.notesSeg < i ∧ se.notesStart + se.viNoteEnd ≤ phdr.pOffset.toNat ∧
      phdr.pOffset.toNat + pad4 newdescsz < 2 ^ 64 + pad4 se.oldDescsz

/-- The offset of the segment and its bytes go the same way. -/
def MovesAlong (newdescsz i : Nat) (phdr : Elf64Phdr) : Prop :=
  pad4 newdescsz = pad4 se.oldDescsz ∨ phdr.pFilesz = 0 ∨
    ClearOfTable se phdr ∧ InOrder se newdescsz i phdr

/-- The segment of notes has no byte that `update_offsets` changes. -/
def NotesUntouched (newdescsz : Nat) : Prop :=
  pad4 newdescsz = pad4 se.oldDescsz ∨
    Apart se.notesStart se.notesLen se.ehdr.ePhoff.toNat (tableSize se.ehdr)

end Conditions

/-- A run on this file preserves every other segment that has no byte of the
note, and the notes. -/
def Preserves (env : Env) (bytes content : List UInt8) : Prop :=
  ∀ se last after,
    readElfdata env (Process.initial bytes) = .ok (some se) last →
      se.viNoteEnd ≤ se.notesLen →
        main env (some content) (Process.initial bytes) = .ok 0 after →
          (∀ i phdr, se.phdr[i]? = some phdr → i ≠ se.notesSeg →
            ClearOfNote se phdr → KeepsSegment bytes after.elf.bytes i) ∧
            KeepsNotes bytes after.elf.bytes se (content ++ [0])

theorem Headers.phdrsOf_eq
    {bytes : List UInt8} {ehdr : Elf64Ehdr} {phdr : List Elf64Phdr}
    (headers : Headers bytes ehdr phdr) : phdrsOf bytes = phdr := by
  rw [phdrsOf, ← headers.ehdr_eq]
  exact headers.phdr_eq.symm

section Edited

variable {bytes : List UInt8} {beyond : Nat → UInt8} {se : SavedElfdata}
  (loads : Loads bytes beyond se)

include loads

/-- The bytes of the segment of notes that was loaded. -/
theorem notesSeg_eq :
    ∃ segment, (phdrsOf bytes)[se.notesSeg]? = some segment ∧
      se.notesStart = segment.pOffset.toNat ∧
      se.notesLen = segment.pFilesz.toNat ∧
      segmentBytes bytes segment = se.notes.bytes := by
  obtain ⟨segment, here, startEq, lenEq⟩ := segment_getElem? loads
  refine ⟨segment, ?_, startEq, lenEq, ?_⟩
  · rw [loads.headers.phdrsOf_eq]
    exact here
  · rw [segmentBytes, ← startEq, ← lenEq, loads.notes_eq]

theorem notes_bytes_length : se.notes.bytes.length = se.notesLen := by
  rw [loads.notes_eq]
  exact loads.notes_length

theorem viNoteEnd_eq_nextNote :
    se.viNoteEnd = nextNote se.notes se.viNote := by
  rw [loads.viNoteEnd_eq, nextNote]
  omega

/-- A note inside of the notes is inside of the file. -/
theorem Loads.note_fits (whole : se.viNoteEnd ≤ se.notesLen) :
    se.notesStart + se.viNoteEnd ≤ bytes.length := by
  have length := loads.notes_length
  have inNotes := loads.viNote_lt
  rw [slice_length] at length
  omega

variable (fits : se.notesStart + se.viNoteEnd ≤ bytes.length)
  {newdesc : List UInt8} (stays : TableStays se newdesc.length)

include fits stays

/-- The `i`-th program header of the edited file. -/
theorem phdrsOf_edited {i : Nat} {phdr : Elf64Phdr}
    (present : se.phdr[i]? = some phdr) :
    (phdrsOf (edited bytes se newdesc))[i]? =
      some
        (shiftPhdr se.notesSeg (sizediff se.oldDescsz newdesc.length) i
          phdr) := by
  rw [(stays.headers loads fits).phdrsOf_eq, shiftPhdrs, List.getElem?_mapIdx,
    present]
  rfl

/-! ## Other segments -/

section Segment

variable {i : Nat} {phdr : Elf64Phdr} (present : se.phdr[i]? = some phdr)

include present

theorem keepsSegment_iff :
    KeepsSegment bytes (edited bytes se newdesc) i ↔
      segmentBytes (edited bytes se newdesc)
          (shiftPhdr se.notesSeg (sizediff se.oldDescsz newdesc.length) i
            phdr) =
        segmentBytes bytes phdr := by
  have old := loads.headers.phdrsOf_eq
  have new := phdrsOf_edited loads fits stays present
  rw [KeepsSegment, old, present, new]
  constructor
  · rintro ⟨first, second, firstEq, secondEq, same⟩
    cases firstEq
    cases secondEq
    exact same
  · intro same
    exact ⟨_, _, rfl, rfl, same⟩

/-- When the padded size stays, nothing but the note changes. -/
theorem keepsSegment_of_same
    (same : pad4 newdesc.length = pad4 se.oldDescsz)
    (clear : ClearOfNote se phdr) :
    KeepsSegment bytes (edited bytes se newdesc) i := by
  have unshifted : shiftPhdrs se newdesc.length = se.phdr :=
    shiftPhdrs_of_same same
  have samePhdr :
      shiftPhdr se.notesSeg (sizediff se.oldDescsz newdesc.length) i phdr =
        phdr := by
    have here := congrArg (·[i]?) unshifted
    rw [shiftPhdrs, List.getElem?_mapIdx, present] at here
    exact Option.some.inj here
  obtain ⟨noteLe, -⟩ := loads.offsets_lt
  rw [keepsSegment_iff loads fits stays present, samePhdr]
  rw [ClearOfNote, Apart] at clear
  have noteEnd := loads.viNoteEnd_eq
  have noteStart := loads.viNoteStart_eq
  rw [nhdrSize] at noteEnd
  exact slice_congr fun k _ inside =>
    getElem?_edited_of_same loads fits newdesc same (by omega)

/-- An empty segment stays empty. -/
theorem keepsSegment_of_empty (other : i ≠ se.notesSeg)
    (empty : phdr.pFilesz = 0) :
    KeepsSegment bytes (edited bytes se newdesc) i := by
  have stillEmpty :
      (shiftPhdr se.notesSeg (sizediff se.oldDescsz newdesc.length) i
        phdr).pFilesz = 0 := by
    rw [shiftPhdr, if_neg other]
    split
    · exact empty
    · exact empty
  rw [keepsSegment_iff loads fits stays present, segmentBytes, stillEmpty,
    segmentBytes, empty]
  exact (slice_zero _ _).trans (slice_zero _ _).symm

/-- A segment that is listed on the side of the note on which it lies moves with
its bytes. -/
theorem keepsSegment_of_inOrder
    (shifted : pad4 newdesc.length ≠ pad4 se.oldDescsz)
    (clear : ClearOfTable se phdr) (order : InOrder se newdesc.length i phdr) :
    KeepsSegment bytes (edited bytes se newdesc) i := by
  obtain ⟨-, inFront⟩ := stays.shifted shifted
  obtain ⟨noteLe, -⟩ := loads.offsets_lt
  rw [keepsSegment_iff loads fits stays present]
  rcases order with ⟨earlier, before⟩ | ⟨later, behind, bound⟩
  · have sameIndex : i ≠ se.notesSeg := by omega
    have notLater : ¬ se.notesSeg < i := by omega
    rw [shiftPhdr, if_neg sameIndex, if_neg notLater]
    rw [ClearOfTable, Apart] at clear
    have nonempty : 0 < tableSize se.ehdr := loads.tableSize_pos
    exact slice_congr fun k above inside =>
      edited_before loads fits (by omega) (by omega)
  · have sameIndex : i ≠ se.notesSeg := by omega
    have noteEnd := loads.viNoteEnd_eq
    have oldSize := loads.oldDescsz_eq
    have enough :
        pad4 se.oldDescsz ≤ phdr.pOffset.toNat + pad4 newdesc.length := by
      rw [oldSize]
      omega
    have place :
        (phdr.pOffset + sizediff se.oldDescsz newdesc.length).toNat =
          phdr.pOffset.toNat + pad4 newdesc.length - pad4 se.oldDescsz :=
      toNat_add_sizediff enough bound
    rw [shiftPhdr, if_neg sameIndex, if_pos later, segmentBytes, segmentBytes]
    dsimp only
    rw [place]
    apply List.ext_getElem?
    intro k
    rw [getElem?_slice, getElem?_slice]
    split
    · have moved :=
        getElem?_edited_behind loads fits newdesc
          (Nat.le_trans behind (Nat.le_add_right _ k))
      have sum :
          phdr.pOffset.toNat + pad4 newdesc.length - pad4 se.oldDescsz + k =
            phdr.pOffset.toNat + k + pad4 newdesc.length -
              pad4 se.oldDescsz := by
        omega
      rw [sum, moved]
      exact getElem?_withPhdrs loads _ (Or.inr (by omega))
    · rfl

end Segment

/-! ## The segment of notes -/

section Notes

variable (whole : se.viNoteEnd ≤ se.notesLen)
  (kept : NotesUntouched se newdesc.length)

include whole kept

omit stays in
/-- The area is the old one with the new note in the place of the old one. -/
theorem newArea_eq :
    newArea bytes se newdesc =
      se.notes.bytes.take se.viNote ++ newNote se newdesc ++
        se.notes.bytes.drop se.viNoteEnd := by
  have noteStart := loads.viNoteStart_eq
  have noteEnd := loads.viNoteEnd_eq
  have oldSize := loads.oldDescsz_eq
  have noteLength := newNote_length se newdesc
  have tablePositive := loads.tableSize_pos
  have notesPositive := loads.viNote_lt
  have oldArea :
      slice (withPhdrs bytes se newdesc.length) se.notesStart se.notesLen =
        se.notes.bytes := by
    rw [loads.notes_eq]
    rcases kept with same | apart
    · rw [withPhdrs_of_same loads same]
    · rw [Apart] at apart
      exact slice_congr fun i _ inside =>
        getElem?_withPhdrs loads _ (by omega)
  have length :
      newNotesLen se newdesc.length =
        se.viNote + (newNote se newdesc).length +
          (se.notesLen - se.viNoteEnd) := by
    rw [newNotesLen, oldSize]
    omega
  have front :
      slice (edited bytes se newdesc) se.notesStart se.viNote =
        se.notes.bytes.take se.viNote := by
    rw [← oldArea]
    change _ = slice (slice _ _ _) 0 se.viNote
    rw [slice_slice _ (by omega)]
    exact slice_congr fun i _ inside =>
      getElem?_edited loads fits newdesc (by omega)
  have note := edited_slice_note loads fits newdesc
  have behind := congrArg (List.take (se.notesLen - se.viNoteEnd))
    (edited_drop loads fits newdesc)
  rw [noteStart] at note behind
  rw [newArea, length, slice_append, slice_append, front, note,
    ← Nat.add_assoc, ← oldArea, drop_slice]
  exact congrArg (_ ++ ·) behind

omit kept in
/-- The segment of notes in the table of the edited file. -/
theorem edited_notesSeg (short : newdesc.length < 2 ^ 32) :
    ∃ new,
      (phdrsOf (edited bytes se newdesc))[se.notesSeg]? = some new ∧
        segmentBytes (edited bytes se newdesc) new =
          newArea bytes se newdesc := by
  obtain ⟨segment, here, startEq, lenEq⟩ := segment_getElem? loads
  have oldSize := loads.oldDescsz_eq
  have noteEnd := loads.viNoteEnd_eq
  have lenLt := loads.notesLen_lt
  have newPad := pad4_le newdesc.length
  have oldPad : pad4 se.oldDescsz ≤ se.notesLen := by
    rw [oldSize]
    omega
  have newLen :
      (segment.pFilesz + sizediff se.oldDescsz newdesc.length).toNat =
        newNotesLen se newdesc.length := by
    rw [toNat_add_sizediff (by omega) (by omega), ← lenEq, newNotesLen]
  refine ⟨_, phdrsOf_edited loads fits stays here, ?_⟩
  rw [shiftPhdr, if_pos rfl, segmentBytes]
  dsimp only
  rw [newLen, ← startEq, newArea]

omit fits stays kept in
/-- The note that was replaced, and the new one in its place. -/
theorem closed_notes (short : newdesc.length < 2 ^ 32) :
    ∃ note,
      Closed (slice se.notes.bytes se.viNote (se.viNoteEnd - se.viNote)) ∧
        notesOf
            (slice se.notes.bytes se.viNote (se.viNoteEnd - se.viNote)) =
          [note] ∧
        Closed (newNote se newdesc) ∧
        notesOf (newNote se newdesc) =
          [{ note with descsz := newdesc.length, desc := newdesc }] := by
  have ends := viNoteEnd_eq_nextNote loads
  have area := notes_bytes_length loads
  have forward := lt_nextNote se.notes se.viNote
  rw [ends] at whole ⊢
  have reach :
      se.viNote + (nextNote se.notes se.viNote - se.viNote) ≤
        se.notes.bytes.length := by
    omega
  obtain ⟨namesz, next⟩ := noteParts_slice (by omega) reach
  have oldLength := slice_length_of_le reach
  have oldSize :
      (noteParts
          (slice se.notes.bytes se.viNote
            (nextNote se.notes se.viNote - se.viNote))).size =
        (slice se.notes.bytes se.viNote
          (nextNote se.notes se.viNote - se.viNote)).length := by
    omega
  obtain ⟨oldClosed, oldNotes⟩ := closed_of_size oldSize
  have inArea : nextNote se.notes se.viNote ≤ se.notes.bytes.length := by
    omega
  have parts := noteParts_newNote short inArea
  have newSize : (noteParts (newNote se newdesc)).size =
      (newNote se newdesc).length := by
    rw [parts, newNote_length, NoteParts.size, namesz, Nat.add_assoc]
  obtain ⟨newClosed, newNotes⟩ := closed_of_size newSize
  refine ⟨_, oldClosed, oldNotes, newClosed, ?_⟩
  rw [newNotes, parts]

/-- The notes are the old ones but for the one that was replaced. -/
theorem keepsNotes (short : newdesc.length < 2 ^ 32) :
    KeepsNotes bytes (edited bytes se newdesc) se newdesc := by
  obtain ⟨old, oldHere, -, -, oldBytes⟩ := notesSeg_eq loads
  obtain ⟨new, newHere, newBytes⟩ :=
    edited_notesSeg loads fits stays whole short
  obtain ⟨note, noteClosed, noteEq, newClosed, newEq⟩ :=
    closed_notes loads whole short
  have ends := viNoteEnd_eq_nextNote loads
  have area := notes_bytes_length loads
  have forward := lt_nextNote se.notes se.viNote
  have frontClosed : Closed (se.notes.bytes.take se.viNote) := by
    rcases closed_of_found loads.viNote_eq with impossible | ⟨_, closed⟩
    · cases impossible
    · exact closed
  have split :
      se.notes.bytes =
        se.notes.bytes.take se.viNote ++
            slice se.notes.bytes se.viNote (se.viNoteEnd - se.viNote) ++
          se.notes.bytes.drop se.viNoteEnd := by
    have parts :=
      take_slice_drop se.notes.bytes se.viNote (se.viNoteEnd - se.viNote)
    rw [Nat.add_sub_cancel' (by omega)] at parts
    exact parts.symm
  refine
    ⟨notesOf (se.notes.bytes.take se.viNote), note,
      notesOf (se.notes.bytes.drop se.viNoteEnd), old, new, oldHere, newHere,
      ?_, ?_, ?_⟩
  · calc
      notesOf (segmentBytes bytes old) =
          notesOf
            (se.notes.bytes.take se.viNote ++
                slice se.notes.bytes se.viNote (se.viNoteEnd - se.viNote) ++
              se.notes.bytes.drop se.viNoteEnd) := by
        rw [oldBytes, ← split]
      _ = _ := by
        rw [List.append_assoc, notesOf_append frontClosed,
          notesOf_append noteClosed, noteEq]
        rfl
  · rw [sum_size_of_closed frontClosed, List.length_take,
      loads.viNoteStart_eq]
    omega
  · rw [newBytes, newArea_eq loads fits whole kept, List.append_assoc,
      notesOf_append frontClosed, notesOf_append newClosed, newEq]
    rfl

end Notes

end Edited

/-! ## The run -/

/-- On every file that is accepted, and whose note is whole, the run returns 0. -/
theorem editvmcoreinfo_run
    {env : Env} (completes : env.Completes) {bytes : List UInt8}
    (content : List UInt8) {se : SavedElfdata} {last : Process}
    (accepted :
      readElfdata env (Process.initial bytes) = .ok (some se) last)
    (whole : se.viNoteEnd ≤ se.notesLen) (lengthLt : bytes.length < 2 ^ 63)
    (enough : bytes.length < env.fuel) :
    ∃ after,
      main env (some content) (Process.initial bytes) = .ok 0 after ∧
        after.elf.bytes = edited bytes se (content ++ [0]) := by
  have loads : Loads bytes env.beyond se := readElfdata_loads rfl accepted
  exact
    editFile_of_completes completes (content ++ [0]) loads
      (loads.note_fits whole) lengthLt enough

/-- On every file that is accepted, and whose note is whole, the run returns 0.
If the headers stay where they are, every other segment that has no byte of the
note and moves along keeps its bytes, and the notes are kept. -/
theorem editvmcoreinfo_preserves
    {env : Env} (completes : env.Completes) {bytes : List UInt8}
    (content : List UInt8) {se : SavedElfdata} {last : Process}
    (accepted :
      readElfdata env (Process.initial bytes) = .ok (some se) last)
    (whole : se.viNoteEnd ≤ se.notesLen) (lengthLt : bytes.length < 2 ^ 63)
    (enough : bytes.length < env.fuel) :
    ∃ after,
      main env (some content) (Process.initial bytes) = .ok 0 after ∧
        (TableStays se (content.length + 1) →
          (∀ i phdr, se.phdr[i]? = some phdr → i ≠ se.notesSeg →
            ClearOfNote se phdr → MovesAlong se (content.length + 1) i phdr →
              KeepsSegment bytes after.elf.bytes i) ∧
            (content.length + 1 < 2 ^ 32 →
              NotesUntouched se (content.length + 1) →
                KeepsNotes bytes after.elf.bytes se (content ++ [0]))) := by
  have loads : Loads bytes env.beyond se := readElfdata_loads rfl accepted
  have fits := loads.note_fits whole
  have length : (content ++ [0]).length = content.length + 1 :=
    List.length_append
  obtain ⟨after, run, bytesEq⟩ :=
    editvmcoreinfo_run completes content accepted whole lengthLt enough
  refine ⟨after, run, ?_⟩
  rw [bytesEq, ← length]
  intro stays
  refine
    ⟨?_, fun short kept => keepsNotes loads fits stays whole kept short⟩
  intro i phdr present other clear moves
  rcases moves with same | empty | ⟨clearOfTable, order⟩
  · exact keepsSegment_of_same loads fits stays present same clear
  · exact keepsSegment_of_empty loads fits stays present other empty
  · by_cases same :
        pad4 (content ++ [0]).length = pad4 se.oldDescsz
    · exact keepsSegment_of_same loads fits stays present same clear
    · exact
        keepsSegment_of_inOrder loads fits stays present same clearOfTable
          order

/-! ## Examples -/

/-- A program header of this type, for these bytes of the file. -/
def segmentAt (type : UInt32) (offset filesz : UInt64) : Elf64Phdr :=
  ⟨type, 0, offset, 0, 0, filesz, 0, 0⟩

/-- The file header of `exampleCore` with two program headers behind it. -/
def twoHeader : List UInt8 :=
  ((exampleCore.take 64).set 32 64).set 56 2

/-- The note of `exampleCore` and four bytes of another segment behind it. -/
def noteAndLoad : List UInt8 := exampleCore.drop 120 ++ [1, 2, 3, 4]

def coreWith (first second : Elf64Phdr) : List UInt8 :=
  twoHeader ++ Elf64Phdr.encodeTable [first, second] ++ noteAndLoad

/-- The notes are listed first and come first. -/
def orderedCore : List UInt8 :=
  coreWith (segmentAt 4 176 28) (segmentAt 1 204 4)

/-- The first segment is the table of program headers. -/
def tableCore : List UInt8 :=
  coreWith (segmentAt 6 64 112) (segmentAt 4 176 28)

/-- What was found, with a segment that the run is to preserve. -/
def findsOther (i : Nat) : Option SavedElfdata → Process → Bool
  | none, _ => false
  | some se, _ =>
      decide (se.viNoteEnd ≤ se.notesLen ∧ i ≠ se.notesSeg) &&
        se.phdr[i]?.any fun phdr => decide (ClearOfNote se phdr)

/-- The `i`-th segment does not hold the bytes it had. -/
def losesSegment (bytes : List UInt8) (i : Nat) (rv : Int) (after : Process) :
    Bool :=
  rv == 0 &&
    (phdrsOf bytes)[i]?.all fun old =>
      (phdrsOf after.elf.bytes)[i]?.all fun new =>
        segmentBytes after.elf.bytes new != segmentBytes bytes old

theorem not_preserves_of_loses
    {env : Env} {bytes content : List UInt8} (i : Nat)
    (finds :
      returnsWith (findsOther i)
        (readElfdata env (Process.initial bytes)) = true)
    (loses :
      returnsWith (losesSegment bytes i)
        (main env (some content) (Process.initial bytes)) = true) :
    ¬ Preserves env bytes content := by
  intro preserves
  obtain ⟨found, last, accepted, other⟩ := exists_of_returnsWith finds
  obtain ⟨rv, after, run, lost⟩ := exists_of_returnsWith loses
  cases found with
  | none => cases other
  | some se =>
      rw [findsOther, Bool.and_eq_true, decide_eq_true_eq,
        Option.any_eq_true] at other
      obtain ⟨⟨whole, different⟩, phdr, present, clear⟩ := other
      rw [losesSegment, Bool.and_eq_true, beq_iff_eq] at lost
      obtain ⟨zero, gone⟩ := lost
      subst zero
      obtain ⟨old, new, oldHere, newHere, same⟩ :=
        (preserves se last after accepted whole run).1 i phdr present
          different (of_decide_eq_true clear)
      rw [oldHere, Option.all_some, newHere, Option.all_some, same] at gone
      exact absurd rfl (bne_iff_ne.mp gone)

/-- What is found in `orderedCore`. -/
def findsOrdered : Option SavedElfdata → Process → Bool
  | none, _ => false
  | some se, _ =>
      decide
        (se.ehdr.ePhoff.toNat = 64 ∧ tableSize se.ehdr = 112 ∧
          se.notesStart = 176 ∧ se.notesLen = 28 ∧ se.viNoteStart = 0 ∧
          se.viNoteEnd = 28 ∧ se.oldDescsz = 2 ∧ se.notesSeg = 0 ∧
          se.phdr = [segmentAt 4 176 28, segmentAt 1 204 4])

theorem orderedCore_accepted :
    ∃ se last,
      readElfdata (quietEnv 300) (Process.initial orderedCore) =
          .ok (some se) last ∧
        findsOrdered (some se) last = true := by
  obtain ⟨found, last, run, finds⟩ :
      ∃ found last,
        readElfdata (quietEnv 300) (Process.initial orderedCore) =
            .ok found last ∧
          findsOrdered found last = true :=
    exists_of_returnsWith (by decide +kernel)
  cases found with
  | none => cases finds
  | some se => exact ⟨se, last, run, finds⟩

/-- The segment behind the notes keeps its bytes when the note grows. -/
theorem editvmcoreinfo_preserves_orderedCore :
    ∃ se last after,
      readElfdata (quietEnv 300) (Process.initial orderedCore) =
          .ok (some se) last ∧
        main (quietEnv 300) (some [66, 66, 66, 66, 66])
            (Process.initial orderedCore) = .ok 0 after ∧
        KeepsSegment orderedCore after.elf.bytes 1 ∧
        KeepsNotes orderedCore after.elf.bytes se
          ([66, 66, 66, 66, 66] ++ [0]) := by
  obtain ⟨se, last, accepted, finds⟩ := orderedCore_accepted
  obtain ⟨phoff, table, start, len, noteStart, noteEnd, old, seg, phdrs⟩ :=
    of_decide_eq_true finds
  obtain ⟨after, run, preserves⟩ :=
    editvmcoreinfo_preserves (quietEnv_completes 300) [66, 66, 66, 66, 66]
      accepted (by omega) (by decide +kernel) (by decide +kernel)
  have header : elf64EhdrSize = 64 := rfl
  have oldPad : pad4 se.oldDescsz = 4 := by
    rw [old]
    rfl
  have newPad : pad4 (([66, 66, 66, 66, 66] : List UInt8).length + 1) = 8 :=
    rfl
  have stays :
      TableStays se (([66, 66, 66, 66, 66] : List UInt8).length + 1) :=
    { header := by omega
      table := Or.inr (Or.inr (Or.inl (by omega)))
      shifted := fun _ => ⟨by omega, by omega⟩ }
  obtain ⟨segments, notes⟩ := preserves stays
  have offset : (segmentAt 1 204 4).pOffset.toNat = 204 := rfl
  have filesz : (segmentAt 1 204 4).pFilesz.toNat = 4 := rfl
  refine ⟨se, last, after, accepted, run, ?_, ?_⟩
  · apply segments 1 (segmentAt 1 204 4)
    · rw [phdrs]
      rfl
    · omega
    · exact Or.inr (Or.inr (Or.inr (by omega)))
    · refine Or.inr (Or.inr ⟨?_, Or.inr ⟨by omega, by omega, by omega⟩⟩)
      exact Or.inr (Or.inr (Or.inr (by omega)))
  · apply notes (by decide)
    exact Or.inr (Or.inr (Or.inr (Or.inr (by omega))))

/-- The size of a descriptor is a word. -/
theorem not_preserves_of_long {content : List UInt8}
    (long : 2 ^ 32 ≤ content.length + 1) :
    ¬ Preserves (quietEnv 300) orderedCore content := by
  intro preserves
  obtain ⟨se, last, accepted, finds⟩ := orderedCore_accepted
  obtain ⟨-, -, -, len, -, noteEnd, -⟩ := of_decide_eq_true finds
  obtain ⟨after, run, -⟩ :=
    editvmcoreinfo_run (quietEnv_completes 300) content accepted (by omega)
      (by decide +kernel) (by decide +kernel)
  obtain ⟨before, note, others, old, new, -, -, -, -, newNotes⟩ :=
    (preserves se last after accepted (by omega) run).2
  have member :
      { note with
          descsz := (content ++ [0]).length
          desc := content ++ [0] } ∈
        notesOf (segmentBytes after.elf.bytes new) := by
    rw [newNotes]
    exact List.mem_append_right _ List.mem_cons_self
  have bound := descsz_lt_of_mem member
  rw [List.length_append] at bound
  change content.length + 1 < 2 ^ 32 at bound
  omega

/-- The table of program headers changes, and so does a segment that contains it;
and a descriptor of `2 ^ 32` bytes has no size. -/
theorem segments_not_preserved :
    ¬ Preserves (quietEnv 300) tableCore [66, 66, 66, 66, 66] ∧
      ¬ Preserves (quietEnv 300) orderedCore
          (List.replicate (2 ^ 32 - 1) 66) := by
  constructor
  · exact not_preserves_of_loses 0 (by decide +kernel) (by decide +kernel)
  · apply not_preserves_of_long
    rw [List.length_replicate]
    decide

end KernelStuff.Editvmcoreinfo
