import KernelStuff.Editvmcoreinfo.Edited

/-!
# The notes in a segment

`notesOf` cuts bytes into notes as the loop of `read_elfdata` does.  Any bytes
can be cut; of the last note there may be only a part.
-/

namespace KernelStuff.Editvmcoreinfo

open KernelStuff.Library

/-- A note, with as much of its name and descriptor as there is. -/
structure NoteParts where
  namesz : Nat
  descsz : Nat
  type : Nat
  name : List UInt8
  desc : List UInt8
  deriving DecidableEq

/-- The way to the next note. -/
def NoteParts.size (note : NoteParts) : Nat :=
  nhdrSize + (pad4 note.namesz + pad4 note.descsz)

/-- The first note of some bytes. -/
def noteParts (data : List UInt8) : NoteParts where
  namesz := littleDecode (slice data 0 4)
  descsz := littleDecode (slice data 4 4)
  type := littleDecode (slice data 8 4)
  name := slice data nhdrSize (littleDecode (slice data 0 4))
  desc :=
    slice data (nhdrSize + pad4 (littleDecode (slice data 0 4)))
      (littleDecode (slice data 4 4))

theorem NoteParts.size_pos (note : NoteParts) : nhdrSize ≤ note.size := by
  rw [NoteParts.size]
  omega

def notesOf (data : List UInt8) : List NoteParts :=
  if data = [] then []
  else noteParts data :: notesOf (data.drop (noteParts data).size)
termination_by data.length
decreasing_by
  rename_i nonempty
  have positive := List.length_pos_of_ne_nil nonempty
  have forward := (noteParts data).size_pos
  rw [nhdrSize] at forward
  rw [List.length_drop]
  omega

theorem notesOf_nil : notesOf [] = [] := by
  rw [notesOf, if_pos rfl]

theorem notesOf_of_pos {data : List UInt8} (positive : 0 < data.length) :
    notesOf data =
      noteParts data :: notesOf (data.drop (noteParts data).size) := by
  rw [notesOf, if_neg (List.ne_nil_of_length_pos positive)]

/-- The sizes in a header are words. -/
theorem descsz_lt_of_mem :
    ∀ {data : List UInt8} {note : NoteParts},
      note ∈ notesOf data → note.descsz < 2 ^ 32 := by
  intro data note member
  induction data using notesOf.induct with
  | case1 =>
      rw [notesOf_nil] at member
      cases member
  | case2 data nonempty inductionHypothesis =>
      rw [notesOf_of_pos (List.length_pos_of_ne_nil nonempty)] at member
      rcases List.mem_cons.mp member with rfl | later
      · have bound := littleDecode_lt (slice data 4 4)
        have length := slice_length data 4 4
        have most : 256 ^ (slice data 4 4).length ≤ 256 ^ 4 :=
          Nat.pow_le_pow_right (by omega) (by omega)
        exact Nat.lt_of_lt_of_le bound most
      · exact inductionHypothesis later

/-! ## Whole notes -/

/-- The bytes are notes with nothing missing. -/
inductive Closed : List UInt8 → Prop where
  | nil : Closed []
  | note {data : List UInt8} : (noteParts data).size ≤ data.length →
      Closed (data.drop (noteParts data).size) → Closed data

/-- Nothing behind a whole note belongs to it. -/
theorem noteParts_append
    {front : List UInt8} (fits : (noteParts front).size ≤ front.length)
    (rest : List UInt8) : noteParts (front ++ rest) = noteParts front := by
  have namePad := le_pad4 (noteParts front).namesz
  have descPad := le_pad4 (noteParts front).descsz
  rw [NoteParts.size] at fits
  have size : nhdrSize = 12 := rfl
  have namesz : slice (front ++ rest) 0 4 = slice front 0 4 :=
    slice_of_append rest (by omega)
  have descsz : slice (front ++ rest) 4 4 = slice front 4 4 :=
    slice_of_append rest (by omega)
  have type : slice (front ++ rest) 8 4 = slice front 8 4 :=
    slice_of_append rest (by omega)
  rw [noteParts, namesz, descsz, type, noteParts, NoteParts.mk.injEq]
  refine ⟨rfl, rfl, rfl, ?_, ?_⟩
  · change slice _ _ (noteParts front).namesz = _
    exact slice_of_append rest (by omega)
  · change
      slice _ (nhdrSize + pad4 (noteParts front).namesz)
        (noteParts front).descsz = _
    exact slice_of_append rest (by omega)

theorem notesOf_append
    {front : List UInt8} (closed : Closed front) (rest : List UInt8) :
    notesOf (front ++ rest) = notesOf front ++ notesOf rest := by
  induction closed with
  | nil => rw [notesOf_nil, List.nil_append, List.nil_append]
  | @note front fits _ inductionHypothesis =>
      have forward := (noteParts front).size_pos
      rw [nhdrSize] at forward
      have positive : 0 < (front ++ rest).length := by
        rw [List.length_append]
        omega
      have frontPositive : 0 < front.length := by omega
      rw [notesOf_of_pos positive, noteParts_append fits,
        List.drop_append_of_le_length fits, inductionHypothesis,
        notesOf_of_pos frontPositive, List.cons_append]

/-- Whole notes end where the next one begins. -/
theorem sum_size_of_closed {data : List UInt8} (closed : Closed data) :
    ((notesOf data).map NoteParts.size).sum = data.length := by
  induction closed with
  | nil =>
      rw [notesOf_nil]
      rfl
  | @note data fits _ inductionHypothesis =>
      have forward := (noteParts data).size_pos
      rw [nhdrSize] at forward
      rw [List.length_drop] at inductionHypothesis
      rw [notesOf_of_pos (by omega), List.map_cons, List.sum_cons,
        inductionHypothesis]
      omega

/-- A single note. -/
theorem closed_of_size
    {data : List UInt8} (size : (noteParts data).size = data.length) :
    Closed data ∧ notesOf data = [noteParts data] := by
  have forward := (noteParts data).size_pos
  rw [nhdrSize] at forward
  have rest : data.drop (noteParts data).size = [] :=
    List.drop_eq_nil_of_le (by omega)
  constructor
  · apply Closed.note (by omega)
    rw [rest]
    exact Closed.nil
  · rw [notesOf_of_pos (by omega), rest, notesOf_nil]

/-! ## The notes before the one that is found -/

section Found

variable {notes : Buffer}

/-- A note in the buffer, as far as its header goes. -/
theorem noteParts_slice {nhdr count : Nat} (header : nhdrSize ≤ count)
    (inside : nhdr + count ≤ notes.bytes.length) :
    (noteParts (slice notes.bytes nhdr count)).namesz = nameszAt notes nhdr ∧
      nhdr + (noteParts (slice notes.bytes nhdr count)).size =
        nextNote notes nhdr := by
  rw [nhdrSize] at header
  have namesz :
      (noteParts (slice notes.bytes nhdr count)).namesz =
        nameszAt notes nhdr := by
    change littleDecode (slice (slice _ _ _) 0 4) = _
    rw [slice_slice _ (by omega), nameszAt, Buffer.read_eq_slice (by omega)]
    rfl
  have descsz :
      (noteParts (slice notes.bytes nhdr count)).descsz =
        descszAt notes nhdr := by
    change littleDecode (slice (slice _ _ _) 4 4) = _
    rw [slice_slice _ (by omega), descszAt, Buffer.read_eq_slice (by omega)]
  refine ⟨namesz, ?_⟩
  rw [NoteParts.size, namesz, descsz, nextNote, Nat.add_assoc]

/-- The loop comes to the note it finds through whole notes. -/
theorem closed_of_found {nhdr x : Nat} {found : Option Nat}
    (last : lastVmcoreinfo notes nhdr found = some x) :
    found = some x ∨
      nhdr ≤ x ∧ Closed (slice notes.bytes nhdr (x - nhdr)) := by
  rw [lastVmcoreinfo] at last
  split at last
  · exact Or.inl last
  · next notEnded =>
      rw [endNotes, decide_eq_true_iff] at notEnded
      have forward := lt_nextNote notes nhdr
      have smaller :
          notes.bytes.length - nextNote notes nhdr <
            notes.bytes.length - nhdr := by
        rw [nhdrSize] at forward
        omega
      have inside := lastVmcoreinfo_eq_some last
      rcases closed_of_found last with here | ⟨later, closed⟩
      · split at here
        · cases here
          rw [Nat.sub_self, slice_zero]
          exact Or.inr ⟨Nat.le_refl _, Closed.nil⟩
        · exact Or.inl here
      · by_cases early : found = some x
        · exact Or.inl early
        have within : x < notes.bytes.length := by
          rcases inside with here | ⟨_, within⟩
          · split at here
            · cases here
              omega
            · exact absurd here early
          · exact within
        have reach : nhdr + (x - nhdr) ≤ notes.bytes.length := by omega
        obtain ⟨_, next⟩ := noteParts_slice (by omega) reach
        have rest :
            (slice notes.bytes nhdr (x - nhdr)).drop
                (noteParts (slice notes.bytes nhdr (x - nhdr))).size =
              slice notes.bytes (nextNote notes nhdr)
                (x - nextNote notes nhdr) := by
          have count :
              x - nhdr -
                  (noteParts (slice notes.bytes nhdr (x - nhdr))).size =
                x - nextNote notes nhdr := by
            omega
          rw [drop_slice, next, count]
        refine Or.inr ⟨by omega, Closed.note ?_ ?_⟩
        · rw [slice_length_of_le (by omega)]
          omega
        · rw [rest]
          exact closed
termination_by notes.bytes.length - nhdr

end Found

/-! ## The new note -/

/-- The new note is the old one with the new descriptor. -/
theorem noteParts_newNote
    {se : SavedElfdata} {newdesc : List UInt8}
    (short : newdesc.length < 2 ^ 32)
    (whole : nextNote se.notes se.viNote ≤ se.notes.bytes.length) :
    noteParts (newNote se newdesc) =
      { noteParts
          (slice se.notes.bytes se.viNote
            (nextNote se.notes se.viNote - se.viNote)) with
        descsz := newdesc.length
        desc := newdesc } := by
  have size : nhdrSize = 12 := rfl
  have ends : nextNote se.notes se.viNote =
      se.viNote + nhdrSize +
        (pad4 (nameszAt se.notes se.viNote) +
          pad4 (descszAt se.notes se.viNote)) := rfl
  have namePad := le_pad4 (nameszAt se.notes se.viNote)
  have reach :
      se.viNote + (nextNote se.notes se.viNote - se.viNote) ≤
        se.notes.bytes.length := by
    omega
  obtain ⟨oldNamesz, _⟩ := noteParts_slice (by omega) reach
  have namesz :
      littleDecode (slice (newNote se newdesc) 0 4) =
        nameszAt se.notes se.viNote := by
    rw [newNote_namesz]
    rfl
  have descsz :
      littleDecode (slice (newNote se newdesc) 4 4) = newdesc.length := by
    rw [newNote_descsz, littleDecode_littleEncode]
    exact Nat.mod_eq_of_lt short
  have part {pos count : Nat} (behind : 8 ≤ pos)
      (within : pos + count ≤ nhdrSize + pad4 (nameszAt se.notes se.viNote)) :
      slice (newNote se newdesc) pos count =
        slice
          (slice se.notes.bytes se.viNote
            (nextNote se.notes se.viNote - se.viNote)) pos count := by
    have name := newNote_name se newdesc
    rw [Buffer.read_eq_slice (by omega)] at name
    have inName := congrArg (slice · (pos - 8) count) name
    rw [slice_slice _ (by omega), slice_slice _ (by omega),
      Nat.add_sub_cancel' behind, Nat.add_assoc,
      Nat.add_sub_cancel' behind] at inName
    rw [inName, slice_slice _ (by omega)]
  have desc :
      slice (newNote se newdesc)
          (nhdrSize + pad4 (nameszAt se.notes se.viNote)) newdesc.length =
        newdesc := by
    rw [slice, newNote_desc]
    exact List.take_left
  rw [noteParts, namesz, descsz, desc, NoteParts.mk.injEq]
  refine ⟨oldNamesz.symm, rfl, ?_, ?_, rfl⟩
  · exact congrArg littleDecode (part (by omega) (by omega))
  · rw [part (by omega) (by omega), ← oldNamesz]
    rfl

end KernelStuff.Editvmcoreinfo
