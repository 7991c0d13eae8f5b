import KernelStuff.Editvmcoreinfo.Loading

/-!
# What the scan of the notes looks at

The loop stops when a header would begin beyond the notes, but does not ask
whether the rest of a note is there.
-/

namespace KernelStuff.Editvmcoreinfo

open KernelStuff.Library

/-! ## One round -/

section Round

variable (notes : Buffer) (nhdr : Nat)

/-- The bytes a round looks at: the name as far as it is compared, the type if
the name is equal, and both sizes. -/
def inspected : List Nat :=
  (List.range (strcmpReads vmcoreinfo (nameAt notes nhdr))).map
      (nhdr + nhdrSize + ·) ++
    ((if strcmpEq vmcoreinfo (nameAt notes nhdr) then
        List.range' (nhdr + 8) 4
      else []) ++
      (List.range' nhdr 4 ++ List.range' (nhdr + 4) 4))

/-- The headers the loop comes to. -/
inductive Visits : Nat → Prop where
  | first : endNotes notes.bytes.length 0 = false → Visits 0
  | next {nhdr : Nat} : Visits nhdr →
      endNotes notes.bytes.length (nextNote notes nhdr) = false →
      Visits (nextNote notes nhdr)

variable {notes nhdr}

theorem Visits.inside (visits : Visits notes nhdr) :
    nhdr < notes.bytes.length := by
  cases visits with
  | first more | next _ more =>
      rw [endNotes, decide_eq_false_iff_not] at more
      omega

/-- There is no header within a note. -/
theorem Visits.next_le (visits : Visits notes nhdr) {later : Nat}
    (other : Visits notes later) (behind : nhdr < later) :
    nextNote notes nhdr ≤ later := by
  induction later using Nat.strongRecOn generalizing nhdr with
  | ind later inductionHypothesis =>
      cases other with
      | first => exact absurd behind (Nat.not_lt_zero nhdr)
      | @next before reached _ =>
          have forward := lt_nextNote notes before
          rw [nhdrSize] at forward
          rcases Nat.lt_trichotomy nhdr before with less | same | more
          · have inFront :=
              inductionHypothesis before (by omega) visits reached less
            omega
          · rw [same]
          · have within := inductionHypothesis nhdr behind reached visits more
            omega

/-- The last header the loop comes to that is one of a VMCOREINFO note. -/
structure IsLast (notes : Buffer) (nhdr : Nat) : Prop where
  visits : Visits notes nhdr
  found : isVmcoreinfo notes nhdr = true
  last : ∀ other, Visits notes other → isVmcoreinfo notes other = true →
    other ≤ nhdr

/-- From a header on the loop comes to the last one, if it knows the last one in
front of it. -/
theorem isLast_of_lastVmcoreinfo {found : Option Nat} {x : Nat}
    (here : endNotes notes.bytes.length nhdr = false → Visits notes nhdr)
    (sound : ∀ y, found = some y →
      Visits notes y ∧ isVmcoreinfo notes y = true)
    (before : ∀ other, Visits notes other → isVmcoreinfo notes other = true →
      other < nhdr → ∃ y, found = some y ∧ other ≤ y)
    (ends : lastVmcoreinfo notes nhdr found = some x) : IsLast notes x := by
  induction nhdr, found using lastVmcoreinfo.induct notes with
  | case1 nhdr found ended =>
      rw [lastVmcoreinfo, if_pos ended] at ends
      rw [endNotes, decide_eq_true_iff] at ended
      obtain ⟨visits, isNote⟩ := sound x ends
      refine ⟨visits, isNote, fun other reached otherIs => ?_⟩
      have inside := reached.inside
      obtain ⟨y, known, upTo⟩ := before other reached otherIs (by omega)
      rw [ends] at known
      cases known
      exact upTo
  | case2 nhdr found more inductionHypothesis =>
      have visits := here (Bool.eq_false_of_not_eq_true more)
      rw [lastVmcoreinfo, if_neg more] at ends
      refine inductionHypothesis visits.next ?_ ?_ ends
      · intro y known
        split at known
        · next isNote =>
            cases known
            exact ⟨visits, isNote⟩
        · exact sound y known
      · intro other reached otherIs inFront
        rcases Nat.lt_trichotomy other nhdr with less | same | behind
        · obtain ⟨y, known, upTo⟩ := before other reached otherIs less
          split
          · exact ⟨nhdr, rfl, Nat.le_of_lt less⟩
          · exact ⟨y, known, upTo⟩
        · rw [same] at otherIs
          exact ⟨nhdr, if_pos otherIs, Nat.le_of_eq same⟩
        · have within := visits.next_le reached behind
          omega

/-- The round depends on these bytes only. -/
theorem round_congr {other : Buffer}
    (same : ∀ i ∈ inspected notes nhdr, other.byte i = notes.byte i) :
    isVmcoreinfo other nhdr = isVmcoreinfo notes nhdr ∧
      nextNote other nhdr = nextNote notes nhdr := by
  rw [inspected, List.forall_mem_append, List.forall_mem_append,
    List.forall_mem_append] at same
  obtain ⟨names, types, nameszs, descszs⟩ := same
  have field : ∀ pos, (∀ i ∈ List.range' pos 4, other.byte i = notes.byte i) →
      other.read pos 4 = notes.read pos 4 := by
    intro pos same
    apply Buffer.read_congr
    intro i above below
    exact same i (List.mem_range'_1.mpr ⟨above, below⟩)
  have sameName : ∀ i, i < strcmpReads vmcoreinfo (nameAt notes nhdr) →
      nameAt other nhdr i = nameAt notes nhdr i :=
    fun i within => names _ (List.mem_map_of_mem (List.mem_range.mpr within))
  have name := strcmp_congr_reads sameName
  refine ⟨?_, ?_⟩
  · rw [isVmcoreinfo, isVmcoreinfo, name.1]
    cases equal : strcmpEq vmcoreinfo (nameAt notes nhdr) with
    | false => rw [Bool.false_and, Bool.false_and]
    | true =>
        rw [if_pos equal] at types
        rw [typeAt, typeAt, field _ types]
  · rw [nextNote, nextNote, nameszAt, nameszAt, descszAt, descszAt,
      field _ nameszs, field _ descszs]

/-- The last byte a round looks at is one of the name. -/
theorem inspected_lt_iff {len : Nat} :
    (∀ i ∈ inspected notes nhdr, i < len) ↔
      nhdr + nhdrSize + strcmpReads vmcoreinfo (nameAt notes nhdr) ≤ len := by
  have some := strcmpReads_pos vmcoreinfo (nameAt notes nhdr)
  rw [nhdrSize]
  constructor
  · intro all
    have last :
        nhdr + nhdrSize + (strcmpReads vmcoreinfo (nameAt notes nhdr) - 1) ∈
          inspected notes nhdr := by
      rw [inspected]
      apply List.mem_append_left
      exact List.mem_map_of_mem (List.mem_range.mpr (by omega))
    have within := all _ last
    rw [nhdrSize] at within
    omega
  · intro long i member
    rw [inspected, nhdrSize] at member
    rcases List.mem_append.mp member with inName | inHeader
    · obtain ⟨j, inRange, rfl⟩ := List.mem_map.mp inName
      have below := List.mem_range.mp inRange
      omega
    · rcases List.mem_append.mp inHeader with inType | inSizes
      · split at inType
        · have bounds := List.mem_range'_1.mp inType
          omega
        · cases inType
      · rcases List.mem_append.mp inSizes with inSize | inSize
        · have bounds := List.mem_range'_1.mp inSize
          omega
        · have bounds := List.mem_range'_1.mp inSize
          omega

/-- A round looks at the notes only, unless they end with `"VMCOREINFO"` or a
beginning of it in the place of the name. -/
theorem inspected_inside_iff :
    (∀ i ∈ inspected notes nhdr, i < notes.bytes.length) ↔
      ¬ notes.bytes.drop (nhdr + nhdrSize) <+: vmcoreinfo := by
  have some := strcmpReads_pos vmcoreinfo (nameAt notes nhdr)
  rw [inspected_lt_iff, ← strcmpReads_le_iff notes vmcoreinfo]
  change _ ↔ strcmpReads vmcoreinfo (nameAt notes nhdr) ≤ _
  omega

end Round

/-! ## The scan and the note it selects -/

/-- `savesz` in `shift_data`, for a file of this length. -/
def saveSize (se : SavedElfdata) (length : Nat) : Nat :=
  (length + 2 ^ 64 - (se.notesStart + se.viNoteEnd) % 2 ^ 64) % 2 ^ 64

/-- Every byte that was looked at is one of the notes, the selected note lies in
the notes with what `shift_data` copies of it, and what follows it is a part of
every file that has the notes. -/
structure StaysInside (se : SavedElfdata) : Prop where
  inspected : ∀ nhdr, Visits se.notes nhdr →
    ∀ i ∈ inspected se.notes nhdr, i < se.notesLen
  viNoteEnd_eq :
    se.viNoteStart + nhdrSize + pad4 (nameszAt se.notes se.viNote) +
      pad4 (descszAt se.notes se.viNote) = se.viNoteEnd
  viNoteEnd_le : se.viNoteEnd ≤ se.notesLen
  copied :
    se.viNote + (nhdrSize + pad4 (nameszAt se.notes se.viNote)) ≤ se.notesLen
  saved : ∀ length, length < 2 ^ 63 →
    se.notesStart + se.notesLen ≤ length →
      se.notesStart + se.viNoteEnd + saveSize se length = length

/-- No header is followed, up to the end of the notes, by `"VMCOREINFO"` or a
beginning of it (or nothing), and the last VMCOREINFO note is there with its
padding. -/
structure WholeNotes (se : SavedElfdata) : Prop where
  names : ∀ nhdr, Visits se.notes nhdr →
    ¬ se.notes.bytes.drop (nhdr + nhdrSize) <+: vmcoreinfo
  selected : ∀ nhdr, IsLast se.notes nhdr →
    nextNote se.notes nhdr ≤ se.notes.bytes.length

/-- In every run that accepts the file, the scan stays inside of the notes if and
only if they are whole in this sense. -/
theorem scan_stays_inside_iff
    {env : Env} {bytes : List UInt8} {se : SavedElfdata} {last : Process}
    (run : readElfdata env (Process.initial bytes) = .ok (some se) last) :
    StaysInside se ↔ WholeNotes se := by
  have loads : Loads bytes env.beyond se := readElfdata_loads rfl run
  have length : se.notes.bytes.length = se.notesLen := by
    rw [loads.notes_eq]
    exact loads.notes_length
  have ends : se.viNoteEnd = nextNote se.notes se.viNote := by
    rw [loads.viNoteEnd_eq, nextNote]
    omega
  have isLast : IsLast se.notes se.viNote := by
    apply isLast_of_lastVmcoreinfo Visits.first ?_ ?_ loads.viNote_eq
    · intro y known
      cases known
    · intro other _ _ inFront
      exact absurd inFront (Nat.not_lt_zero other)
  have startLt := loads.notesStart_lt
  have lenLt := loads.notesLen_lt
  constructor
  · intro inside
    refine ⟨?_, ?_⟩
    · intro nhdr visits
      rw [← inspected_inside_iff, length]
      exact inside.inspected nhdr visits
    · intro nhdr other
      have same : nhdr = se.viNote :=
        Nat.le_antisymm (isLast.last nhdr other.visits other.found)
          (other.last se.viNote isLast.visits isLast.found)
      rw [same, ← ends, length]
      exact inside.viNoteEnd_le
  · intro whole
    have within : se.viNoteEnd ≤ se.notesLen := by
      rw [ends, ← length]
      exact whole.selected se.viNote isLast
    refine ⟨?_, ?_, within, ?_, ?_⟩
    · intro nhdr visits
      rw [← length, inspected_inside_iff]
      exact whole.names nhdr visits
    · rw [loads.viNoteEnd_eq, loads.viNoteStart_eq]
      omega
    · rw [loads.viNoteEnd_eq] at within
      omega
    · intro fileLength small long
      rw [saveSize]
      omega

/-- With a segment of `filesz` bytes. -/
def coreOf (filesz : UInt8) : List UInt8 :=
  overwrite (exampleCore ++ [0]) 96 [filesz]

/-- The run accepts the file, with so many bytes of notes and a selected note
that ends there; the first note ends with it. -/
def readsNotes (len noteEnd : Nat) (found : Option SavedElfdata)
    (_ : Process) : Bool :=
  match found with
  | some se =>
      se.notesLen == len && se.notes.bytes.length == len &&
        se.viNoteEnd == noteEnd && nextNote se.notes 0 == noteEnd
  | none => false

theorem scan_stays_inside_iff_exampleCore :
    ∃ se last,
      readElfdata (quietEnv 2) (Process.initial (coreOf 28)) =
          .ok (some se) last ∧
        StaysInside se := by
  obtain ⟨found, last, run, accepted⟩ :
      ∃ found last,
        readElfdata (quietEnv 2) (Process.initial (coreOf 28)) =
            .ok found last ∧
          readsNotes 28 28 found last = true :=
    exists_of_returnsWith (by decide +kernel)
  cases found with
  | none => cases accepted
  | some se =>
      simp only [readsNotes, Bool.and_eq_true, beq_iff_eq] at accepted
      obtain ⟨⟨⟨-, length⟩, -⟩, next⟩ := accepted
      have only : ∀ nhdr, Visits se.notes nhdr → nhdr = 0 := by
        intro nhdr visits
        by_contra behind
        have inside := visits.inside
        have within :=
          (Visits.first (by rw [length]; rfl)).next_le visits
            (Nat.pos_of_ne_zero behind)
        omega
      refine ⟨se, last, run, (scan_stays_inside_iff run).mpr ⟨?_, ?_⟩⟩
      · intro nhdr visits beginning
        have short := beginning.length_le
        rw [only nhdr visits, List.length_drop, length] at short
        exact absurd short (by decide)
      · intro nhdr isLast
        rw [only nhdr isLast.visits, next, length]

/-- Without the padding of the descriptor the note ends beyond the notes; with
one byte behind it, the scan takes this for a header. -/
theorem scan_leaves_notes :
    (∃ se last,
      readElfdata (quietEnv 2) (Process.initial (coreOf 26)) =
          .ok (some se) last ∧
        se.notesLen = 26 ∧ se.viNoteEnd = 28 ∧ ¬ StaysInside se) ∧
      ∃ se last,
        readElfdata (quietEnv 2) (Process.initial (coreOf 29)) =
            .ok (some se) last ∧
          se.notesLen = 29 ∧ Visits se.notes 28 ∧ ¬ StaysInside se := by
  refine ⟨?_, ?_⟩
  · obtain ⟨found, last, run, accepted⟩ :
        ∃ found last,
          readElfdata (quietEnv 2) (Process.initial (coreOf 26)) =
              .ok found last ∧
            readsNotes 26 28 found last = true :=
      exists_of_returnsWith (by decide +kernel)
    cases found with
    | none => cases accepted
    | some se =>
        simp only [readsNotes, Bool.and_eq_true, beq_iff_eq] at accepted
        obtain ⟨⟨⟨len, -⟩, noteEnd⟩, -⟩ := accepted
        refine ⟨se, last, run, len, noteEnd, ?_⟩
        intro inside
        have within := inside.viNoteEnd_le
        omega
  · obtain ⟨found, last, run, accepted⟩ :
        ∃ found last,
          readElfdata (quietEnv 2) (Process.initial (coreOf 29)) =
              .ok found last ∧
            readsNotes 29 28 found last = true :=
      exists_of_returnsWith (by decide +kernel)
    cases found with
    | none => cases accepted
    | some se =>
        simp only [readsNotes, Bool.and_eq_true, beq_iff_eq] at accepted
        obtain ⟨⟨⟨len, area⟩, -⟩, next⟩ := accepted
        have first : Visits se.notes 0 := by
          apply Visits.first
          rw [endNotes, area]
          decide
        have second : Visits se.notes 28 := by
          rw [← next]
          apply Visits.next first
          rw [endNotes, area, next]
          decide
        refine ⟨se, last, run, len, second, ?_⟩
        intro inside
        have within := inspected_lt_iff.mp (inside.inspected 28 second)
        rw [nhdrSize] at within
        omega

end KernelStuff.Editvmcoreinfo
