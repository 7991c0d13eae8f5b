import KernelStuff.Editbuildid.Search
import KernelStuff.Library.ElfNotes

/-!
# The walk over encoded notes

`scan` says what a walk over a sequence of notes should visit and find.  The
loop of `find_buildid` does that on the encoding of the notes exactly if
`Follows` holds: the sizes it steps over survive the conversion to `uint16_t`,
and nothing is taken for a build ID that is not one of an acceptable size.
-/

namespace KernelStuff.Editbuildid

open KernelStuff.Library

theorem pad4_eq (val : Nat) : pad4 val = align4 val := by
  rw [pad4, align4]
  split <;> omega

/-! ## Notes -/

/-- The name, up to the first NUL, is `"GNU"`. -/
def Named (note : ElfNote) : Prop :=
  note.name.takeWhile (· ≠ 0) = gnu

/-- A build ID. -/
def IsBuildid (note : ElfNote) : Prop :=
  Named note ∧ note.type = ntGnuBuildId

/-- A build ID that is not too large. -/
def Accepted (note : ElfNote) : Prop :=
  IsBuildid note ∧ note.desc.length ≤ maxBuildidSize

instance (note : ElfNote) : Decidable (Named note) :=
  inferInstanceAs (Decidable (_ = _))

instance (note : ElfNote) : Decidable (IsBuildid note) :=
  inferInstanceAs (Decidable (_ ∧ _))

instance (note : ElfNote) : Decidable (Accepted note) :=
  inferInstanceAs (Decidable (_ ∧ _))

/-- The location and text of a descriptor, for a note that starts at `start` in
an area at `offset`. -/
def located (offset start : Nat) (note : ElfNote) : BuildidInfo where
  dataOffset := offset + start + (nhdrSize + align4 note.name.length)
  bytesSize := note.desc.length
  hex := some (toHex note.desc)

/-- The notes that are to be visited, and the first accepted build ID. -/
def scan (offset : Nat) : Nat → List ElfNote → List Nat × NoteExit
  | _, [] => ([], .notFound)
  | start, note :: rest =>
      if Accepted note then ([start], .found (located offset start note))
      else
        (start :: (scan offset (start + note.size) rest).1,
          (scan offset (start + note.size) rest).2)

section Format

variable (host : Endian) (info : ElfInfo) (offset : Nat) (data : Buffer)

/-- What the code gets right about the notes from `start` on. -/
def Follows : Nat → List ElfNote → Prop
  | _, [] => True
  | start, note :: rest =>
      note.name.length < 2 ^ 16 ∧
        (Accepted note ∨
          isBuildid host info data start = false ∧
            note.desc.length < 2 ^ 16 ∧ Follows (start + note.size) rest)

/-- The notes the loop visits. -/
def visited (fuel nhdr : Nat) : List Nat :=
  (trail (noteStep host info offset data) fuel nhdr).filter fun nhdr =>
    !endNotes data.bytes.length nhdr

variable {host info offset data}

theorem align4_uint16_le (n : Nat) : align4 (uint16 n) ≤ align4 n := by
  rw [align4, align4, uint16]
  omega

theorem align4_uint16_lt {n : Nat} (wide : 2 ^ 16 ≤ n) :
    align4 (uint16 n) < align4 n := by
  rw [align4, align4, uint16]
  omega

theorem uint16_of_lt {n : Nat} (narrow : n < 2 ^ 16) : uint16 n = n :=
  Nat.mod_eq_of_lt narrow

/-! ## Reading an encoded note -/

section Fields

variable {start : Nat} {note : ElfNote}
  (reads : ReadsNote info.endian data.bytes start note)

include reads

theorem field_eq {field : Member} {k : Nat}
    (at_eq : field.offset info.bits = k) (within : k + 4 ≤ 12) :
    getfield32 host info data start field =
      info.endian.decode (slice data.bytes (start + k) 4) := by
  have fits := reads.header_le
  rw [getfield32, getfield_eq, at_eq, Buffer.read_eq_slice (by omega)]

theorem nameszAt_eq :
    nameszAt host info data start = note.name.length := by
  rw [nameszAt, field_eq reads (k := 0) (by cases info.bits <;> rfl) (by omega)]
  exact reads.namesz_eq

theorem descszAt_eq :
    descszAt host info data start = note.desc.length := by
  rw [descszAt, field_eq reads (k := 4) (by cases info.bits <;> rfl) (by omega)]
  exact reads.descsz_eq

theorem typeAt_eq : typeAt host info data start = note.type := by
  rw [typeAt, field_eq reads (k := 8) (by cases info.bits <;> rfl) (by omega)]
  exact reads.type_eq

theorem desc_read_eq :
    data.read (start + (12 + align4 note.name.length)) note.desc.length =
      note.desc := by
  by_cases isNil : note.desc = []
  · rw [isNil]
    rfl
  · rw [Buffer.read_eq_slice]
    · exact reads.desc_eq
    · have length := congrArg List.length reads.desc_eq
      have positive := List.length_pos_of_ne_nil isNil
      rw [slice_length] at length
      omega

/-- An accepted build ID with a short name is found where it is. -/
theorem noteStep_of_accepted
    (here : isBuildid host info data start = true)
    (small : note.desc.length ≤ maxBuildidSize)
    (narrow : note.name.length < 2 ^ 16)
    (bounded : offset + (start + (12 + align4 note.name.length)) < 2 ^ 64) :
    noteStep host info offset data start =
      .error (.found (located offset start note)) := by
  have inside : start < data.bytes.length := by
    have fits := reads.header_le
    omega
  have sum :
      start + nhdrSize + align4 note.name.length =
        start + (12 + align4 note.name.length) := by
    rw [nhdrSize]
    omega
  have noOverflow :
      (offset + (start + (12 + align4 note.name.length))) % 2 ^ 64 =
        offset + start + (nhdrSize + align4 note.name.length) := by
    rw [Nat.mod_eq_of_lt bounded, nhdrSize]
    omega
  rw [noteStep_of_found inside here (by
    rw [descszAt_eq reads]
    exact small)]
  rw [descszAt_eq reads, nameszAt_eq reads, noteDesc, pad4_eq,
    uint16_of_lt narrow, sum, noOverflow, desc_read_eq reads, located]

/-- A note with small sizes is passed by rightly. -/
theorem noteStep_of_passed
    (other : isBuildid host info data start = false)
    (nameNarrow : note.name.length < 2 ^ 16)
    (descNarrow : note.desc.length < 2 ^ 16) :
    noteStep host info offset data start = .ok (start + note.size) := by
  have inside : start < data.bytes.length := by
    have fits := reads.header_le
    omega
  have next :
      start + nhdrSize + align4 note.name.length +
        align4 note.desc.length = start + note.size := by
    rw [ElfNote.size, nhdrSize]
    omega
  rw [noteStep_of_other inside other, nameszAt_eq reads, descszAt_eq reads,
    nextNote, pad4_eq, pad4_eq, uint16_of_lt nameNarrow,
    uint16_of_lt descNarrow, next]

end Fields

section Encoded

variable {start : Nat} {note : ElfNote} {rest : List UInt8}
  (holds : HoldsNote info.endian data.bytes start note rest)

include holds

/-- The memory behind the header is the name, with zeros after it. -/
theorem nameAt_eq {i : Nat} (within : i < align4 note.name.length) :
    nameAt data start i = note.name.getD i 0 := by
  have fits := holds.end_le
  rw [ElfNote.size] at fits
  have here : data.bytes[start + 12 + i]? = (padded note.name)[i]? := by
    rw [← holds.name_eq, getElem?_slice, if_pos within]
  have present : start + 12 + i < data.bytes.length := by omega
  rw [nameAt, nhdrSize, Buffer.byte, List.getD_eq_getElem?_getD,
    ← getD_padded note.name i, List.getD_eq_getElem?_getD, here]
  have inside : i < (padded note.name).length := by
    rw [padded_length]
    exact within
  rw [List.getElem?_eq_getElem inside]
  rfl

/-- A name that is not empty is compared as it should be. -/
theorem isBuildid_iff (named : note.name ≠ []) :
    isBuildid host info data start = true ↔ IsBuildid note := by
  have room : 4 ≤ align4 note.name.length := by
    have positive := List.length_pos_of_ne_nil named
    rw [align4]
    omega
  rw [isBuildid, Bool.and_eq_true, beq_iff_eq, typeAt_eq holds.reads, IsBuildid]
  apply and_congr_left
  intro _
  have same :
      strcmpEq gnu (nameAt data start) =
        strcmpEq gnu fun i => note.name.getD i 0 := by
    apply strcmpEq_congr
    intro i within
    have small : i ≤ 3 := within
    exact nameAt_eq holds (by omega)
  rw [same]
  exact strcmpEq_getD (by decide) note.name

end Encoded

/-! ## The walk -/

theorem visited_of_end (fuel : Nat) {nhdr : Nat}
    (ended : data.bytes.length ≤ nhdr) :
    visited host info offset data fuel nhdr = [] := by
  cases fuel with
  | zero => rfl
  | succ fuel =>
      rw [visited, trail, noteStep_of_end ended, List.filter_cons, endNotes,
        decide_eq_true ended]
      rfl

theorem visited_of_ok {fuel nhdr next : Nat}
    (step : noteStep host info offset data nhdr = .ok next) :
    visited host info offset data (fuel + 1) nhdr =
      nhdr :: visited host info offset data fuel next := by
  have inside := (noteStep_ok step).1
  rw [visited, trail, step, List.filter_cons, endNotes,
    decide_eq_false (by omega)]
  rfl

theorem visited_of_error {fuel nhdr : Nat} {exit : NoteExit}
    (inside : nhdr < data.bytes.length)
    (stops : noteStep host info offset data nhdr = .error exit) :
    visited host info offset data (fuel + 1) nhdr = [nhdr] := by
  rw [visited, trail, stops, List.filter_cons, endNotes,
    decide_eq_false (by omega)]
  rfl

theorem visited_inside
    (host : Endian) (info : ElfInfo) (offset : Nat) {fuel nhdr : Nat}
    (enough : 0 < fuel) (inside : nhdr < data.bytes.length) :
    ∃ others,
      visited host info offset data fuel nhdr = nhdr :: others := by
  obtain ⟨less, fuelEq⟩ := Nat.exists_eq_succ_of_ne_zero (Nat.ne_of_gt enough)
  rw [fuelEq]
  cases step : noteStep host info offset data nhdr with
  | ok next => exact ⟨_, visited_of_ok step⟩
  | error exit => exact ⟨_, visited_of_error inside step⟩

/-- The walk from `nhdr` visits what it should and ends as it should. -/
def Walks (host : Endian) (info : ElfInfo) (offset : Nat) (data : Buffer)
    (fuel start : Nat) (notes : List ElfNote) : Prop :=
  visited host info offset data fuel start = (scan offset start notes).1 ∧
    evaluate (noteStep host info offset data) fuel start =
      some (scan offset start notes).2

theorem scan_visits (offset start : Nat) (note : ElfNote)
    (rest : List ElfNote) :
    ∃ others, (scan offset start (note :: rest)).1 = start :: others := by
  rw [scan]
  split
  · exact ⟨[], rfl⟩
  · exact ⟨_, rfl⟩

section Step

variable {start fuel : Nat} {note : ElfNote} {rest : List ElfNote}
  (holds : HoldsNote info.endian data.bytes start note
    (ElfNote.encodeAll info.endian rest))

include holds

/-- An accepted build ID is found; it is located rightly if its name is short
enough. -/
theorem walks_accepted_iff (accepted : Accepted note)
    (bounded : offset + data.bytes.length < 2 ^ 64) :
    Walks host info offset data (fuel + 1) start (note :: rest) ↔
      note.name.length < 2 ^ 16 := by
  have fits := holds.end_le
  have positive := note.size_pos
  have inside : start < data.bytes.length := by omega
  have named : note.name ≠ [] := by
    intro isNil
    have isGnu := accepted.1.1
    rw [Named, isNil] at isGnu
    cases isGnu
  have here : isBuildid host info data start = true :=
    (isBuildid_iff holds named).mpr accepted.1
  have bound : align4 note.name.length ≤ note.size := by
    rw [ElfNote.size]
    omega
  constructor
  · rintro ⟨_, sameExit⟩
    have stops :
        noteStep host info offset data start = .error _ :=
      noteStep_of_found inside here (by
        rw [descszAt_eq holds.reads]
        exact accepted.2)
    rw [evaluate, stops, scan, if_pos accepted, descszAt_eq holds.reads,
      nameszAt_eq holds.reads, noteDesc, pad4_eq] at sameExit
    by_contra wide
    have narrows := align4_uint16_le note.name.length
    have differs := align4_uint16_lt (Nat.le_of_not_lt wide)
    have sameOffset :=
      congrArg BuildidInfo.dataOffset
        (NoteExit.found.inj (Option.some.inj sameExit))
    change (offset + (start + nhdrSize + align4 (uint16 _))) % 2 ^ 64 =
      offset + start + (nhdrSize + align4 _) at sameOffset
    rw [nhdrSize, Nat.mod_eq_of_lt (by omega)] at sameOffset
    omega
  · intro narrow
    have stops :
        noteStep host info offset data start =
          .error (.found (located offset start note)) :=
      noteStep_of_accepted holds.reads here accepted.2 narrow (by
        rw [ElfNote.size] at fits
        omega)
    rw [Walks, visited_of_error inside stops, evaluate, stops, scan,
      if_pos accepted]
    exact ⟨rfl, rfl⟩

/-- What is taken for a build ID without being one, or is too large, is not
passed by. -/
theorem not_walks_of_mistaken (rejected : ¬ Accepted note)
    (mistaken : isBuildid host info data start = true) :
    ¬ Walks host info offset data (fuel + 1) start (note :: rest) := by
  have fits := holds.end_le
  have positive := note.size_pos
  have inside : start < data.bytes.length := by omega
  rintro ⟨visits, ends⟩
  rw [scan, if_neg rejected] at visits ends
  by_cases large : maxBuildidSize < descszAt host info data start
  · exact
      not_halts_of_fixed (noteStep_of_large inside mistaken large)
        (halts_of_evaluate ends)
  · have stops :
        noteStep host info offset data start = .error _ :=
      noteStep_of_found inside mistaken (Nat.le_of_not_lt large)
    rw [visited_of_error inside stops] at visits
    rw [evaluate, stops] at ends
    cases rest with
    | nil => cases ends
    | cons second others =>
        obtain ⟨more, shape⟩ :=
          scan_visits offset (start + note.size) second others
        rw [shape] at visits
        cases visits

/-- A note that is passed by is passed by rightly if its sizes are small
enough. -/
theorem walks_other_iff (rejected : ¬ Accepted note)
    (other : isBuildid host info data start = false) (enough : 0 < fuel) :
    Walks host info offset data (fuel + 1) start (note :: rest) ↔
      note.name.length < 2 ^ 16 ∧ note.desc.length < 2 ^ 16 ∧
        Walks host info offset data fuel (start + note.size) rest := by
  have fits := holds.end_le
  have positive := note.size_pos
  have inside : start < data.bytes.length := by omega
  by_cases narrow : note.name.length < 2 ^ 16 ∧ note.desc.length < 2 ^ 16
  · have step :
        noteStep host info offset data start = .ok (start + note.size) :=
      noteStep_of_passed holds.reads other narrow.1 narrow.2
    rw [Walks, visited_of_ok step, evaluate, step, scan, if_neg rejected,
      List.cons.injEq]
    simp only [true_and]
    exact ⟨fun walks => ⟨narrow.1, narrow.2, walks⟩, fun all => all.2.2⟩
  · constructor
    · rintro ⟨visits, _⟩
      have step :
          noteStep host info offset data start = .ok _ :=
        noteStep_of_other inside other
      rw [nameszAt_eq holds.reads, descszAt_eq holds.reads, nextNote, pad4_eq,
        pad4_eq] at step
      rw [visited_of_ok step, scan, if_neg rejected] at visits
      have later := (List.cons.inj visits).2
      have nameLe := align4_uint16_le note.name.length
      have descLe := align4_uint16_le note.desc.length
      -- The loop looks for a header within the note it should have passed by.
      have short :
          start + nhdrSize + align4 (uint16 note.name.length) +
            align4 (uint16 note.desc.length) < start + note.size := by
        rw [ElfNote.size, nhdrSize]
        rcases Decidable.not_and_iff_not_or_not.mp narrow with
          wideName | wideDesc
        · have differs := align4_uint16_lt (Nat.le_of_not_lt wideName)
          omega
        · have differs := align4_uint16_lt (Nat.le_of_not_lt wideDesc)
          omega
      obtain ⟨visitedLater, visitedEq⟩ :=
        visited_inside host info offset enough
          (Nat.lt_of_lt_of_le short fits)
      rw [visitedEq] at later
      cases rest with
      | nil => cases later
      | cons second others =>
          obtain ⟨more, shape⟩ :=
            scan_visits offset (start + note.size) second others
          rw [shape] at later
          have same := (List.cons.inj later).1
          omega
    · rintro ⟨nameNarrow, descNarrow, _⟩
      exact absurd ⟨nameNarrow, descNarrow⟩ narrow

end Step

/-- The loop does on the encoding of the notes what it should exactly if `Follows`
holds. -/
theorem walks_iff (bounded : offset + data.bytes.length < 2 ^ 64) :
    ∀ (notes : List ElfNote) {start fuel : Nat},
      start ≤ data.bytes.length →
        data.bytes.drop start = ElfNote.encodeAll info.endian notes →
          data.bytes.length - start < fuel →
            (Walks host info offset data fuel start notes ↔
              Follows host info data start notes)
  | [], start, fuel, startLe, holds, enough => by
      have ended : data.bytes.length ≤ start :=
        List.drop_eq_nil_iff.mp holds
      obtain ⟨less, fuelEq⟩ :=
        Nat.exists_eq_succ_of_ne_zero (Nat.ne_of_gt (Nat.zero_lt_of_lt enough))
      rw [Walks, visited_of_end _ ended, fuelEq, evaluate,
        noteStep_of_end ended]
      exact ⟨fun _ => trivial, fun _ => ⟨rfl, rfl⟩⟩
  | note :: rest, start, fuel, startLe, holds, enough => by
      rw [ElfNote.encodeAll_cons] at holds
      have noteHolds : HoldsNote info.endian data.bytes start note _ := holds
      have fits := noteHolds.end_le
      have positive := note.size_pos
      have others := noteHolds.drop_eq
      obtain ⟨less, fuelEq⟩ :=
        Nat.exists_eq_succ_of_ne_zero (Nat.ne_of_gt (Nat.zero_lt_of_lt enough))
      have enoughLess :
          data.bytes.length - (start + note.size) < less := by
        omega
      rw [fuelEq, Follows]
      by_cases accepted : Accepted note
      · rw [walks_accepted_iff noteHolds accepted bounded]
        exact ⟨fun narrow => ⟨narrow, Or.inl accepted⟩, And.left⟩
      · cases here : isBuildid host info data start with
        | true =>
            constructor
            · intro walks
              exact absurd walks (not_walks_of_mistaken noteHolds accepted here)
            · rintro ⟨_, isAccepted | ⟨impossible, _⟩⟩
              · exact absurd isAccepted accepted
              · cases impossible
        | false =>
            rw [walks_other_iff noteHolds accepted here (by omega),
              walks_iff bounded rest fits others enoughLess]
            constructor
            · rintro ⟨nameNarrow, descNarrow, follows⟩
              exact ⟨nameNarrow, Or.inr ⟨rfl, descNarrow, follows⟩⟩
            · rintro ⟨nameNarrow, isAccepted | ⟨_, descNarrow, follows⟩⟩
              · exact absurd isAccepted accepted
              · exact ⟨nameNarrow, descNarrow, follows⟩

end Format

/-! ## The function -/

section Function

/-- What `find_buildid` returns when the walk has ended. -/
def NoteExit.value (out : BuildidInfo) : NoteExit → Int × BuildidInfo
  | .found info => (1, info)
  | .notFound => (0, out)

/-- Where the headers and names of the visited notes are in the file. -/
def headerOffsets (offset : Nat) (starts : List Nat) : List Nat :=
  starts.flatMap fun start => [offset + start, offset + start + nhdrSize]

variable {env : Env} {info : ElfInfo} {offset : Nat} {notes : List ElfNote}
  {out : BuildidInfo} {process : Process}

/-- `find_buildid` on an area that is the encoding of the notes examines them in
order and returns the first accepted build ID. -/
def FindsFirst (env : Env) (info : ElfInfo) (offset : Nat)
    (notes : List ElfNote) (out : BuildidInfo) (process : Process) : Prop :=
  ∃ last,
    findBuildid env info offset (ElfNote.encodeAll info.endian notes).length
        out process = .ok ((scan offset 0 notes).2.value out) last ∧
      last.inspected.map Prod.fst =
        process.inspected.map Prod.fst ++
          headerOffsets offset (scan offset 0 notes).1

theorem headerOffsets_injective (offset : Nat) :
    Function.Injective (headerOffsets offset)
  | [], [], _ => rfl
  | [], second :: others, same => by cases same
  | first :: rest, [], same => by cases same
  | first :: rest, second :: others, same => by
      simp only [headerOffsets, List.flatMap_cons, List.cons_append,
        List.nil_append, List.cons.injEq, Nat.add_left_cancel_iff] at same
      rw [same.1, headerOffsets_injective offset same.2.2]

theorem inspectedNotes_map (data : Buffer) :
    (inspectedNotes env info offset data).map Prod.fst =
      headerOffsets offset
        (visited env.host info offset data (data.bytes.length + 1) 0) := by
  rw [inspectedNotes, headerOffsets, List.map_flatMap]
  rfl

theorem areaResult_eq_ok_iff {last : Process} {exit : NoteExit}
    {outcome : Option NoteExit} :
    areaResult out process outcome = .ok (exit.value out) last ↔
      outcome = some exit ∧ process = last := by
  rcases outcome with _ | ⟨found⟩ | _ <;> rcases exit with other | _ <;>
    simp [areaResult, NoteExit.value]

theorem findsFirst_iff_walks
    (completes : env.Completes) (reachable : offset < 2 ^ 63)
    (area :
      slice process.file.bytes offset
          (ElfNote.encodeAll info.endian notes).length =
        ElfNote.encodeAll info.endian notes) :
    FindsFirst env info offset notes out process ↔
      (ElfNote.encodeAll info.endian notes).length < 2 ^ 31 ∧
        Walks env.host info offset
          (process.buffer env offset
            (ElfNote.encodeAll info.endian notes).length)
          ((ElfNote.encodeAll info.endian notes).length + 1) 0 notes := by
  by_cases small : (ElfNote.encodeAll info.endian notes).length < 2 ^ 31
  · have fetchable :
        Fetchable process.file.bytes offset
          (ElfNote.encodeAll info.endian notes).length :=
      ⟨reachable, congrArg List.length area, small⟩
    have headers :
        (inspectedNotes env info offset
          (process.buffer env offset
            (ElfNote.encodeAll info.endian notes).length)).map Prod.fst =
          headerOffsets offset
            (visited env.host info offset
              (process.buffer env offset
                (ElfNote.encodeAll info.endian notes).length)
              ((ElfNote.encodeAll info.endian notes).length + 1) 0) := by
      rw [inspectedNotes_map]
      exact congrArg
        (fun len => headerOffsets offset
          (visited env.host info offset _ (len + 1) 0))
        (congrArg List.length area)
    rw [FindsFirst, findBuildid_of_fetchable completes info out fetchable,
      Walks]
    constructor
    · rintro ⟨last, ends, examined⟩
      obtain ⟨exit, same⟩ := areaResult_eq_ok_iff.mp ends
      rw [← same, Process.scanned, List.map_append, headers] at examined
      exact
        ⟨small,
          headerOffsets_injective offset (List.append_cancel_left examined),
          exit⟩
    · rintro ⟨_, visits, ends⟩
      refine ⟨_, areaResult_eq_ok_iff.mpr ⟨ends, rfl⟩, ?_⟩
      rw [Process.scanned, List.map_append, headers, visits]
  · have unreadable :
        ¬ Fetchable process.file.bytes offset
          (ElfNote.encodeAll info.endian notes).length :=
      fun fetchable => small fetchable.len_lt
    rw [FindsFirst, findBuildid_of_not_fetchable completes info out unreadable]
    constructor
    · rintro ⟨last, ends, _⟩
      cases exit : (scan offset 0 notes).2 with
      | found found =>
          rw [exit] at ends
          cases ends
      | notFound =>
          rw [exit] at ends
          cases ends
    · rintro ⟨less, _⟩
      exact absurd less small

/-- The walk over a fetched area. -/
theorem walks_area_iff
    (reachable : offset < 2 ^ 63)
    (area :
      slice process.file.bytes offset
          (ElfNote.encodeAll info.endian notes).length =
        ElfNote.encodeAll info.endian notes)
    (small : (ElfNote.encodeAll info.endian notes).length < 2 ^ 31) :
    Walks env.host info offset
        (process.buffer env offset
          (ElfNote.encodeAll info.endian notes).length)
        ((ElfNote.encodeAll info.endian notes).length + 1) 0 notes ↔
      Follows env.host info
        (process.buffer env offset
          (ElfNote.encodeAll info.endian notes).length) 0 notes := by
  have length :
      (process.buffer env offset
        (ElfNote.encodeAll info.endian notes).length).bytes.length =
          (ElfNote.encodeAll info.endian notes).length :=
    congrArg List.length area
  apply walks_iff _ notes (Nat.zero_le _)
  · exact area
  · omega
  · omega

/-- On every area that is the encoding of notes, `find_buildid` examines them at
their offsets and finds the first build ID of acceptable size exactly if the
size of the area fits into an `int` and the walk is not misled. -/
theorem find_buildid_format_iff
    (completes : env.Completes) (reachable : offset < 2 ^ 63)
    (area :
      slice process.file.bytes offset
          (ElfNote.encodeAll info.endian notes).length =
        ElfNote.encodeAll info.endian notes) :
    FindsFirst env info offset notes out process ↔
      (ElfNote.encodeAll info.endian notes).length < 2 ^ 31 ∧
        Follows env.host info
          (process.buffer env offset
            (ElfNote.encodeAll info.endian notes).length) 0 notes := by
  rw [findsFirst_iff_walks completes reachable area]
  exact and_congr_right fun small => walks_area_iff reachable area small

end Function

/-! ## Examples -/

/-- A build ID of two bytes. -/
def shortBuildid : ElfNote where
  name := [71, 78, 85, 0]
  desc := [0xab, 0xcd]
  type := 3
  name_lt := by decide
  desc_lt := by decide
  type_lt := by decide

theorem wideName_lt : [(65 : UInt8), 0].length < 2 ^ 32 := by
  decide

theorem wideType_lt : 0 < 2 ^ 32 := by
  decide

/-- A note with a descriptor of 64 KiB. -/
def wideNote : ElfNote where
  name := [65, 0]
  desc := List.replicate 65536 0
  type := 0
  name_lt := wideName_lt
  desc_lt := by
    rw [List.length_replicate]
    decide
  type_lt := wideType_lt

/-- A note whose name and descriptor are both padded. -/
def paddedNote : ElfNote where
  name := [65, 0]
  desc := [1, 2, 3, 4, 5]
  type := 1
  name_lt := wideName_lt
  desc_lt := by decide
  type_lt := by decide

/-- Behind two notes of other kinds the build ID is found. -/
theorem find_buildid_format_short :
    FindsFirst quietEnv ⟨.big, .elf32⟩ 0 [paddedNote, paddedNote, shortBuildid]
      .zero
      (Process.initial
        (ElfNote.encodeAll .big [paddedNote, paddedNote, shortBuildid])) :=
  (find_buildid_format_iff quietEnv_completes (by decide)
    (by decide +kernel)).mpr
      ⟨by decide +kernel,
        by decide, Or.inr ⟨by decide +kernel, by decide,
          by decide, Or.inr ⟨by decide +kernel, by decide,
            by decide, Or.inl (by decide)⟩⟩⟩

theorem wideNote_desc : wideNote.desc.length = 65536 :=
  List.length_replicate

theorem not_follows_wideNote (host : Endian) (info : ElfInfo) (data : Buffer) :
    ¬ Follows host info data 0 [wideNote, shortBuildid] := by
  rw [Follows, wideNote_desc]
  rintro ⟨_, accepted | ⟨_, narrow, _⟩⟩
  · exact absurd accepted.1.2 (by decide)
  · exact absurd narrow (by decide)

/-- Behind a note with a descriptor of 64 KiB it is not. -/
theorem find_buildid_misses_behind_wide :
    ¬ FindsFirst quietEnv ⟨.big, .elf32⟩ 0 [wideNote, shortBuildid] .zero
      (Process.initial
        (ElfNote.encodeAll .big [wideNote, shortBuildid])) := by
  intro finds
  obtain ⟨small, walks⟩ :=
    (findsFirst_iff_walks quietEnv_completes (by decide)
      (by exact slice_all _)).mp finds
  have follows :=
    (walks_area_iff (by decide) (by exact slice_all _) small).mp walks
  exact not_follows_wideNote _ _ _ follows

end KernelStuff.Editbuildid
