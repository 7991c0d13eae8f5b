import KernelStuff.Editbuildid.Declared

/-!
# Four encodings of one description

A description is a list of program headers and one of section headers, with the
notes of the note entries.  It can be written down in either class and byte
order; `getfield` and `getaddr` are there so that this makes no difference.
-/

namespace KernelStuff.Editbuildid

open KernelStuff.Library

/-- The file is an encoding of the description, and all offsets and sizes in it
are below `2 ^ 31`. -/
structure Encodes (bytes : List UInt8) (info : ElfInfo)
    (phdrs shdrs : List Entry) : Prop where
  elf : WellFormedElf bytes info phdrs shdrs
  phdrs_small : phdrs ≠ [] →
    tableOffset bytes info phdrTable < 2 ^ 31 ∧
      tableSize bytes info phdrTable < 2 ^ 31
  shdrs_small : shdrs ≠ [] →
    tableOffset bytes info shdrTable < 2 ^ 31 ∧
      tableSize bytes info shdrTable < 2 ^ 31
  areas_small : ∀ entry ∈ phdrs ++ shdrs,
    entry.offset < 2 ^ 31 ∧ entry.size < 2 ^ 31

/-- `find_build_id` gives one and the same return value and `struct buildid_info`
for the files of all classes and byte orders, on every platform. -/
def SameAnswer (files : ElfInfo → List UInt8) : Prop :=
  ∀ out, ∃ answer, ∀ info env, env.Completes → ∀ process,
    process.file = ⟨files info, 0⟩ →
      ∃ last, findBuildId env out process = .ok answer last

section Tables

variable {bytes : List UInt8} {info : ElfInfo} {table : Table} {least : Nat}
  {entries : List Entry}

/-- Whole areas with small numbers can be fetched. -/
theorem areasInReach_of_small :
    ∀ {areas : List Entry},
      (∀ entry ∈ areas, entry.type = table.wanted ∧
        Noted bytes info table entry ∧ entry.offset < 2 ^ 31 ∧
        entry.size < 2 ^ 31) →
      AreasInReach bytes areas
  | [], _ => trivial
  | entry :: rest, small => by
      obtain ⟨wanted, noted, offsetLt, sizeLt⟩ := small entry List.mem_cons_self
      refine ⟨⟨by omega, (noted wanted).1, sizeLt⟩, Or.inr ?_⟩
      exact
        areasInReach_of_small fun other member =>
          small other (List.mem_cons_of_mem _ member)

theorem noteEntries_small
    (holds : HoldsTable bytes info table least entries)
    (small : ∀ entry ∈ entries, entry.offset < 2 ^ 31 ∧ entry.size < 2 ^ 31) :
    ∀ entry ∈ noteEntries table entries, entry.type = table.wanted ∧
      Noted bytes info table entry ∧ entry.offset < 2 ^ 31 ∧
      entry.size < 2 ^ 31 := by
  intro entry member
  obtain ⟨inTable, wanted⟩ := List.mem_filter.mp member
  obtain ⟨i, inside, here⟩ := List.getElem_of_mem inTable
  have held :=
    holds.entry i entry (by rw [List.getElem?_eq_getElem inside, here])
  exact ⟨eq_of_beq wanted, held.area, small entry inTable⟩

theorem fetchable_of_small
    (holds : HoldsTable bytes info table least entries)
    (some : entries ≠ [])
    (small : tableOffset bytes info table < 2 ^ 31 ∧
      tableSize bytes info table < 2 ^ 31) :
    Fetchable bytes (tableOffset bytes info table)
      (tableSize bytes info table) :=
  ⟨by omega, slice_length_of_le (holds.readable some), small.2⟩

/-- A table with a note entry, or without any entry, is in reach. -/
theorem tableInReach_of_small
    (holds : HoldsTable bytes info table least entries)
    (tableSmall : entries ≠ [] → tableOffset bytes info table < 2 ^ 31 ∧
      tableSize bytes info table < 2 ^ 31)
    (small : ∀ entry ∈ entries, entry.offset < 2 ^ 31 ∧ entry.size < 2 ^ 31)
    (noted : entries = [] ∨ noteEntries table entries ≠ []) :
    TableInReach bytes info table entries := by
  by_cases none : entries = []
  · exact Or.inl none
  · exact
      Or.inr
        ⟨fetchable_of_small holds none (tableSmall none),
          noted.resolve_left none,
          areasInReach_of_small (noteEntries_small holds small)⟩

/-- A table without note entries leaves `rv` as it was. -/
theorem tableResult_of_not_noted
    (holds : HoldsTable bytes info table least entries)
    (some : entries ≠ [])
    (small : tableOffset bytes info table < 2 ^ 31 ∧
      tableSize bytes info table < 2 ^ 31)
    (none : noteEntries table entries = []) (rv : Int) (out : BuildidInfo) :
    tableResult bytes info table rv out entries = (rv, out) := by
  rw [tableResult, if_neg some, if_pos (fetchable_of_small holds some small),
    none]
  rfl

end Tables

section Answers

variable {files : ElfInfo → List UInt8} {phdrs shdrs : List Entry}

/-- Every encoding is as long as the larger file header, and the search of the
section headers, if there is one, assigns `rv`. -/
def Answered (files : ElfInfo → List UInt8) (phdrs shdrs : List Entry) : Prop :=
  (∀ info, ehdrSize ≤ (files info).length) ∧
    ((declaredIn phdrTable phdrs).isSome = true ∨ shdrs = [] ∨
      noteEntries shdrTable shdrs ≠ [])

theorem Encodes.fileResult_eq
    {bytes : List UInt8} {info : ElfInfo}
    (encodes : Encodes bytes info phdrs shdrs)
    (noted : phdrs = [] ∨ noteEntries phdrTable phdrs ≠ [])
    (env : Env) (out : BuildidInfo) :
    fileResult env bytes info phdrs shdrs out =
      if (declaredIn phdrTable phdrs).isSome = true ∨ shdrs = [] ∨
          noteEntries shdrTable shdrs ≠ [] then
        declared phdrs shdrs out
      else (env.shdrRv, out) := by
  have phdrsSmall := fun entry member =>
    encodes.areas_small entry (List.mem_append_left shdrs member)
  have shdrsSmall := fun entry member =>
    encodes.areas_small entry (List.mem_append_right phdrs member)
  have phdrReach : TableInReach bytes info phdrTable phdrs :=
    tableInReach_of_small encodes.elf.phdrs encodes.phdrs_small phdrsSmall noted
  split
  · next assigned =>
      apply fileResult_of_inReach env out phdrReach
      rcases assigned with found | assigned
      · exact Or.inl found
      · exact
          Or.inr
            (tableInReach_of_small encodes.elf.shdrs encodes.shdrs_small
              shdrsSmall assigned)
  · next unassigned =>
      simp only [not_or, not_not] at unassigned
      obtain ⟨undeclared, some, none⟩ := unassigned
      rw [fileResult, tableResult_of_inReach phdrReach,
        Option.not_isSome_iff_eq_none.mp undeclared]
      exact
        tableResult_of_not_noted encodes.elf.shdrs some
          (encodes.shdrs_small some) none env.shdrRv out

/-- An environment with the given content of `rv` in `find_buildid_shdr`. -/
def leftEnv (rv : Int) : Env :=
  { quietEnv with shdrRv := rv }

theorem leftEnv_completes (rv : Int) : (leftEnv rv).Completes := fun _ => rfl

/-- For every description whose program headers, if there are any, declare a
note segment, and all four encodings of it: they give the same answer exactly if
each is as long as the larger file header and the search of the section headers
comes to a note section, unless a segment holds a build ID or there is no section
header. -/
theorem same_answer_iff
    (encodes : ∀ info, Encodes (files info) info phdrs shdrs)
    (noted : phdrs = [] ∨ noteEntries phdrTable phdrs ≠ []) :
    SameAnswer files ↔ Answered files phdrs shdrs := by
  have value (info : ElfInfo) (env : Env) (out : BuildidInfo) :=
    (encodes info).fileResult_eq noted env out
  constructor
  · intro same
    obtain ⟨answer, answers⟩ := same .zero
    have full (endian : Endian) :
        ehdrSize ≤ (files ⟨endian, .elf64⟩).length :=
      (encodes ⟨endian, .elf64⟩).elf.header_le
    have wide (rv : Int) :
        answer =
          fileResult (leftEnv rv) (files ⟨.little, .elf64⟩) ⟨.little, .elf64⟩
            phdrs shdrs .zero := by
      obtain ⟨last, run⟩ :=
        answers ⟨.little, .elf64⟩ (leftEnv rv) (leftEnv_completes rv)
          (Process.initial (files ⟨.little, .elf64⟩)) rfl
      obtain ⟨other, result⟩ :=
        findBuildId_eq (leftEnv_completes rv) (encodes ⟨.little, .elf64⟩).elf
          (full .little) .zero
          (rfl : (Process.initial (files ⟨.little, .elf64⟩)).file = _)
      rw [run] at result
      injection result
    refine ⟨fun info => ?_, ?_⟩
    · by_contra short
      obtain ⟨last, run⟩ :=
        answers info (leftEnv 0) (leftEnv_completes 0)
          (Process.initial (files info)) rfl
      obtain ⟨other, refused⟩ :=
        findBuildId_of_short (leftEnv_completes 0) (Nat.lt_of_not_le short)
          .zero (rfl : (Process.initial (files info)).file = _)
      rw [run] at refused
      injection refused with failed
      have found := wide 0
      rw [value, failed] at found
      split at found
      · have known := declared_value phdrs shdrs .zero
        rw [← found] at known
        rcases known with impossible | impossible <;> cases impossible
      · cases found
    · by_contra unassigned
      have first := wide 0
      have second := wide 1
      rw [value, if_neg unassigned] at first second
      rw [first] at second
      cases second
  · rintro ⟨long, assigned⟩ out
    refine ⟨declared phdrs shdrs out, ?_⟩
    intro info env completes process start
    obtain ⟨last, result⟩ :=
      findBuildId_eq completes (encodes info).elf (long info) out start
    rw [value, if_pos assigned] at result
    exact ⟨last, result⟩

end Answers

/-! ## Examples -/

section Examples

variable (info : ElfInfo)

def encode16 (n : Nat) : List UInt8 := info.endian.encode 2 n
def encode32 (n : Nat) : List UInt8 := info.endian.encode 4 n
def encodeAddr (n : Nat) : List UInt8 :=
  info.endian.encode info.bits.addrWidth n

/-- A file header with the numbers of entries; the program headers follow at
once, and the section headers after them. -/
def encodeEhdr (phnum shnum : Nat) : List UInt8 :=
  [0x7f, 69, 76, 70, info.bits.code, dataCode info.endian, 1, 0,
    0, 0, 0, 0, 0, 0, 0, 0] ++
  encode16 info 2 ++ encode16 info 62 ++ encode32 info 1 ++ encodeAddr info 0 ++
  encodeAddr info (headerSize info.bits) ++
  encodeAddr info (headerSize info.bits + phnum * phdrSize info.bits) ++
  encode32 info 0 ++ encode16 info (headerSize info.bits) ++
  encode16 info (phdrSize info.bits) ++ encode16 info phnum ++
  encode16 info (shdrSize info.bits) ++ encode16 info shnum ++
  encode16 info 0

def encodePhdr (entry : Entry) : List UInt8 :=
  encode32 info entry.type ++
  (match info.bits with
    | .elf64 => encode32 info 0
    | .elf32 => []) ++
  encodeAddr info entry.offset ++ encodeAddr info 0 ++ encodeAddr info 0 ++
  encodeAddr info entry.size ++ encodeAddr info entry.size ++
  (match info.bits with
    | .elf64 => []
    | .elf32 => encode32 info 0) ++
  encodeAddr info 4

def encodeShdr (entry : Entry) : List UInt8 :=
  encode32 info 0 ++ encode32 info entry.type ++ encodeAddr info 0 ++
  encodeAddr info 0 ++ encodeAddr info entry.offset ++
  encodeAddr info entry.size ++ encode32 info 0 ++ encode32 info 0 ++
  encodeAddr info 4 ++ encodeAddr info 0

/-- One segment of notes, at the same offset in all encodings. -/
def segmentFile : List UInt8 :=
  let headers := encodeEhdr info 1 0 ++ encodePhdr info (segmentEntry 4)
  headers ++ List.replicate (120 - headers.length) 0 ++
    segmentNote.header info.endian ++ segmentNote.name ++ segmentNote.desc

/-- No program header and no section header. -/
def bareFile : List UInt8 := encodeEhdr info 0 0

/-- A section that holds no notes. -/
def plainSection : Entry where
  type := 1
  offset := 0
  size := 0
  notes := []

/-- No program header and a section header of another type. -/
def sectionFile : List UInt8 :=
  encodeEhdr info 0 1 ++ encodeShdr info plainSection

variable {info} in
theorem holdsTable_nil
    {bytes : List UInt8} {table : Table} (least : Nat)
    (numberEq : tableNumber bytes info table = 0) :
    HoldsTable bytes info table least [] where
  number_eq := numberEq
  entsize_ge := fun some => absurd rfl some
  readable := fun some => absurd rfl some
  entry := by
    intro i entry here
    cases here

variable {info} in
theorem holdsTable_single
    {bytes : List UInt8} {table : Table} {least : Nat} {entry : Entry}
    (numberEq : tableNumber bytes info table = 1)
    (entsizeGe : least ≤ tableEntsize bytes info table)
    (readable :
      tableOffset bytes info table + tableSize bytes info table ≤ bytes.length)
    (held : HoldsEntry bytes info table (tableOffset bytes info table) entry) :
    HoldsTable bytes info table least [entry] where
  number_eq := numberEq
  entsize_ge := fun _ => entsizeGe
  readable := fun _ => readable
  entry := by
    intro i other here
    obtain ⟨inside, same⟩ := List.getElem?_eq_some_iff.mp here
    have first : i = 0 := Nat.lt_one_iff.mp inside
    subst first
    obtain rfl : entry = other := same
    rw [Nat.zero_mul]
    exact held

set_option maxRecDepth 2048 in
theorem segmentFile_noted :
    Noted (segmentFile info) info phdrTable (segmentEntry 4) := by
  intro _
  refine ⟨?_, ⟨⟨⟨?_, ?_, ?_, ?_, ?_⟩, ?_⟩, ?_⟩, ?_⟩
  iterate 7 rcases info with ⟨_ | _, _ | _⟩ <;> decide
  · change (slice (segmentFile info) 120 17).length ≤ 0 + segmentNote.size
    rcases info with ⟨_ | _, _ | _⟩ <;> decide
  · intro note member
    cases List.mem_singleton.mp member
    exact ⟨by decide, by decide, by decide, fun _ => by decide⟩

set_option maxRecDepth 2048 in
theorem segmentFile_encodes :
    Encodes (segmentFile info) info [segmentEntry 4] [] where
  elf := by
    refine
      ⟨?_, ?_, ?_, ?_,
        holdsTable_single ?_ ?_ ?_ ⟨?_, ?_, ?_, segmentFile_noted info⟩,
        holdsTable_nil _ ?_⟩
    iterate 11 rcases info with ⟨_ | _, _ | _⟩ <;> decide
  phdrs_small := by
    intro _
    rcases info with ⟨_ | _, _ | _⟩ <;> decide
  shdrs_small := fun some => absurd rfl some
  areas_small := by decide

set_option maxRecDepth 2048 in
theorem bareFile_encodes : Encodes (bareFile info) info [] [] where
  elf := by
    refine ⟨?_, ?_, ?_, ?_, holdsTable_nil _ ?_, holdsTable_nil _ ?_⟩
    iterate 6 rcases info with ⟨_ | _, _ | _⟩ <;> decide
  phdrs_small := fun some => absurd rfl some
  shdrs_small := fun some => absurd rfl some
  areas_small := by decide

set_option maxRecDepth 2048 in
theorem sectionFile_encodes :
    Encodes (sectionFile info) info [] [plainSection] where
  elf := by
    refine
      ⟨?_, ?_, ?_, ?_, holdsTable_nil _ ?_,
        holdsTable_single ?_ ?_ ?_ ⟨?_, ?_, ?_, fun wanted => by cases wanted⟩⟩
    iterate 11 rcases info with ⟨_ | _, _ | _⟩ <;> decide
  phdrs_small := fun some => absurd rfl some
  shdrs_small := by
    intro _
    rcases info with ⟨_ | _, _ | _⟩ <;> decide
  areas_small := by decide

end Examples

/-- The build ID of the segment is found in all four encodings. -/
theorem same_answer_segment : SameAnswer segmentFile :=
  (same_answer_iff segmentFile_encodes
      (Or.inr (List.cons_ne_nil _ _))).mpr
    ⟨by
      rintro ⟨_ | _, _ | _⟩ <;> decide +kernel,
      Or.inl (by decide +kernel)⟩

/-- A run on one of the files gives the return value of the answer. -/
theorem answer_value
    {files : ElfInfo → List UInt8} {answer : Int × BuildidInfo}
    (answers : ∀ info env, env.Completes → ∀ process,
      process.file = ⟨files info, 0⟩ →
        ∃ last, findBuildId env .zero process = .ok answer last)
    (info : ElfInfo) (rv : Int) {value : Int}
    (returns :
      returnsWith (fun result _ => decide (result.1 = value))
        (findBuildId (leftEnv rv) .zero (Process.initial (files info))) =
          true) :
    answer.1 = value := by
  obtain ⟨last, run⟩ :=
    answers info (leftEnv rv) (leftEnv_completes rv)
      (Process.initial (files info)) rfl
  rw [run] at returns
  exact of_decide_eq_true returns

/-- A header of 52 bytes is refused and one of 64 bytes is not; and without a
note section the answer is what `rv` happens to hold. -/
theorem answers_differ :
    (∀ info, Encodes (bareFile info) info [] []) ∧ ¬ SameAnswer bareFile ∧
      (∀ info, Encodes (sectionFile info) info [] [plainSection]) ∧
        ¬ SameAnswer sectionFile := by
  refine ⟨bareFile_encodes, ?_, sectionFile_encodes, ?_⟩
  · intro same
    obtain ⟨answer, answers⟩ := same .zero
    have narrow : answer.1 = -1 :=
      answer_value answers ⟨.little, .elf32⟩ 0 (by decide +kernel)
    have wide : answer.1 = 0 :=
      answer_value answers ⟨.little, .elf64⟩ 0 (by decide +kernel)
    rw [narrow] at wide
    cases wide
  · intro same
    obtain ⟨answer, answers⟩ := same .zero
    have first : answer.1 = 0 :=
      answer_value answers ⟨.little, .elf64⟩ 0 (by decide +kernel)
    have second : answer.1 = 1 :=
      answer_value answers ⟨.little, .elf64⟩ 1 (by decide +kernel)
    rw [first] at second
    cases second

end KernelStuff.Editbuildid
