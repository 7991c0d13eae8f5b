import KernelStuff.Editbuildid.Status

/-!
# Editing and printing a build ID

Two files that differ only in bytes the search has not looked at are searched in
the same way.  So after the bytes of the build ID have been replaced the search
comes back to them, and prints the new ones.
-/

namespace KernelStuff.Editbuildid

open KernelStuff.Library

/-! ## Files that differ in a range -/

/-- The position belongs to the range. -/
def Inside (range : Range) (i : Nat) : Prop :=
  range.1 ≤ i ∧ i < range.1 + range.2

/-- The ranges have no position in common. -/
def Clear (range other : Range) : Prop :=
  ∀ i, Inside other i → ¬ Inside range i

/-- The contents have the same length, and the same bytes outside the range. -/
structure DiffersIn (range : Range) (bytes other : List UInt8) : Prop where
  length_eq : other.length = bytes.length
  outside : ∀ i, ¬ Inside range i → other[i]? = bytes[i]?

section Differing

variable {range : Range} {bytes other : List UInt8}
  (differs : DiffersIn range bytes other)

include differs

theorem DiffersIn.slice_length_eq (pos count : Nat) :
    (slice other pos count).length = (slice bytes pos count).length := by
  rw [slice_length, slice_length, differs.length_eq]

theorem DiffersIn.slice_eq
    {pos count : Nat} (clear : Clear range (pos, count)) :
    slice other pos count = slice bytes pos count :=
  slice_congr fun i start stop => differs.outside i (clear i ⟨start, stop⟩)

theorem DiffersIn.fetchable_iff (offset len : Nat) :
    Fetchable other offset len ↔ Fetchable bytes offset len := by
  have lengths := differs.slice_length_eq offset len
  constructor
  · rintro ⟨offsetLt, lengthEq, lenLt⟩
    exact ⟨offsetLt, lengths.symm.trans lengthEq, lenLt⟩
  · rintro ⟨offsetLt, lengthEq, lenLt⟩
    exact ⟨offsetLt, lengths.trans lengthEq, lenLt⟩

/-- A byte of a fetched area that has not been replaced. -/
theorem DiffersIn.byte_eq
    (offset len : Nat) (beyond : Nat → UInt8) {i : Nat}
    (kept : ¬ Inside range (offset + i)) :
    (⟨slice other offset len, beyond⟩ : Buffer).byte i =
      (⟨slice bytes offset len, beyond⟩ : Buffer).byte i := by
  rw [Buffer.byte, Buffer.byte, List.getD_eq_getElem?_getD,
    List.getD_eq_getElem?_getD, getElem?_slice, getElem?_slice,
    differs.outside _ kept]

end Differing

/-! ## The walk -/

/-- Where the build ID is. -/
def BuildidInfo.place (info : BuildidInfo) : Range :=
  (info.dataOffset, info.bytesSize)

/-- How the walk ends, but for the text of the build ID. -/
def NoteExit.place : NoteExit → Option Range
  | .found info => some info.place
  | .notFound => none

section Walk

variable {host : Endian} {info : ElfInfo} {offset : Nat} {data other : Buffer}

/-- What the search looks at in a note. -/
def noteRanges (offset : Nat) (data : Buffer) (nhdr : Nat) : List Range :=
  [(offset + nhdr, nhdrSize),
    (offset + nhdr + nhdrSize, strcmpReads gnu (nameAt data nhdr))]

/-- The buffers have the same header and name, as far as that is looked at. -/
structure SameNote (data other : Buffer) (nhdr : Nat) : Prop where
  header : ∀ i, nhdr ≤ i → i < nhdr + nhdrSize → other.byte i = data.byte i
  name : ∀ i, i < strcmpReads gnu (nameAt data nhdr) →
    nameAt other nhdr i = nameAt data nhdr i

variable {nhdr : Nat} (same : SameNote data other nhdr)

include same

theorem SameNote.field_eq
    {field : Member} (within : field.offset info.bits + 4 ≤ nhdrSize) :
    getfield32 host info other nhdr field =
      getfield32 host info data nhdr field := by
  rw [getfield32, getfield_eq, getfield_eq]
  congr 1
  apply Buffer.read_congr
  intro i start stop
  exact same.header i (by omega) (by omega)

theorem SameNote.noteRanges_eq (offset : Nat) :
    noteRanges offset other nhdr = noteRanges offset data nhdr := by
  rw [noteRanges, noteRanges, (strcmp_congr_reads same.name).2]

/-- The loop does the same with the note. -/
theorem SameNote.noteStep_eq
    (length : other.bytes.length = data.bytes.length) :
    (noteStep host info offset other nhdr).mapError NoteExit.place =
      (noteStep host info offset data nhdr).mapError NoteExit.place := by
  have nameszEq : nameszAt host info other nhdr = nameszAt host info data nhdr :=
    same.field_eq (by cases info.bits <;> decide)
  have descszEq : descszAt host info other nhdr = descszAt host info data nhdr :=
    same.field_eq (by cases info.bits <;> decide)
  have typeEq : typeAt host info other nhdr = typeAt host info data nhdr :=
    same.field_eq (by cases info.bits <;> decide)
  have idEq : isBuildid host info other nhdr = isBuildid host info data nhdr := by
    rw [isBuildid, isBuildid, (strcmp_congr_reads same.name).1, typeEq]
  rw [noteStep, noteStep, length, nameszEq, descszEq, idEq]
  split
  · rfl
  · dsimp only
    split
    · split <;> rfl
    · rfl

end Walk

/-! ## The search -/

/-- The process with another file content. -/
def Process.on (process : Process) (bytes : List UInt8) : Process :=
  { process with file.bytes := bytes }

section Search

variable {env : Env} (completes : env.Completes) {range : Range}
  {bytes other : List UInt8} (differs : DiffersIn range bytes other)

include differs in
theorem Process.fetched_on (process : Process) (offset len : Nat)
    (sameBytes : process.file.bytes = bytes) :
    (process.on other).fetched offset len =
      (process.fetched offset len).on other := by
  rw [Process.fetched, Process.fetched]
  split
  · rfl
  · have lengths := differs.slice_length_eq offset len
    rw [← sameBytes] at lengths
    simp only [Process.on, lengths]

/-- The walk through an area whose notes are as before. -/
theorem walk_on
    (differs : DiffersIn range bytes other) (process : Process)
    (info : ElfInfo) {offset len : Nat}
    (sameBytes : process.file.bytes = bytes)
    (fetchable : Fetchable bytes offset len)
    (clear : ∀ inspected ∈
      inspectedNotes env info offset (process.buffer env offset len),
      Clear range inspected) :
    inspectedNotes env info offset ((process.on other).buffer env offset len) =
        inspectedNotes env info offset (process.buffer env offset len) ∧
      (evaluate
          (noteStep env.host info offset
            ((process.on other).buffer env offset len))
          (len + 1) 0).map NoteExit.place =
        (evaluate
          (noteStep env.host info offset (process.buffer env offset len))
          (len + 1) 0).map NoteExit.place := by
  have length : (process.buffer env offset len).bytes.length = len := by
    change (slice _ _ _).length = _
    rw [sameBytes]
    exact fetchable.length_eq
  have otherLength :
      ((process.on other).buffer env offset len).bytes.length = len :=
    ((differs.fetchable_iff offset len).mpr fetchable).length_eq
  have byteEq :
      ∀ i, ¬ Inside range (offset + i) →
        ((process.on other).buffer env offset len).byte i =
          (process.buffer env offset len).byte i := by
    intro i kept
    rw [Process.buffer, Process.buffer, sameBytes]
    exact differs.byte_eq offset len _ kept
  have sameNote :
      ∀ nhdr ∈ (trail
          (noteStep env.host info offset (process.buffer env offset len))
          (len + 1) 0).filter (fun nhdr => !endNotes len nhdr),
        SameNote (process.buffer env offset len)
          ((process.on other).buffer env offset len) nhdr := by
    intro nhdr member
    have looked :
        ∀ looked ∈ noteRanges offset (process.buffer env offset len) nhdr,
          Clear range looked := by
      intro looked looksAt
      apply clear
      rw [inspectedNotes, length]
      exact List.mem_flatMap.mpr ⟨nhdr, member, looksAt⟩
    have headerClear := looked _ List.mem_cons_self
    have nameClear :=
      looked _ (List.mem_cons_of_mem _ List.mem_cons_self)
    constructor
    · intro i start stop
      apply byteEq
      apply headerClear
      exact ⟨by dsimp only; omega, by dsimp only; omega⟩
    · intro i within
      apply byteEq
      apply nameClear
      exact ⟨by dsimp only; omega, by dsimp only; omega⟩
  have sameStep :
      ∀ nhdr ∈ trail
          (noteStep env.host info offset (process.buffer env offset len))
          (len + 1) 0,
        (noteStep env.host info offset
            ((process.on other).buffer env offset len) nhdr).mapError
            NoteExit.place =
          (noteStep env.host info offset (process.buffer env offset len)
            nhdr).mapError NoteExit.place := by
    intro nhdr member
    by_cases ended : len ≤ nhdr
    · rw [noteStep_of_end (by omega), noteStep_of_end (by omega)]
    · have kept : (!endNotes len nhdr) = true := by
        rw [endNotes, decide_eq_false ended]
        rfl
      exact
        (sameNote nhdr (List.mem_filter.mpr ⟨member, kept⟩)).noteStep_eq
          (otherLength.trans length.symm)
  obtain ⟨sameTrail, sameExit⟩ := trail_congr NoteExit.place sameStep
  refine ⟨?_, sameExit⟩
  rw [inspectedNotes, inspectedNotes, otherLength, length, sameTrail]
  apply List.flatMap_congr
  intro nhdr member
  exact (sameNote nhdr member).noteRanges_eq offset

/-- Run on the other file, a search that has looked at nothing in the range goes
the same way. -/
def Mirrors (range : Range) (bytes other : List UInt8)
    (program otherProgram : Program (Int × BuildidInfo)) : Prop :=
  ∀ process rv found last,
    process.file.bytes = bytes →
      program process = .ok (rv, found) last →
        (∀ looked ∈ last.inspected, Clear range looked) →
          ∃ otherFound,
            otherProgram (process.on other) =
                .ok (rv, otherFound) (last.on other) ∧
              otherFound.place = found.place

omit completes differs in
theorem mirrors_pure
    (rv : Int) {out otherOut : BuildidInfo}
    (same : otherOut.place = out.place) :
    Mirrors range bytes other (pure (rv, out)) (pure (rv, otherOut)) := by
  intro process result found last _ run _
  cases run
  exact ⟨otherOut, rfl, same⟩

omit completes differs in
/-- A search that goes on after 0. -/
theorem Mirrors.bind
    {first otherFirst : Program (Int × BuildidInfo)}
    {rest otherRest : Int × BuildidInfo → Program (Int × BuildidInfo)}
    (mirrors : Mirrors range bytes other first otherFirst)
    (firstLooks : Keeps Looks first)
    (restLooks : ∀ result, Keeps Looks (rest result))
    (later : ∀ rv out otherOut, otherOut.place = out.place →
      Mirrors range bytes other (rest (rv, out)) (otherRest (rv, otherOut))) :
    Mirrors range bytes other (first >>= rest) (otherFirst >>= otherRest) := by
  intro process rv found last sameBytes run clear
  obtain ⟨⟨firstRv, out⟩, middle, firstRun, restRun⟩ := bind_eq_ok run
  have grows := ((restLooks (firstRv, out)).ok restRun).inspected
  obtain ⟨otherOut, otherRun, samePlace⟩ :=
    mirrors process firstRv out middle sameBytes firstRun fun looked member =>
      clear looked (grows.subset member)
  rw [bind_of_ok otherRun]
  exact
    later firstRv out otherOut samePlace middle rv found last
      ((firstLooks.ok firstRun).bytes_eq.trans sameBytes) restRun clear

include completes differs

theorem findBuildid_mirrors
    (info : ElfInfo) (offset len : Nat) {out otherOut : BuildidInfo}
    (same : otherOut.place = out.place) :
    Mirrors range bytes other (findBuildid env info offset len out)
      (findBuildid env info offset len otherOut) := by
  intro process rv found last sameBytes run clear
  by_cases fetchable : Fetchable bytes offset len
  · rw [findBuildid_of_fetchable completes info out
      (by rw [sameBytes]; exact fetchable)] at run
    have otherFetchable : Fetchable (process.on other).file.bytes offset len :=
      (differs.fetchable_iff offset len).mpr fetchable
    rw [findBuildid_of_fetchable completes info otherOut otherFetchable]
    have walked : last = process.scanned env info offset len := by
      cases ending :
          evaluate
            (noteStep env.host info offset (process.buffer env offset len))
            (len + 1) 0 with
      | none =>
          rw [ending] at run
          cases run
      | some exit =>
          rw [ending] at run
          cases exit <;> cases run <;> rfl
    subst walked
    obtain ⟨sameNotes, samePlaces⟩ :=
      walk_on differs process info sameBytes fetchable fun looked member =>
        clear looked (List.mem_append_right _ member)
    have scannedOn :
        (process.on other).scanned env info offset len =
          (process.scanned env info offset len).on other := by
      rw [Process.scanned, Process.scanned,
        process.fetched_on differs offset len sameBytes, sameNotes]
      rfl
    rw [scannedOn]
    cases ending :
        evaluate
          (noteStep env.host info offset (process.buffer env offset len))
          (len + 1) 0 with
    | none =>
        rw [ending] at run
        cases run
    | some exit =>
        rw [ending] at run samePlaces
        obtain ⟨otherExit, otherEnding, samePlace⟩ :=
          Option.map_eq_some_iff.mp samePlaces
        rw [otherEnding]
        cases exit with
        | found info =>
            cases run
            cases otherExit with
            | found otherInfo =>
                exact ⟨otherInfo, rfl, Option.some.inj samePlace⟩
            | notFound => cases samePlace
        | notFound =>
            cases run
            cases otherExit with
            | found otherInfo => cases samePlace
            | notFound => exact ⟨otherOut, rfl, same⟩
  · have otherUnreadable :
        ¬ Fetchable (process.on other).file.bytes offset len :=
      fun otherFetchable =>
        fetchable ((differs.fetchable_iff offset len).mp otherFetchable)
    rw [findBuildid_of_not_fetchable completes info out
      (by rw [sameBytes]; exact fetchable)] at run
    rw [findBuildid_of_not_fetchable completes info otherOut otherUnreadable,
      process.fetched_on differs offset len sameBytes]
    cases run
    exact ⟨otherOut, rfl, same⟩

theorem searchNotes_mirrors
    (table : Table) (entries : Buffer) (info : ElfInfo)
    (number entsize start : Nat) (rv : Int) {out otherOut : BuildidInfo}
    (same : otherOut.place = out.place) :
    Mirrors range bytes other
      (searchNotes env table entries info number entsize start rv out)
      (searchNotes env table entries info number entsize start rv
        otherOut) := by
  cases found : findNotes env table entries info start number entsize with
  | none =>
      rw [searchNotes_of_none found, searchNotes_of_none found]
      exact mirrors_pure rv same
  | some entry =>
      obtain ⟨i, offset, size⟩ := entry
      have smaller : number - (i + 1) < number - start := by
        have bounds := findNotes_bounds found
        omega
      rw [searchNotes_of_some found, searchNotes_of_some found]
      apply Mirrors.bind
      · exact findBuildid_mirrors completes differs info offset size same
      · exact findBuildid_keeps env info offset size out
      · intro result
        apply Keeps.ite
        · exact keeps_pure Looks.refl result
        · exact searchNotes_keeps env table entries info number entsize _ _ _
      · intro rv out otherOut same
        dsimp only
        split
        · exact mirrors_pure rv same
        · exact
            searchNotes_mirrors table entries info number entsize (i + 1) rv
              same
termination_by number - start

/-- The search of a table that is not in the range. -/
theorem fetchedTable_mirrors
    (table : Table) (rv : Int) (info : ElfInfo)
    (offset size number entsize : Nat) {out otherOut : BuildidInfo}
    (same : otherOut.place = out.place) :
    Mirrors range bytes other
      (do
        let some entries ← fetchData env offset size | return (-1, out)
        inspect [(offset, size)]
        searchNotes env table entries info number entsize 0 rv out)
      (do
        let some entries ← fetchData env offset size | return (-1, otherOut)
        inspect [(offset, size)]
        searchNotes env table entries info number entsize 0 rv otherOut) := by
  intro process result found last sameBytes run clear
  have fetch := fetchData_of_completes completes offset size process
  have otherFetch :=
    fetchData_of_completes completes offset size (process.on other)
  have otherBytes : (process.on other).file.bytes = other := rfl
  rw [process.fetched_on differs offset size sameBytes, otherBytes]
    at otherFetch
  rw [sameBytes] at fetch
  by_cases fetchable : Fetchable bytes offset size
  · rw [if_pos fetchable] at fetch
    rw [if_pos ((differs.fetchable_iff offset size).mpr fetchable)]
      at otherFetch
    rw [bind_of_ok fetch] at run
    rw [bind_of_ok otherFetch]
    change (inspect _ >>= _) _ = _ at run
    change ∃ otherFound, (inspect _ >>= _) _ = _ ∧ _
    rw [bind_of_ok (inspect_eq _ _)] at run
    rw [bind_of_ok (inspect_eq _ _)]
    have grows :=
      ((searchNotes_keeps env table _ info number entsize 0 rv out).ok
        run).inspected
    have tableClear : Clear range (offset, size) := by
      apply clear
      apply grows.subset
      exact List.mem_append_right _ List.mem_cons_self
    rw [differs.slice_eq tableClear]
    exact
      searchNotes_mirrors completes differs table _ info number entsize 0 rv
        same
        { process.fetched offset size with
          inspected :=
            (process.fetched offset size).inspected ++ [(offset, size)] }
        result found last
        ((process.fetched_bytes offset size).trans sameBytes) run clear
  · rw [if_neg fetchable] at fetch
    rw [if_neg fun otherFetchable =>
      fetchable ((differs.fetchable_iff offset size).mp otherFetchable)]
      at otherFetch
    rw [bind_of_ok fetch] at run
    rw [bind_of_ok otherFetch]
    cases run
    exact ⟨otherOut, rfl, same⟩

theorem findBuildidTable_mirrors
    (table : Table) (rv : Int) (info : ElfInfo) (ehdr : Buffer)
    {out otherOut : BuildidInfo} (same : otherOut.place = out.place) :
    Mirrors range bytes other (findBuildidTable env table rv info ehdr out)
      (findBuildidTable env table rv info ehdr otherOut) := by
  rw [findBuildidTable, findBuildidTable]
  split
  · exact mirrors_pure 0 same
  · exact fetchedTable_mirrors completes differs table rv info _ _ _ _ same

omit completes differs in
theorem findBuildidTables_keeps
    (env : Env) (info : ElfInfo) (ehdr : Buffer) (out : BuildidInfo) :
    Keeps Looks
      (findBuildidPhdr env info ehdr out >>= fun result =>
        if result.1 ≠ 0 then pure result
        else findBuildidShdr env info ehdr result.2) := by
  apply Keeps.bind Looks.trans
    (findBuildidTable_keeps env phdrTable env.phdrRv info ehdr out)
  intro result
  apply Keeps.ite
  · exact keeps_pure Looks.refl result
  · exact findBuildidTable_keeps env shdrTable env.shdrRv info ehdr result.2

/-- The search of the two tables. -/
theorem findBuildidTables_mirrors
    (info : ElfInfo) (ehdr : Buffer) (out : BuildidInfo) :
    Mirrors range bytes other
      (findBuildidPhdr env info ehdr out >>= fun result =>
        if result.1 ≠ 0 then pure result
        else findBuildidShdr env info ehdr result.2)
      (findBuildidPhdr env info ehdr out >>= fun result =>
        if result.1 ≠ 0 then pure result
        else findBuildidShdr env info ehdr result.2) := by
  apply Mirrors.bind
  · exact
      findBuildidTable_mirrors completes differs phdrTable env.phdrRv info ehdr
        rfl
  · exact findBuildidTable_keeps env phdrTable env.phdrRv info ehdr out
  · intro result
    apply Keeps.ite
    · exact keeps_pure Looks.refl result
    · exact findBuildidTable_keeps env shdrTable env.shdrRv info ehdr _
  · intro rv out otherOut same
    dsimp only
    split
    · exact mirrors_pure rv same
    · exact
        findBuildidTable_mirrors completes differs shdrTable env.shdrRv info
          ehdr same

theorem findBuildId_mirrors
    {process : Process} (start : process.file = ⟨bytes, 0⟩)
    {out found : BuildidInfo} {rv : Int} {last : Process}
    (run : findBuildId env out process = .ok (rv, found) last)
    (clear : ∀ looked ∈ last.inspected, Clear range looked) :
    ∃ otherFound,
      findBuildId env out (process.on other) =
          .ok (rv, otherFound) (last.on other) ∧
        otherFound.place = found.place := by
  have reads := read_of_completes completes ehdrSize process
  have otherReads := read_of_completes completes ehdrSize (process.on other)
  have lengths := differs.slice_length_eq 0 ehdrSize
  have otherFile : (process.on other).file = ⟨other, 0⟩ := by
    rw [Process.on, start]
  rw [start] at reads
  rw [otherFile, lengths] at otherReads
  rw [findBuildId, bind_of_ok (get_eq process), bind_of_ok reads] at run
  rw [findBuildId, bind_of_ok (get_eq (process.on other)),
    bind_of_ok otherReads]
  dsimp only at run ⊢
  by_cases complete : intOf (slice bytes 0 ehdrSize).length ≠ ehdrSize
  · rw [if_pos complete] at run
    rw [if_pos complete]
    cases run
    exact ⟨_, rfl, rfl⟩
  · rw [if_neg complete] at run
    rw [if_neg complete]
    change (inspect [(0, ehdrSize)] >>= _) _ = _ at run
    change ∃ otherFound, (inspect [(0, ehdrSize)] >>= _) _ = _ ∧ _
    rw [bind_of_ok (inspect_eq _ _)] at run
    rw [bind_of_ok (inspect_eq _ _)]
    have sameCalls : (process.on other).calls = process.calls := rfl
    have sameHeader :
        (0, ehdrSize) ∈ last.inspected →
          slice other 0 ehdrSize = slice bytes 0 ehdrSize :=
      fun member => differs.slice_eq (clear _ member)
    cases header : elfInfo ⟨slice bytes 0 ehdrSize, env.beyond process.calls⟩ with
    | none =>
        simp only [header] at run
        cases run
        have kept := sameHeader (List.mem_append_right _ List.mem_cons_self)
        simp only [kept, sameCalls, header]
        exact ⟨_, rfl, rfl⟩
    | some info =>
        simp only [header] at run
        have grows :=
          ((findBuildidTables_keeps env info _ out).ok run).inspected
        have kept := sameHeader (grows.subset
          (List.mem_append_right _ List.mem_cons_self))
        simp only [kept, sameCalls, header]
        exact
          findBuildidTables_mirrors completes differs info _ out
            { process with
              file := ⟨bytes, 0 + (slice bytes 0 ehdrSize).length⟩
              calls := process.calls + 1
              inspected := process.inspected ++ [(0, ehdrSize)] }
            rv found last rfl run clear

end Search

/-! ## The text -/

/-- The first range lies in the second one. -/
def Within (range area : Range) : Prop :=
  area.1 ≤ range.1 ∧ range.1 + range.2 ≤ area.1 + area.2

/-- If the build ID lies in the area that was scanned last, it lies in the file, and
the text is that of its bytes. -/
def TextOf (bytes : List UInt8) (process : Process) (found : BuildidInfo) :
    Prop :=
  ∀ area, process.areas.getLast? = some area → Within found.place area →
    (slice bytes found.dataOffset found.bytesSize).length = found.bytesSize ∧
      found.hex = some (toHex (slice bytes found.dataOffset found.bytesSize))

/-- The program stores nothing, or it returns 1 and a build ID with its text. -/
def Texts (bytes : List UInt8) (out : BuildidInfo)
    (program : Program (Int × BuildidInfo)) : Prop :=
  ∀ process rv found last,
    process.file.bytes = bytes →
      program process = .ok (rv, found) last →
        found = out ∨ rv = 1 ∧ TextOf bytes last found

section Text

variable {env : Env} (completes : env.Completes) {bytes : List UInt8}

theorem texts_pure (rv : Int) (out : BuildidInfo) :
    Texts bytes out (pure (rv, out)) := by
  intro process result found last _ run
  cases run
  exact Or.inl rfl

/-- A search that returns what it gets unless that is 0. -/
theorem Texts.bind
    {out : BuildidInfo} {first : Program (Int × BuildidInfo)}
    {rest : Int × BuildidInfo → Program (Int × BuildidInfo)}
    (texts : Texts bytes out first) (looks : Keeps Looks first)
    (stops : ∀ result, result.1 ≠ 0 → rest result = pure result)
    (later : Texts bytes out (rest (0, out))) :
    Texts bytes out (first >>= rest) := by
  intro process rv found last sameBytes run
  obtain ⟨⟨firstRv, firstOut⟩, middle, firstRun, restRun⟩ := bind_eq_ok run
  have stored := texts process firstRv firstOut middle sameBytes firstRun
  have middleBytes := (looks.ok firstRun).bytes_eq.trans sameBytes
  by_cases zero : firstRv = 0
  · subst zero
    rcases stored with nothing | ⟨impossible, _⟩
    · subst nothing
      exact later middle rv found last middleBytes restRun
    · cases impossible
  · rw [stops _ zero] at restRun
    cases restRun
    exact stored

omit completes in
/-- The descriptor of the build ID the walk has found, if it lies in the area. -/
theorem text_of_found
    {info : ElfInfo} {offset len fuel : Nat} {process : Process}
    {found : BuildidInfo}
    (fetchable : Fetchable process.file.bytes offset len)
    (ending :
      evaluate (noteStep env.host info offset (process.buffer env offset len))
        fuel 0 = some (.found found))
    (within : Within found.place (offset, len)) :
    (slice process.file.bytes found.dataOffset found.bytesSize).length =
        found.bytesSize ∧
      found.hex =
        some (toHex
          (slice process.file.bytes found.dataOffset found.bytesSize)) := by
  obtain ⟨nhdr, _, stops⟩ := halts_of_evaluate ending
  obtain ⟨inside, _, shape⟩ := noteStep_found stops
  have length : (process.buffer env offset len).bytes.length = len :=
    fetchable.length_eq
  have desc_lt :
      noteDesc nhdr
          (nameszAt env.host info (process.buffer env offset len) nhdr) <
        2 ^ 62 := by
    have bound := fetchable.len_lt
    rw [noteDesc, nhdrSize, pad4, uint16]
    split <;> omega
  have noOverflow :
      (offset +
          noteDesc nhdr
            (nameszAt env.host info (process.buffer env offset len) nhdr)) %
        2 ^ 64 =
      offset +
        noteDesc nhdr
          (nameszAt env.host info (process.buffer env offset len) nhdr) :=
    Nat.mod_eq_of_lt (by
      have bound := fetchable.offset_lt
      omega)
  rw [noOverflow] at shape
  subst shape
  obtain ⟨_, fits⟩ := within
  have room :
      noteDesc nhdr
            (nameszAt env.host info (process.buffer env offset len) nhdr) +
          descszAt env.host info (process.buffer env offset len) nhdr ≤
        len := by
    dsimp only [BuildidInfo.place] at fits
    omega
  dsimp only
  rw [Buffer.read_eq_slice (by rw [length]; exact room)]
  change _ ∧ some (toHex (slice (slice _ _ _) _ _)) = _
  rw [← slice_slice process.file.bytes room]
  exact ⟨slice_length_of_le (by rw [fetchable.length_eq]; exact room), rfl⟩

include completes

theorem findBuildid_texts
    (info : ElfInfo) (offset len : Nat) (out : BuildidInfo) :
    Texts bytes out (findBuildid env info offset len out) := by
  intro process rv found last sameBytes run
  by_cases fetchable : Fetchable process.file.bytes offset len
  · rw [findBuildid_of_fetchable completes info out fetchable] at run
    cases ending :
        evaluate
          (noteStep env.host info offset (process.buffer env offset len))
          (len + 1) 0 with
    | none =>
        rw [ending] at run
        cases run
    | some exit =>
        rw [ending] at run
        cases exit with
        | notFound =>
            cases run
            exact Or.inl rfl
        | found info =>
            cases run
            refine Or.inr ⟨rfl, ?_⟩
            intro area isLast within
            change (process.areas ++ [(offset, len)]).getLast? = _ at isLast
            rw [List.getLast?_concat] at isLast
            cases isLast
            rw [← sameBytes]
            exact text_of_found fetchable ending within
  · rw [findBuildid_of_not_fetchable completes info out fetchable] at run
    cases run
    exact Or.inl rfl

theorem searchNotes_texts
    (table : Table) (entries : Buffer) (info : ElfInfo)
    (number entsize start : Nat) (rv : Int) (out : BuildidInfo) :
    Texts bytes out
      (searchNotes env table entries info number entsize start rv out) := by
  cases found : findNotes env table entries info start number entsize with
  | none =>
      rw [searchNotes_of_none found]
      exact texts_pure rv out
  | some entry =>
      obtain ⟨i, offset, size⟩ := entry
      have smaller : number - (i + 1) < number - start := by
        have bounds := findNotes_bounds found
        omega
      rw [searchNotes_of_some found]
      apply Texts.bind (findBuildid_texts completes info offset size out)
      · exact findBuildid_keeps env info offset size out
      · exact fun result positive => if_pos positive
      · exact
          searchNotes_texts table entries info number entsize (i + 1) 0 out
termination_by number - start

theorem findBuildidTable_texts
    (table : Table) (rv : Int) (info : ElfInfo) (ehdr : Buffer)
    (out : BuildidInfo) :
    Texts bytes out (findBuildidTable env table rv info ehdr out) := by
  rw [findBuildidTable]
  split
  · exact texts_pure 0 out
  · intro process result found last sameBytes run
    obtain ⟨fetched, middle, fetch, rest⟩ := bind_eq_ok run
    have middleBytes :=
      ((fetchData_keeps env _ _).ok fetch).bytes_eq.trans sameBytes
    cases fetched with
    | none =>
        cases rest
        exact Or.inl rfl
    | some entries =>
        obtain ⟨_, later, inspects, rest⟩ := bind_eq_ok rest
        exact
          searchNotes_texts completes table entries info _ _ 0 rv out later
            result found last
            (((inspect_keeps _).ok inspects).bytes_eq.trans middleBytes) rest

theorem findBuildidTables_texts
    (info : ElfInfo) (ehdr : Buffer) (out : BuildidInfo) :
    Texts bytes out
      (findBuildidPhdr env info ehdr out >>= fun result =>
        if result.1 ≠ 0 then pure result
        else findBuildidShdr env info ehdr result.2) := by
  apply Texts.bind
    (findBuildidTable_texts completes phdrTable env.phdrRv info ehdr out)
  · exact findBuildidTable_keeps env phdrTable env.phdrRv info ehdr out
  · exact fun result positive => if_pos positive
  · exact findBuildidTable_texts completes shdrTable env.shdrRv info ehdr out

theorem findBuildId_texts (out : BuildidInfo) :
    Texts bytes out (findBuildId env out) := by
  intro process rv found last sameBytes run
  rw [findBuildId, bind_of_ok (get_eq process)] at run
  obtain ⟨⟨count, header⟩, middle, reads, rest⟩ := bind_eq_ok run
  have middleBytes := ((read_keeps env _).ok reads).bytes_eq.trans sameBytes
  dsimp only at rest
  split at rest
  · cases rest
    exact Or.inl rfl
  · obtain ⟨_, later, inspects, rest⟩ := bind_eq_ok rest
    have laterBytes :=
      ((inspect_keeps _).ok inspects).bytes_eq.trans middleBytes
    cases ident : elfInfo ⟨header, env.beyond process.calls⟩ with
    | none =>
        simp only [ident] at rest
        cases rest
        exact Or.inl rfl
    | some info =>
        simp only [ident] at rest
        exact
          findBuildidTables_texts completes info _ out later rv found last
            laterBytes rest

end Text

/-! ## Editing and printing -/

/-- `find_build_id` returns 1 with a build ID that is not empty, lies in the area
scanned last, and has nothing in common with what was looked at. -/
def Located (env : Env) (bytes : List UInt8) (range : Range) : Prop :=
  ∃ info searched,
    SearchEnds env bytes 1 info searched ∧ info.place = range ∧
      1 ≤ range.2 ∧
      (∃ area, searched.areas.getLast? = some area ∧ Within range area) ∧
      ∀ looked ∈ searched.inspected, Clear range looked

/-- The text consists of two hexadecimal digits for each of the bytes. -/
def HexText (text : List UInt8) (count : Nat) : Prop :=
  text.length = 2 * count ∧ ∀ digit ∈ text, HexDigit digit

theorem hexText_iff_denotes {text : List UInt8} {count : Nat} :
    HexText text count ↔ ∃ data, Denotes text data ∧ data.length = count := by
  constructor
  · rintro ⟨length, digits⟩
    have even : text.length % 2 = 0 := by omega
    obtain ⟨data, decoded⟩ :=
      Option.isSome_iff_exists.mp ((fromHexPairs_isSome text even).mpr digits)
    have dataLength := (fromHexPairs_spec even decoded).1
    exact ⟨data, ⟨dataLength, decoded⟩, by omega⟩
  · rintro ⟨data, ⟨length, decoded⟩, dataLength⟩
    have even : text.length % 2 = 0 := by omega
    refine ⟨by omega, (fromHexPairs_isSome text even).mp ?_⟩
    rw [decoded]
    rfl

theorem differsIn_overwrite
    {bytes data : List UInt8} {offset size : Nat}
    (length : data.length = size) (inside : offset + data.length ≤ bytes.length) :
    DiffersIn (offset, size) bytes (overwrite bytes offset data) := by
  subst length
  refine ⟨overwrite_length inside, ?_⟩
  intro i notInside
  apply getElem?_overwrite_outside inside
  by_contra between
  rw [not_or] at between
  exact notInside ⟨by dsimp only; omega, by dsimp only; omega⟩

section Edit

variable {env : Env} (completes : env.Completes) {bytes : List UInt8}
  {range : Range}

theorem SearchEnds.stdout_eq
    {rv : Int} {info : BuildidInfo} {searched : Process}
    (ends : SearchEnds env bytes rv info searched) : searched.stdout = [] := by
  obtain ⟨opened, opens, search⟩ := ends
  have openedStdout := ((openFile_keeps env).ok opens).stdout_eq
  exact ((findBuildId_keeps env .zero).ok search).stdout_eq.trans openedStdout

theorem SearchEnds.main_print
    {rv : Int} {info : BuildidInfo} {searched : Process}
    (ends : SearchEnds env bytes rv info searched) (positive : 0 < rv) :
    main env true none (Process.initial bytes) =
      .ok 0 { searched with stdout := searched.stdout ++ [info.hex] } := by
  obtain ⟨opened, opens, search⟩ := ends
  change (openFile env >>= _) _ = _
  rw [bind_of_ok opens]
  change (findBuildId env .zero >>= _) _ = _
  rw [bind_of_ok search]
  change (if rv < 0 then _ else if rv = 0 then _ else _ : Program Int) _ = _
  rw [if_neg (by omega), if_neg (by omega)]
  rfl

include completes

theorem openFile_of_completes (process : Process) :
    openFile env process =
      .ok true { process with calls := process.calls + 1 } := by
  rw [openFile, bind_of_ok (nextOutcome_of_completes completes process)]
  rfl

/-- A search that ends with a build ID has it in the file, with its text. -/
theorem SearchEnds.text
    {info : BuildidInfo} {searched : Process} {area : Range}
    (ends : SearchEnds env bytes 1 info searched)
    (nonempty : 1 ≤ info.bytesSize)
    (isLast : searched.areas.getLast? = some area)
    (within : Within info.place area) :
    (slice bytes info.dataOffset info.bytesSize).length = info.bytesSize ∧
      info.hex =
        some (toHex (slice bytes info.dataOffset info.bytesSize)) := by
  obtain ⟨opened, opens, search⟩ := ends
  have openedBytes := ((openFile_keeps env).ok opens).bytes_eq
  rcases findBuildId_texts completes .zero opened 1 info searched openedBytes
    search with nothing | ⟨_, text⟩
  · rw [nothing] at nonempty
    cases nonempty
  · exact text area isLast within

/-- The search of another file that differs only where nothing has been looked
at. -/
theorem SearchEnds.on
    {other : List UInt8} (differs : DiffersIn range bytes other)
    {rv : Int} {info : BuildidInfo} {searched : Process}
    (ends : SearchEnds env bytes rv info searched)
    (clear : ∀ looked ∈ searched.inspected, Clear range looked) :
    ∃ otherInfo,
      SearchEnds env other rv otherInfo (searched.on other) ∧
        otherInfo.place = info.place := by
  obtain ⟨opened, opens, search⟩ := ends
  rw [openFile_of_completes completes] at opens
  cases opens
  obtain ⟨otherInfo, otherSearch, samePlace⟩ :=
    findBuildId_mirrors completes differs rfl search clear
  exact
    ⟨otherInfo, ⟨_, openFile_of_completes completes _, otherSearch⟩, samePlace⟩

end Edit

/-- For every file whose build ID has been located, both in the run that edits it
and in the one that prints it, and for every text: if the text consists of two
hexadecimal digits for each byte, it replaces these bytes and nothing else, and is
printed in lower case; otherwise the file is as before.  The length of a file is an
`off_t`. -/
theorem editbuildid_edit_print
    {edit print : Env} (editCompletes : edit.Completes)
    (printCompletes : print.Completes) {bytes : List UInt8} {range : Range}
    (length_lt : bytes.length < 2 ^ 63)
    (editLocates : Located edit bytes range)
    (printLocates : Located print bytes range) (newidHex : List UInt8) :
    ∃ rv last,
      main edit false (some newidHex) (Process.initial bytes) = .ok rv last ∧
        (HexText newidHex range.2 →
          rv = 0 ∧ DiffersIn range bytes last.file.bytes ∧
            ∃ printed searched final,
              SearchEnds print last.file.bytes 1 printed searched ∧
                printed.place = range ∧
                main print true none (Process.initial last.file.bytes) =
                  .ok 0 final ∧
                final.file.bytes = last.file.bytes ∧
                final.stdout = [some (newidHex.map lowerCase)]) ∧
        (¬ HexText newidHex range.2 → last.file.bytes = bytes) := by
  obtain ⟨info, searched, ends, place, nonempty, ⟨area, isLast, within⟩, _⟩ :=
    editLocates
  subst place
  have run := ends.main_eq newidHex
  obtain ⟨sameBytes, stores⟩ := ends.spec
  obtain ⟨inFile, _⟩ := ends.text editCompletes nonempty isLast within
  rw [slice_length] at inFile
  rcases afterSearch_cases newidHex ends with
    ⟨impossible, _⟩ | ⟨_, refused, after⟩ | ⟨data, _, denotes, length, after⟩
  · exact absurd impossible (by decide)
  · refine ⟨1, searched, run.trans after, ?_, fun _ => sameBytes⟩
    intro hexText
    obtain ⟨data, denotes, length⟩ := hexText_iff_denotes.mp hexText
    exact absurd length (refused data denotes)
  · have hexText : HexText newidHex info.bytesSize :=
      hexText_iff_denotes.mpr ⟨data, denotes, length⟩
    have seeks : Seeks edit searched info.dataOffset := by
      refine ⟨by rw [editCompletes]; decide, ?_⟩
      change 1 ≤ info.bytesSize at nonempty
      omega
    have inside : info.dataOffset + data.length ≤ bytes.length := by
      change 1 ≤ info.bytesSize at nonempty
      omega
    obtain ⟨last, wrote, lastBytes⟩ := writeNewBuildid_of_seeks data seeks
    rw [transferred, editCompletes, CallOutcome.limit, List.take_length,
      sameBytes]
      at lastBytes
    have differs : DiffersIn info.place bytes last.file.bytes := by
      rw [lastBytes]
      exact differsIn_overwrite length inside
    refine
      ⟨0, last, run.trans (after.trans wrote), fun _ => ⟨rfl, differs, ?_⟩,
        fun other => absurd hexText other⟩
    obtain ⟨again, searchedAgain, endsAgain, placeAgain, _,
      ⟨areaAgain, isLastAgain, withinAgain⟩, clear⟩ := printLocates
    obtain ⟨printed, printedEnds, samePlace⟩ :=
      endsAgain.on printCompletes differs clear
    have printedPlace : printed.place = info.place :=
      samePlace.trans placeAgain
    refine
      ⟨printed, _, _, printedEnds, printedPlace,
        printedEnds.main_print (by decide), rfl, ?_⟩
    have offsetEq : printed.dataOffset = info.dataOffset :=
      congrArg Prod.fst printedPlace
    have sizeEq : printed.bytesSize = info.bytesSize :=
      congrArg Prod.snd printedPlace
    obtain ⟨_, text⟩ :=
      printedEnds.text printCompletes (by rw [sizeEq]; exact nonempty)
        isLastAgain (by rw [printedPlace]; exact withinAgain)
    rw [offsetEq, sizeEq, ← length, lastBytes, slice_overwrite_self,
      (fromHexPairs_spec (by have := hexText.1; omega) denotes.2).2] at text
    change searchedAgain.stdout ++ [printed.hex] = _
    rw [endsAgain.stdout_eq, text]
    rfl

theorem noteElf_located : Located quietEnv noteElf (136, 1) := by
  obtain ⟨result, searched, search, place⟩ :
      ∃ result searched,
        (openFile quietEnv >>= fun _ => findBuildId quietEnv .zero)
            (Process.initial noteElf) = .ok result searched ∧
          decide
            (result.1 = 1 ∧ result.2.place = (136, 1) ∧
              searched.areas.getLast? = some (120, 17) ∧
              ∀ looked ∈ searched.inspected, looked.1 + looked.2 ≤ 136) =
            true :=
    exists_of_returnsWith (by decide +kernel)
  obtain ⟨one, placeEq, isLast, before⟩ := of_decide_eq_true place
  obtain ⟨rv, info⟩ := result
  subst one
  rw [bind_of_ok (openFile_of_completes quietEnv_completes _)] at search
  refine
    ⟨info, searched, ⟨_, openFile_of_completes quietEnv_completes _, search⟩,
      placeEq, by decide, ⟨_, isLast, by decide, by decide⟩, ?_⟩
  intro looked member i inLooked inRange
  have bound := before looked member
  have start : 136 ≤ i := inRange.1
  have stop := inLooked.2
  omega

theorem editbuildid_edit_print_note :
    ∃ rv last,
      main quietEnv false (some hexFf) (Process.initial noteElf) =
          .ok rv last ∧
        rv = 0 ∧ DiffersIn (136, 1) noteElf last.file.bytes := by
  obtain ⟨rv, last, run, edits, _⟩ :=
    editbuildid_edit_print quietEnv_completes quietEnv_completes
      (by decide +kernel) noteElf_located noteElf_located hexFf
  obtain ⟨zero, differs, _⟩ := edits ⟨by decide, by decide +kernel⟩
  exact ⟨rv, last, run, zero, differs⟩

end KernelStuff.Editbuildid
