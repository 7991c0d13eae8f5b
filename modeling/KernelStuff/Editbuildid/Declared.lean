import KernelStuff.Editbuildid.NoteFormat

/-!
# Where a build ID is declared

An ELF file is well formed for a list of program headers and a list of section
headers if it reads as them, and the areas of the note entries read as notes.
`declared` is what `find_build_id` should find in it.
-/

namespace KernelStuff.Editbuildid

open KernelStuff.Library

/-! ## Well-formed notes -/

/-- A note of a well-formed area. -/
structure WellFormedNote (note : ElfNote) : Prop where
  name_narrow : note.name.length < 2 ^ 16
  desc_narrow : note.desc.length < 2 ^ 16
  terminated : (0 : UInt8) ∈ note.name
  acceptable : IsBuildid note → note.desc.length ≤ maxBuildidSize

section Notes

variable {host : Endian} {info : ElfInfo} {offset : Nat} {data : Buffer}

theorem isBuildid_of_terminated
    {start : Nat} {note : ElfNote}
    (reads : ReadsNote info.endian data.bytes start note)
    (terminated : (0 : UInt8) ∈ note.name) :
    isBuildid host info data start = true ↔ IsBuildid note := by
  rw [isBuildid, Bool.and_eq_true, beq_iff_eq, typeAt_eq reads, IsBuildid]
  exact and_congr_left fun _ => reads.strcmpEq_iff terminated (by decide)

/-- The walk over a well-formed area ends with its first build ID. -/
theorem evaluate_of_readsNotes
    (bounded : offset + data.bytes.length < 2 ^ 63 + 2 ^ 31) :
    ∀ {notes : List ElfNote} {start fuel : Nat},
      ReadsNotes info.endian data.bytes start notes →
        (∀ note ∈ notes, WellFormedNote note) →
          data.bytes.length - start < fuel →
            evaluate (noteStep host info offset data) fuel start =
              some (scan offset start notes).2
  | [], start, fuel, reads, _, enough => by
      obtain ⟨less, fuelEq⟩ :=
        Nat.exists_eq_succ_of_ne_zero (Nat.ne_of_gt (Nat.zero_lt_of_lt enough))
      rw [fuelEq, evaluate, noteStep_of_end reads]
      rfl
  | note :: rest, start, fuel, ⟨reads, others⟩, wellFormed, enough => by
      have well := wellFormed note List.mem_cons_self
      have positive := note.size_pos
      have inside := reads.header_le
      obtain ⟨less, fuelEq⟩ :=
        Nat.exists_eq_succ_of_ne_zero (Nat.ne_of_gt (Nat.zero_lt_of_lt enough))
      rw [fuelEq, evaluate, scan]
      by_cases accepted : Accepted note
      · have here : isBuildid host info data start = true :=
          (isBuildid_of_terminated reads well.terminated).mpr accepted.1
        have stops :
            noteStep host info offset data start =
              .error (.found (located offset start note)) :=
          noteStep_of_accepted reads here accepted.2 well.name_narrow (by
            have fits := reads.header_le
            have narrow := well.name_narrow
            rw [align4]
            omega)
        rw [stops, if_pos accepted]
      · have other : isBuildid host info data start = false := by
          apply Bool.eq_false_iff.mpr
          intro here
          have isId :=
            (isBuildid_of_terminated reads well.terminated).mp here
          exact accepted ⟨isId, well.acceptable isId⟩
        have step :
            noteStep host info offset data start = .ok (start + note.size) :=
          noteStep_of_passed reads other well.name_narrow well.desc_narrow
        rw [step, if_neg accepted]
        apply evaluate_of_readsNotes bounded others
        · exact fun later member =>
            wellFormed later (List.mem_cons_of_mem _ member)
        · omega

end Notes

/-! ## Header tables -/

/-- An entry of a header table: its type, its area, and the notes there. -/
structure Entry where
  type : Nat
  offset : Nat
  size : Nat
  notes : List ElfNote

/-- The size of an entry of either table. -/
def phdrSize : ElfClass → Nat
  | .elf64 => 56
  | .elf32 => 32

def shdrSize : ElfClass → Nat
  | .elf64 => 64
  | .elf32 => 40

def headerSize : ElfClass → Nat
  | .elf64 => 64
  | .elf32 => 52

section WellFormed

variable (bytes : List UInt8) (info : ElfInfo) (table : Table)

/-- A number in the file. -/
def fileField (width pos : Nat) (field : Member) : Nat :=
  info.endian.decode (slice bytes (pos + field.offset info.bits) width)

def tableNumber : Nat := fileField bytes info 2 0 table.number
def tableEntsize : Nat := fileField bytes info 2 0 table.entsize
def tableOffset : Nat :=
  fileField bytes info info.bits.addrWidth 0 table.offset

/-- The bytes of the table. -/
def tableSize : Nat := tableNumber bytes info table * tableEntsize bytes info table

/-- The area of an entry reads as its notes, if it is to. -/
def Noted (entry : Entry) : Prop :=
  entry.type = table.wanted →
    (slice bytes entry.offset entry.size).length = entry.size ∧
      ReadsNotes info.endian (slice bytes entry.offset entry.size) 0
        entry.notes ∧
      ∀ note ∈ entry.notes, WellFormedNote note

/-- The file holds the entry at `pos`. -/
structure HoldsEntry (pos : Nat) (entry : Entry) : Prop where
  type_eq : fileField bytes info 4 pos table.entryType = entry.type
  offset_eq :
    fileField bytes info info.bits.addrWidth pos table.entryOffset =
      entry.offset
  size_eq :
    fileField bytes info info.bits.addrWidth pos table.entrySize = entry.size
  area : Noted bytes info table entry

/-- The file has a readable table of the entries; `least` is the size of an entry
of the class. -/
structure HoldsTable (least : Nat) (entries : List Entry) : Prop where
  number_eq : tableNumber bytes info table = entries.length
  entsize_ge : entries ≠ [] → least ≤ tableEntsize bytes info table
  readable : entries ≠ [] →
    tableOffset bytes info table + tableSize bytes info table ≤ bytes.length
  entry : ∀ i entry, entries[i]? = some entry →
    HoldsEntry bytes info table
      (tableOffset bytes info table + i * tableEntsize bytes info table) entry

/-- The values of `e_ident`. -/
def ElfClass.code : ElfClass → UInt8
  | .elf32 => 1
  | .elf64 => 2

def dataCode : Endian → UInt8
  | .little => 1
  | .big => 2

structure WellFormedElf (phdrs shdrs : List Entry) : Prop where
  magic : slice bytes 0 4 = [0x7f, 69, 76, 70]
  class_eq : bytes[eiClass]? = some info.bits.code
  data_eq : bytes[eiData]? = some (dataCode info.endian)
  header_le : headerSize info.bits ≤ bytes.length
  phdrs : HoldsTable bytes info phdrTable (phdrSize info.bits) phdrs
  shdrs : HoldsTable bytes info shdrTable (shdrSize info.bits) shdrs

/-! ## What should be found -/

/-- The first build ID in the area of an entry. -/
def Entry.buildid (entry : Entry) : Option BuildidInfo :=
  match (scan entry.offset 0 entry.notes).2 with
  | .found found => some found
  | .notFound => none

def noteEntries (entries : List Entry) : List Entry :=
  entries.filter fun entry => entry.type == table.wanted

/-- The first build ID in the order of the table. -/
def declaredIn (entries : List Entry) : Option BuildidInfo :=
  (noteEntries table entries).findSome? Entry.buildid

def declared (phdrs shdrs : List Entry) (out : BuildidInfo) :
    Int × BuildidInfo :=
  match declaredIn phdrTable phdrs with
  | some found => (1, found)
  | none =>
      match declaredIn shdrTable shdrs with
      | some found => (1, found)
      | none => (0, out)

/-- `find_build_id` finds what is declared, whatever memory holds that is not
initialised. -/
def FindsDeclared (phdrs shdrs : List Entry) : Prop :=
  ∀ env : Env, env.Completes → ∀ out process,
    process.file = ⟨bytes, 0⟩ →
      ∃ last, findBuildId env out process =
        .ok (declared phdrs shdrs out) last

/-- The areas up to the first one with a build ID can be fetched. -/
def AreasInReach : List Entry → Prop
  | [] => True
  | entry :: rest =>
      Fetchable bytes entry.offset entry.size ∧
        (entry.buildid.isSome = true ∨ AreasInReach rest)

/-- The search of the table assigns `rv`, and everything it fetches can be
fetched. -/
def TableInReach (entries : List Entry) : Prop :=
  entries = [] ∨
    Fetchable bytes (tableOffset bytes info table)
        (tableSize bytes info table) ∧
      noteEntries table entries ≠ [] ∧
      AreasInReach bytes (noteEntries table entries)

/-- The file is as long as the larger file header, and so for each table that is
searched. -/
def DeclaredInReach (phdrs shdrs : List Entry) : Prop :=
  ehdrSize ≤ bytes.length ∧ TableInReach bytes info phdrTable phdrs ∧
    ((declaredIn phdrTable phdrs).isSome = true ∨
      TableInReach bytes info shdrTable shdrs)

end WellFormed

/-! ## The search of one table -/

/-- What the loop over the areas returns. -/
def searchResult (bytes : List UInt8) (out : BuildidInfo) :
    Int → List Entry → Int × BuildidInfo
  | rv, [] => (rv, out)
  | _, entry :: rest =>
      if Fetchable bytes entry.offset entry.size then
        match entry.buildid with
        | some found => (1, found)
        | none => searchResult bytes out 0 rest
      else (-1, out)

/-- The buffer reads as the entries. -/
def Agrees (env : Env) (info : ElfInfo) (table : Table) (buffer : Buffer)
    (entsize : Nat) (entries : List Entry) : Prop :=
  ∀ i entry, entries[i]? = some entry →
    getfield32 env.host info buffer (i * entsize) table.entryType =
        entry.type ∧
      getaddr env.host info buffer (i * entsize) table.entryOffset =
        entry.offset ∧
      getaddr env.host info buffer (i * entsize) table.entrySize = entry.size

section Search

variable {env : Env} {info : ElfInfo} {table : Table} {buffer : Buffer}
  {entsize : Nat} {entries : List Entry} {out : BuildidInfo}

theorem findNotes_of_end {start : Nat} (ended : entries.length ≤ start) :
    findNotes env table buffer info start entries.length entsize = none := by
  have nothing : entries.length - start = 0 := by omega
  rw [findNotes, nothing]
  rfl

theorem findNotes_step {start number : Nat} (inside : start < number) :
    findNotes env table buffer info start number entsize =
      if getfield32 env.host info buffer (start * entsize) table.entryType =
          table.wanted then
        some (start,
          getaddr env.host info buffer (start * entsize) table.entryOffset,
          getaddr env.host info buffer (start * entsize) table.entrySize)
      else findNotes env table buffer info (start + 1) number entsize := by
  obtain ⟨more, moreEq⟩ :=
    Nat.exists_eq_succ_of_ne_zero (Nat.sub_ne_zero_of_lt inside)
  have fewer : number - (start + 1) = more := by omega
  rw [findNotes, findNotes, moreEq, fewer, List.range'_succ, List.find?_cons]
  by_cases wanted :
      getfield32 env.host info buffer (start * entsize) table.entryType =
        table.wanted
  · rw [if_pos wanted, wanted, beq_self_eq_true]
    rfl
  · rw [if_neg wanted, beq_false_of_ne wanted]

theorem findBuildid_of_noted
    (completes : env.Completes) (out : BuildidInfo) {entry : Entry}
    {process : Process}
    (noted : Noted process.file.bytes info table entry)
    (wanted : entry.type = table.wanted)
    (fetchable : Fetchable process.file.bytes entry.offset entry.size) :
    findBuildid env info entry.offset entry.size out process =
      .ok
        (match entry.buildid with
          | some found => (1, found)
          | none => (0, out))
        (process.scanned env info entry.offset entry.size) := by
  obtain ⟨length, reads, wellFormed⟩ := noted wanted
  obtain ⟨offsetLt, _, sizeLt⟩ := fetchable
  have ends :
      evaluate
          (noteStep env.host info entry.offset
            (process.buffer env entry.offset entry.size))
          (entry.size + 1) 0 =
        some (scan entry.offset 0 entry.notes).2 := by
    apply evaluate_of_readsNotes _ reads wellFormed
    · change (slice _ _ _).length - 0 < _
      rw [length]
      omega
    · change entry.offset + (slice _ _ _).length < _
      rw [length]
      omega
  rw [findBuildid_of_fetchable completes info out ⟨offsetLt, length, sizeLt⟩,
    ends, Entry.buildid]
  cases (scan entry.offset 0 entry.notes).2 <;> rfl

theorem searchNotes_eq
    (completes : env.Completes)
    (agrees : Agrees env info table buffer entsize entries)
    (bytes : List UInt8)
    (noted : ∀ entry ∈ entries, Noted bytes info table entry)
    (start : Nat) (rv : Int) {process : Process}
    (sameBytes : process.file.bytes = bytes) :
    ∃ last,
      searchNotes env table buffer info entries.length entsize start rv out
          process =
        .ok
          (searchResult bytes out rv
            (noteEntries table (entries.drop start))) last ∧
        last.file.bytes = bytes := by
  by_cases inside : start < entries.length
  · obtain ⟨typeEq, offsetEq, sizeEq⟩ :=
      agrees start entries[start] (List.getElem?_eq_getElem inside)
    rw [List.drop_eq_getElem_cons inside, noteEntries, List.filter_cons]
    by_cases wanted : entries[start].type = table.wanted
    · have here := (findNotes_step inside).trans (if_pos (typeEq.trans wanted))
      rw [searchNotes_of_some here, wanted, beq_self_eq_true, if_pos rfl,
        searchResult, offsetEq, sizeEq]
      have member : entries[start] ∈ entries := List.getElem_mem inside
      by_cases fetchable :
          Fetchable bytes entries[start].offset entries[start].size
      · have area :=
          findBuildid_of_noted completes out
            (by rw [sameBytes]; exact noted _ member) wanted
            (by rw [sameBytes]; exact fetchable)
        have scannedBytes :
            (process.scanned env info entries[start].offset
              entries[start].size).file.bytes = bytes :=
          (process.fetched_bytes _ _).trans sameBytes
        rw [bind_of_ok area, if_pos fetchable]
        cases entries[start].buildid with
        | some found => exact ⟨_, rfl, scannedBytes⟩
        | none =>
            exact
              searchNotes_eq completes agrees bytes noted (start + 1) 0
                scannedBytes
      · have area :=
          findBuildid_of_not_fetchable completes info out
            (by rw [sameBytes]; exact fetchable)
        rw [bind_of_ok area, if_neg fetchable]
        exact ⟨_, rfl, (process.fetched_bytes _ _).trans sameBytes⟩
    · have next :=
        (findNotes_step inside).trans
          (if_neg (fun same => wanted (typeEq.symm.trans same)))
      rw [searchNotes_congr next, beq_false_of_ne wanted]
      exact
        searchNotes_eq completes agrees bytes noted (start + 1) rv sameBytes
  · have ended : entries.length ≤ start := Nat.le_of_not_lt inside
    rw [searchNotes_of_none (findNotes_of_end ended),
      List.drop_eq_nil_of_le ended]
    exact ⟨process, rfl, sameBytes⟩
termination_by entries.length - start

end Search

/-! ## Fields that have been fetched -/

/-- The members the search uses lie in the file header and in an entry. -/
structure Layout (table : Table) (bits : ElfClass) (least : Nat) : Prop where
  number : table.number.offset bits + 2 ≤ ehdrSize
  offset : table.offset.offset bits + bits.addrWidth ≤ ehdrSize
  entsize : table.entsize.offset bits + 2 ≤ ehdrSize
  entryType : table.entryType.offset bits + 4 ≤ least
  entryOffset : table.entryOffset.offset bits + bits.addrWidth ≤ least
  entrySize : table.entrySize.offset bits + bits.addrWidth ≤ least

theorem phdrTable_layout (bits : ElfClass) :
    Layout phdrTable bits (phdrSize bits) := by
  cases bits <;> constructor <;> decide

theorem shdrTable_layout (bits : ElfClass) :
    Layout shdrTable bits (shdrSize bits) := by
  cases bits <;> constructor <;> decide

theorem getfield_fetched
    (host : Endian) (info : ElfInfo) {bytes : List UInt8}
    {offset size width pos : Nat} {field : Member} (beyond : Nat → UInt8)
    (length : (slice bytes offset size).length = size)
    (within : pos + field.offset info.bits + width ≤ size) :
    getfield host info width ⟨slice bytes offset size, beyond⟩ pos field =
      fileField bytes info width (offset + pos) field := by
  rw [getfield_eq, fileField, Buffer.read_eq_slice (by rw [length]; exact within),
    slice_slice bytes within, Nat.add_assoc]

section Tables

variable {env : Env} {bytes : List UInt8} {info : ElfInfo} {table : Table}
  {least : Nat} {entries : List Entry}

/-- The entries of a fetched table. -/
theorem agrees_of_holdsTable
    (layout : Layout table info.bits least)
    (holds : HoldsTable bytes info table least entries)
    (length :
      (slice bytes (tableOffset bytes info table)
        (tableSize bytes info table)).length = tableSize bytes info table)
    (beyond : Nat → UInt8) :
    Agrees env info table
      ⟨slice bytes (tableOffset bytes info table)
        (tableSize bytes info table), beyond⟩
      (tableEntsize bytes info table) entries := by
  intro i entry here
  have inside : i < entries.length := (List.getElem?_eq_some_iff.mp here).1
  have nonempty : entries ≠ [] := List.ne_nil_of_length_pos (by omega)
  have large := holds.entsize_ge nonempty
  have whole :
      i * tableEntsize bytes info table + tableEntsize bytes info table ≤
        tableSize bytes info table := by
    rw [tableSize, holds.number_eq, ← Nat.succ_mul]
    exact Nat.mul_le_mul_right _ inside
  obtain ⟨typeEq, offsetEq, sizeEq, _⟩ := holds.entry i entry here
  have typeFits := layout.entryType
  have offsetFits := layout.entryOffset
  have sizeFits := layout.entrySize
  refine ⟨?_, ?_, ?_⟩
  · rw [← typeEq]
    exact getfield_fetched env.host info beyond length (by omega)
  · rw [← offsetEq]
    exact getfield_fetched env.host info beyond length (by omega)
  · rw [← sizeEq]
    exact getfield_fetched env.host info beyond length (by omega)

/-- What `find_buildid_phdr` and `find_buildid_shdr` return. -/
def tableResult (bytes : List UInt8) (info : ElfInfo) (table : Table)
    (rv : Int) (out : BuildidInfo) (entries : List Entry) :
    Int × BuildidInfo :=
  if entries = [] then (0, out)
  else if
      Fetchable bytes (tableOffset bytes info table)
        (tableSize bytes info table) then
    searchResult bytes out rv (noteEntries table entries)
  else (-1, out)

theorem fileField_lt (width pos : Nat) (field : Member) :
    fileField bytes info width pos field < 256 ^ width := by
  apply Nat.lt_of_lt_of_le (info.endian.decode_lt _)
  apply Nat.pow_le_pow_right (by omega)
  rw [slice_length]
  exact Nat.min_le_left _ _

theorem tableSize_lt (bytes : List UInt8) (info : ElfInfo) (table : Table) :
    tableSize bytes info table < 2 ^ 32 := by
  have numberLt : tableNumber bytes info table < 256 ^ 2 := fileField_lt 2 0 _
  have entsizeLt : tableEntsize bytes info table < 256 ^ 2 :=
    fileField_lt 2 0 _
  have product :
      tableNumber bytes info table * tableEntsize bytes info table <
        256 ^ 2 * 256 ^ 2 :=
    Nat.mul_lt_mul'' numberLt entsizeLt
  rw [tableSize]
  omega

/-- Where the file header says the table is. -/
theorem Layout.header_fields
    (layout : Layout table info.bits least) (host : Endian)
    (headed : ehdrSize ≤ bytes.length) (beyond : Nat → UInt8) :
    getfield16 host info ⟨slice bytes 0 ehdrSize, beyond⟩ 0 table.number =
        tableNumber bytes info table ∧
      getaddr host info ⟨slice bytes 0 ehdrSize, beyond⟩ 0 table.offset =
        tableOffset bytes info table ∧
      getfield16 host info ⟨slice bytes 0 ehdrSize, beyond⟩ 0 table.entsize =
        tableEntsize bytes info table := by
  have header : (slice bytes 0 ehdrSize).length = ehdrSize :=
    slice_length_of_le (by omega)
  have numberFits := layout.number
  have offsetFits := layout.offset
  have entsizeFits := layout.entsize
  refine ⟨?_, ?_, ?_⟩
  · exact getfield_fetched host info beyond header (by omega)
  · exact getfield_fetched host info beyond header (by omega)
  · exact getfield_fetched host info beyond header (by omega)

theorem findBuildidTable_eq
    (completes : env.Completes) (layout : Layout table info.bits least)
    (holds : HoldsTable bytes info table least entries)
    (headed : ehdrSize ≤ bytes.length) (beyond : Nat → UInt8) (rv : Int)
    (out : BuildidInfo) (process : Process)
    (sameBytes : process.file.bytes = bytes) :
    ∃ last,
      findBuildidTable env table rv info ⟨slice bytes 0 ehdrSize, beyond⟩ out
          process =
        .ok (tableResult bytes info table rv out entries) last ∧
        last.file.bytes = bytes := by
  obtain ⟨numberEq, offsetEq, entsizeEq⟩ :=
    layout.header_fields env.host headed beyond
  simp only [findBuildidTable, numberEq, entsizeEq, offsetEq]
  by_cases empty : entries = []
  · have zero : tableNumber bytes info table = 0 := by
      rw [holds.number_eq, empty]
      rfl
    rw [if_pos zero, tableResult, if_pos empty]
    exact ⟨process, rfl, sameBytes⟩
  have positive : tableNumber bytes info table ≠ 0 := by
    rw [holds.number_eq]
    exact fun zero => empty (List.eq_nil_of_length_eq_zero zero)
  have sizeLt := tableSize_lt bytes info table
  rw [if_neg positive, tableResult, if_neg empty]
  change ∃ last,
    (fetchData env _ (sizeT (intOf (tableSize bytes info table))) >>= _)
        process = _ ∧ _
  by_cases small : tableSize bytes info table < 2 ^ 31
  · have fetch :=
      fetchData_of_completes completes (tableOffset bytes info table)
        (tableSize bytes info table) process
    have fetchedBytes :=
      (process.fetched_bytes (tableOffset bytes info table)
        (tableSize bytes info table)).trans sameBytes
    rw [sizeT_intOf_of_lt small, bind_of_ok fetch, sameBytes]
    by_cases fetchable :
        Fetchable bytes (tableOffset bytes info table)
          (tableSize bytes info table)
    · rw [if_pos fetchable, if_pos fetchable, holds.number_eq]
      exact
        searchNotes_eq completes
          (agrees_of_holdsTable layout holds fetchable.length_eq _) bytes
          (fun entry member => by
            obtain ⟨i, inside, here⟩ := List.getElem_of_mem member
            exact
              (holds.entry i entry
                (by rw [List.getElem?_eq_getElem inside, here])).area)
          0 rv fetchedBytes
    · rw [if_neg fetchable, if_neg fetchable]
      exact ⟨_, rfl, fetchedBytes⟩
  · have large := le_sizeT_intOf (Nat.le_of_not_lt small) sizeLt
    have fetch :=
      fetchData_of_completes completes (tableOffset bytes info table)
        (sizeT (intOf (tableSize bytes info table))) process
    rw [if_neg (fun fetchable => by
      have bound := fetchable.len_lt
      omega)] at fetch
    rw [bind_of_ok fetch, if_neg (fun fetchable => small fetchable.len_lt)]
    exact ⟨_, rfl, (process.fetched_bytes _ _).trans sameBytes⟩

/-! ## Reach -/

/-- A search whose areas are all in reach. -/
theorem searchResult_of_areasInReach
    {out : BuildidInfo} :
    ∀ {areas : List Entry} {rv : Int},
      AreasInReach bytes areas → (areas = [] → rv = 0) →
        searchResult bytes out rv areas =
          match areas.findSome? Entry.buildid with
          | some found => (1, found)
          | none => (0, out)
  | [], rv, _, assigned => by
      rw [assigned rfl]
      rfl
  | entry :: rest, rv, ⟨fetchable, reach⟩, _ => by
      rw [searchResult, if_pos fetchable, List.findSome?_cons]
      cases here : entry.buildid with
      | some found => rfl
      | none =>
          rcases reach with found | later
          · rw [here] at found
            cases found
          · exact searchResult_of_areasInReach later fun _ => rfl

theorem searchResult_of_not_areasInReach
    {out : BuildidInfo} :
    ∀ {areas : List Entry} {rv : Int},
      ¬ AreasInReach bytes areas → searchResult bytes out rv areas = (-1, out)
  | [], rv, beyondReach => absurd trivial beyondReach
  | entry :: rest, rv, beyondReach => by
      rw [searchResult]
      by_cases fetchable : Fetchable bytes entry.offset entry.size
      · rw [if_pos fetchable]
        cases here : entry.buildid with
        | some found =>
            exact absurd ⟨fetchable, Or.inl (by rw [here]; rfl)⟩ beyondReach
        | none =>
            exact
              searchResult_of_not_areasInReach fun later =>
                beyondReach ⟨fetchable, Or.inr later⟩
      · rw [if_neg fetchable]

theorem tableResult_of_inReach
    {rv : Int} {out : BuildidInfo} (reach : TableInReach bytes info table entries) :
    tableResult bytes info table rv out entries =
      match declaredIn table entries with
      | some found => (1, found)
      | none => (0, out) := by
  rw [tableResult]
  rcases reach with empty | ⟨fetchable, noted, areas⟩
  · rw [if_pos empty, empty]
    rfl
  · have nonempty : entries ≠ [] := by
      intro empty
      rw [empty] at noted
      exact noted rfl
    rw [if_neg nonempty, if_pos fetchable]
    exact searchResult_of_areasInReach areas fun empty => absurd empty noted

/-- Out of reach the search fails, or returns what `rv` happened to be. -/
theorem tableResult_of_not_inReach
    {rv : Int} {out : BuildidInfo}
    (beyondReach : ¬ TableInReach bytes info table entries) :
    tableResult bytes info table rv out entries = (-1, out) ∨
      tableResult bytes info table rv out entries = (rv, out) := by
  rw [tableResult, if_neg fun empty => beyondReach (Or.inl empty)]
  split
  · next fetchable =>
      by_cases noted : noteEntries table entries = []
      · rw [noted]
        exact Or.inr rfl
      · exact
          Or.inl
            (searchResult_of_not_areasInReach fun areas =>
              beyondReach (Or.inr ⟨fetchable, noted, areas⟩))
  · exact Or.inl rfl

end Tables

/-! ## The whole search -/

section File

variable {env : Env} {bytes : List UInt8} {info : ElfInfo}
  {phdrs shdrs : List Entry}

theorem elfInfo_of_wellFormed
    (elf : WellFormedElf bytes info phdrs shdrs)
    (headed : ehdrSize ≤ bytes.length) (beyond : Nat → UInt8) :
    elfInfo ⟨slice bytes 0 ehdrSize, beyond⟩ = some info := by
  have header : (slice bytes 0 ehdrSize).length = ehdrSize :=
    slice_length_of_le (by omega)
  have ident :
      ∀ {i : Nat} {value : UInt8}, i < ehdrSize → bytes[i]? = some value →
        (⟨slice bytes 0 ehdrSize, beyond⟩ : Buffer).byte i = value := by
    intro i value within here
    rw [Buffer.byte, List.getD_eq_getElem?_getD, getElem?_slice, if_pos within,
      Nat.zero_add, here]
    rfl
  have magic :
      (⟨slice bytes 0 ehdrSize, beyond⟩ : Buffer).read 0 4 =
        [0x7f, 69, 76, 70] := by
    rw [Buffer.read_eq_slice (by rw [header]; decide),
      slice_slice bytes (by decide)]
    exact elf.magic
  rw [elfInfo, magic, ident (by decide) elf.class_eq,
    ident (by decide) elf.data_eq]
  obtain ⟨endian, bits⟩ := info
  cases bits <;> cases endian <;> rfl

/-- What `find_build_id` returns. -/
def fileResult (env : Env) (bytes : List UInt8) (info : ElfInfo)
    (phdrs shdrs : List Entry) (out : BuildidInfo) : Int × BuildidInfo :=
  let result := tableResult bytes info phdrTable env.phdrRv out phdrs
  if result.1 ≠ 0 then result
  else tableResult bytes info shdrTable env.shdrRv result.2 shdrs

theorem findBuildId_eq
    (completes : env.Completes) (elf : WellFormedElf bytes info phdrs shdrs)
    (headed : ehdrSize ≤ bytes.length) (out : BuildidInfo) {process : Process}
    (start : process.file = ⟨bytes, 0⟩) :
    ∃ last, findBuildId env out process =
      .ok (fileResult env bytes info phdrs shdrs out) last := by
  have header : (slice bytes 0 ehdrSize).length = ehdrSize :=
    slice_length_of_le (by omega)
  have reads := read_of_completes completes ehdrSize process
  rw [start, header] at reads
  rw [findBuildId, bind_of_ok (get_eq process), bind_of_ok reads]
  have complete : ¬ intOf ehdrSize ≠ ehdrSize := not_not.mpr rfl
  dsimp only
  rw [if_neg complete]
  change ∃ last, (inspect [(0, ehdrSize)] >>= _) _ = _
  rw [bind_of_ok (inspect_eq _ _)]
  simp only [elfInfo_of_wellFormed elf headed]
  obtain ⟨searched, phdrSearch, searchedBytes⟩ :=
    findBuildidTable_eq completes (phdrTable_layout info.bits) elf.phdrs headed
      (env.beyond process.calls) env.phdrRv out
      { process with
        file := ⟨bytes, ehdrSize⟩
        calls := process.calls + 1
        inspected := process.inspected ++ [(0, ehdrSize)] } rfl
  change ∃ last, (findBuildidTable env phdrTable env.phdrRv info _ out >>= _) _ = _
  rw [Nat.zero_add, bind_of_ok phdrSearch, fileResult]
  split
  · exact ⟨searched, rfl⟩
  · obtain ⟨last, shdrSearch, _⟩ :=
      findBuildidTable_eq completes (shdrTable_layout info.bits) elf.shdrs
        headed (env.beyond process.calls) env.shdrRv _ searched searchedBytes
    exact ⟨last, shdrSearch⟩

/-- A file that is shorter than the larger file header is refused. -/
theorem findBuildId_of_short
    (completes : env.Completes) (short : bytes.length < ehdrSize)
    (out : BuildidInfo) {process : Process}
    (start : process.file = ⟨bytes, 0⟩) :
    ∃ last, findBuildId env out process = .ok (-1, out) last := by
  have reads := read_of_completes completes ehdrSize process
  have small : (slice bytes 0 ehdrSize).length < ehdrSize := by
    rw [slice_length]
    omega
  rw [start] at reads
  rw [findBuildId, bind_of_ok (get_eq process), bind_of_ok reads]
  have incomplete : intOf (slice bytes 0 ehdrSize).length ≠ ehdrSize := by
    have bound : ehdrSize < 2 ^ 31 := by decide
    rw [intOf_of_lt (by omega)]
    omega
  dsimp only
  rw [if_pos incomplete]
  exact ⟨_, rfl⟩

theorem fileResult_of_inReach
    (env : Env) (out : BuildidInfo)
    (phdrReach : TableInReach bytes info phdrTable phdrs)
    (shdrReach : (declaredIn phdrTable phdrs).isSome = true ∨
      TableInReach bytes info shdrTable shdrs) :
    fileResult env bytes info phdrs shdrs out = declared phdrs shdrs out := by
  rw [fileResult, tableResult_of_inReach phdrReach, declared]
  cases found : declaredIn phdrTable phdrs with
  | some info => rfl
  | none =>
      rcases shdrReach with impossible | reach
      · rw [found] at impossible
        cases impossible
      · exact tableResult_of_inReach reach

theorem declared_value (phdrs shdrs : List Entry) (out : BuildidInfo) :
    (declared phdrs shdrs out).1 = 1 ∨ (declared phdrs shdrs out).1 = 0 := by
  rw [declared]
  cases declaredIn phdrTable phdrs with
  | some found => exact Or.inl rfl
  | none =>
      cases declaredIn shdrTable shdrs with
      | some found => exact Or.inl rfl
      | none => exact Or.inr rfl

/-- The local `rv` of both searches happens to hold 2. -/
def leftoverEnv : Env where
  host := .little
  outcome := fun _ => .complete
  beyond := fun _ _ => 0
  phdrRv := 2
  shdrRv := 2

theorem leftoverEnv_completes : leftoverEnv.Completes := fun _ => rfl

/-- A result of a search that is out of reach is not one of `declared`. -/
theorem tableResult_leftover
    {table : Table} {entries : List Entry} (out : BuildidInfo)
    (beyondReach : ¬ TableInReach bytes info table entries) :
    ∃ rv : Int, rv ≠ 0 ∧ rv ≠ 1 ∧
      tableResult bytes info table 2 out entries = (rv, out) := by
  rcases tableResult_of_not_inReach beyondReach with
    failed | leftover
  · exact ⟨-1, by decide, by decide, failed⟩
  · exact ⟨2, by decide, by decide, leftover⟩

/-- On every well-formed file `find_build_id` finds what is declared, whatever
its local `rv` holds at the start, exactly if that is in reach. -/
theorem find_build_id_declared_iff
    (elf : WellFormedElf bytes info phdrs shdrs) :
    FindsDeclared bytes phdrs shdrs ↔
      DeclaredInReach bytes info phdrs shdrs := by
  constructor
  · intro finds
    obtain ⟨last, found⟩ :=
      finds leftoverEnv leftoverEnv_completes .zero (Process.initial bytes) rfl
    have value := declared_value phdrs shdrs .zero
    by_cases headed : ehdrSize ≤ bytes.length
    · obtain ⟨other, result⟩ :=
        findBuildId_eq leftoverEnv_completes elf headed .zero
          (rfl : (Process.initial bytes).file = ⟨bytes, 0⟩)
      rw [found] at result
      injection result with same
      rw [same] at value
      refine ⟨headed, ?_⟩
      have phdrReach : TableInReach bytes info phdrTable phdrs := by
        by_contra beyondReach
        obtain ⟨rv, notZero, notOne, searched⟩ :=
          tableResult_leftover .zero beyondReach
        have assigned : leftoverEnv.phdrRv = 2 := rfl
        rw [fileResult, assigned, searched, if_pos notZero] at value
        exact value.elim notOne notZero
      refine ⟨phdrReach, ?_⟩
      by_contra neither
      rw [not_or] at neither
      obtain ⟨undeclared, beyondReach⟩ := neither
      obtain ⟨rv, notZero, notOne, searched⟩ :=
        tableResult_leftover .zero beyondReach
      rw [fileResult, tableResult_of_inReach phdrReach,
        Option.not_isSome_iff_eq_none.mp undeclared] at value
      change (tableResult bytes info shdrTable 2 .zero shdrs).1 = 1 ∨
        (tableResult bytes info shdrTable 2 .zero shdrs).1 = 0 at value
      rw [searched] at value
      exact value.elim notOne notZero
    · obtain ⟨other, refused⟩ :=
        findBuildId_of_short leftoverEnv_completes
          (Nat.lt_of_not_le headed) .zero
          (rfl : (Process.initial bytes).file = ⟨bytes, 0⟩)
      rw [found] at refused
      injection refused with same
      rw [same] at value
      rcases value with impossible | impossible <;> cases impossible
  · rintro ⟨headed, phdrReach, shdrReach⟩ env completes out process start
    obtain ⟨last, result⟩ := findBuildId_eq completes elf headed out start
    rw [fileResult_of_inReach env out phdrReach shdrReach] at result
    exact ⟨last, result⟩

end File

/-! ## Examples -/

/-- The build ID in `segmentElf`. -/
def segmentNote : ElfNote where
  name := [71, 78, 85, 0]
  desc := [0xaa]
  type := 3
  name_lt := shortBuildid.name_lt
  desc_lt := by decide
  type_lt := shortBuildid.type_lt

/-- The program header of `segmentElf`. -/
def segmentEntry (type : Nat) : Entry where
  type := type
  offset := 120
  size := 17
  notes := [segmentNote]

def segmentInfo : ElfInfo := ⟨.little, .elf64⟩

theorem segment_noted (type : UInt8) :
    Noted (segmentElf type) segmentInfo phdrTable
      (segmentEntry type.toNat) := by
  intro _
  have area :
      slice (segmentElf type) 120 17 =
        [4, 0, 0, 0, 1, 0, 0, 0, 3, 0, 0, 0, 71, 78, 85, 0, 0xaa] :=
    rfl
  change (slice _ 120 17).length = 17 ∧
    ReadsNotes .little (slice _ 120 17) 0 [segmentNote] ∧ _
  rw [area]
  refine ⟨rfl, ⟨⟨⟨?_, ?_, ?_, ?_, ?_⟩, ?_⟩, ?_⟩, ?_⟩
  · decide
  · decide +kernel
  · decide +kernel
  · decide +kernel
  · decide
  · decide
  · change 17 ≤ 0 + segmentNote.size
    decide
  · intro note member
    cases List.mem_singleton.mp member
    exact ⟨by decide, by decide, by decide, fun _ => by decide⟩

theorem segmentElf_wellFormed {type : UInt8} (known : type = 1 ∨ type = 4) :
    WellFormedElf (segmentElf type) segmentInfo
      [segmentEntry type.toNat] [] where
  magic := rfl
  class_eq := rfl
  data_eq := rfl
  header_le := by
    change 64 ≤ 137
    omega
  phdrs := by
    refine ⟨?_, fun _ => ?_, fun _ => ?_, ?_⟩
    · rcases known with rfl | rfl <;> decide +kernel
    · rcases known with rfl | rfl <;> decide +kernel
    · rcases known with rfl | rfl <;> decide +kernel
    · intro i entry here
      obtain ⟨inside, same⟩ := List.getElem?_eq_some_iff.mp here
      have first : i = 0 := Nat.lt_one_iff.mp inside
      subst first
      obtain rfl : segmentEntry type.toNat = entry := same
      refine ⟨?_, ?_, ?_, segment_noted type⟩
      · rcases known with rfl | rfl <;> decide +kernel
      · rcases known with rfl | rfl <;> decide +kernel
      · rcases known with rfl | rfl <;> decide +kernel
  shdrs := by
    refine ⟨?_, fun some => absurd rfl some, fun some => absurd rfl some, ?_⟩
    · rcases known with rfl | rfl <;> decide +kernel
    · intro i entry here
      cases here

/-- Where the segment is one of notes its build ID is found. -/
theorem find_build_id_declared_segment :
    FindsDeclared noteElf [segmentEntry 4] [] :=
  (find_build_id_declared_iff (segmentElf_wellFormed (Or.inr rfl))).mpr
    ⟨by decide +kernel,
      Or.inr
        ⟨by decide +kernel, List.cons_ne_nil _ _, by decide +kernel,
          Or.inl (by decide +kernel)⟩,
      Or.inl (by decide +kernel)⟩

/-- With no segment of notes the result is what `rv` happens to hold. -/
theorem find_build_id_returns_leftover :
    WellFormedElf loadElf segmentInfo [segmentEntry 1] [] ∧
      ¬ FindsDeclared loadElf [segmentEntry 1] [] := by
  refine ⟨segmentElf_wellFormed (Or.inl rfl), ?_⟩
  intro finds
  obtain ⟨last, run⟩ :=
    finds leftoverEnv leftoverEnv_completes .zero (Process.initial loadElf) rfl
  obtain ⟨result, other, otherRun, leftover⟩ :
      ∃ result other,
        findBuildId leftoverEnv .zero (Process.initial loadElf) =
            .ok result other ∧
          decide (result.1 = 2) = true :=
    exists_of_returnsWith (by decide +kernel)
  rw [run] at otherRun
  cases otherRun
  exact absurd (of_decide_eq_true leftover) (by decide)

end KernelStuff.Editbuildid
