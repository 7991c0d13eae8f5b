import KernelStuff.Editbuildid.NoteReads
import KernelStuff.Editbuildid.Declared

/-!
# Reads within what was fetched

The sizes of the tables and of their entries come from the file header, and so
nothing but the file decides whether the fields that are read lie in the buffer
of the table.
-/

namespace KernelStuff.Editbuildid

open KernelStuff.Library

/-! ## A run that reads what it has fetched only -/

section Runs

variable (env : Env)

/-- The field lies in the buffer. -/
def FieldInside (info : ElfInfo) (buffer : Buffer) (width ptr : Nat)
    (field : Member) : Prop :=
  ptr + field.offset info.bits + width ≤ buffer.bytes.length

/-- The call looks at bytes of the area it fetches, if it gets it. -/
def AreaInside (info : ElfInfo) (offset len : Nat) (process : Process) : Prop :=
  ∀ data next, fetchData env offset len process = .ok (some data) next →
    WalkInside env.host info offset data

section Loop

variable (table : Table) (entries : Buffer) (info : ElfInfo)
  (number entsize : Nat)

/-- The loop of `find_notes_phdr` or `find_notes_shdr` comes to the entry `i`. -/
def Examines (start i : Nat) : Prop :=
  start ≤ i ∧ i < number ∧
    ∀ j, start ≤ j → j < i →
      getfield32 env.host info entries (j * entsize) table.entryType ≠
        table.wanted

/-- One round of the loop over the areas: the types of the entries that are
examined, the offset and size of the one that is found, and its area. -/
structure RoundInside (start : Nat) (process : Process) : Prop where
  index_lt : ∀ i, Examines env table entries info number entsize start i →
    i * entsize < 2 ^ 31
  type : ∀ i, Examines env table entries info number entsize start i →
    FieldInside info entries 4 (i * entsize) table.entryType
  found : ∀ i offset size,
    findNotes env table entries info start number entsize =
        some (i, offset, size) →
      FieldInside info entries info.bits.addrWidth (i * entsize)
          table.entryOffset ∧
        FieldInside info entries info.bits.addrWidth (i * entsize)
          table.entrySize ∧
        AreaInside env info offset size process

/-- A round after which the loop goes on. -/
def RoundPasses (out : BuildidInfo) (source target : Nat × Process) : Prop :=
  ∃ i offset size,
    findNotes env table entries info source.1 number entsize =
        some (i, offset, size) ∧
      findBuildid env info offset size out source.2 = .ok (0, out) target.2 ∧
      target.1 = i + 1

/-- Every round the loop comes to. -/
def SearchInside (out : BuildidInfo) (process : Process) : Prop :=
  ∀ start last,
    Relation.ReflTransGen
        (RoundPasses env table entries info number entsize out)
        (0, process) (start, last) →
      RoundInside env table entries info number entsize start last

variable {env table entries info number entsize}

/-- After such a round the search is the search from there. -/
theorem searchNotes_of_passes
    {out : BuildidInfo} {source target : Nat × Process}
    (passes : RoundPasses env table entries info number entsize out source
      target) (rv : Int) :
    searchNotes env table entries info number entsize source.1 rv out source.2 =
      searchNotes env table entries info number entsize target.1 0 out
        target.2 := by
  obtain ⟨i, offset, size, found, area, next⟩ := passes
  rw [searchNotes_of_some found, bind_of_ok area, next]
  rfl

end Loop

/-- The search of one table. -/
def TableInside (table : Table) (info : ElfInfo) (ehdr : Buffer)
    (out : BuildidInfo) (process : Process) : Prop :=
  let number := getfield16 env.host info ehdr 0 table.number
  let offset := getaddr env.host info ehdr 0 table.offset
  let entsize := getfield16 env.host info ehdr 0 table.entsize
  let size := sizeT (intOf (number * entsize))
  number ≠ 0 →
    number * entsize < 2 ^ 31 ∧
      ∀ entries next,
        fetchData env offset size process = .ok (some entries) next →
          SearchInside env table entries info number entsize out
            { next with inspected := next.inspected ++ [(offset, size)] }

/-- `find_build_id`, once it has accepted the header. -/
def FindInside (out : BuildidInfo) (process : Process) : Prop :=
  ∀ ehdr next info,
    read env ehdrSize process = .ok (intOf ehdrSize, ehdr) next →
      elfInfo ⟨ehdr, env.beyond process.calls⟩ = some info →
        let ehdr : Buffer := ⟨ehdr, env.beyond process.calls⟩
        let started :=
          { next with inspected := next.inspected ++ [(0, ehdrSize)] }
        TableInside env phdrTable info ehdr out started ∧
          ∀ last,
            findBuildidPhdr env info ehdr out started = .ok (0, out) last →
              TableInside env shdrTable info ehdr out last

end Runs

/-- The search in the file looks at nothing but what it has fetched, whatever the
system calls do and memory holds. -/
def ReadsFetched (bytes : List UInt8) : Prop :=
  ∀ env out process, process.file = ⟨bytes, 0⟩ → FindInside env out process

/-! ## What is fetched -/

section Fetched

variable {env : Env}

theorem lseek_ok
    {offset : Nat} {reached : Bool} {process next : Process}
    (run : lseek env offset process = .ok reached next) (yes : reached = true) :
    offset < 2 ^ 63 ∧ next.file = ⟨process.file.bytes, offset⟩ := by
  obtain ⟨outcome, called, first, rest⟩ := bind_eq_ok run
  cases first
  split at rest
  · cases rest
    cases yes
  · next reachable =>
      cases rest
      rw [not_or] at reachable
      exact ⟨Nat.lt_of_not_le reachable.2, rfl⟩

theorem read_ok
    {count : Nat} {result : Int × List UInt8} {process next : Process}
    (run : read env count process = .ok result next) :
    result = (-1, []) ∨
      ∃ most, most ≤ count ∧
        result.2 = slice process.file.bytes process.file.pos most ∧
        result.1 = intOf result.2.length := by
  obtain ⟨outcome, called, first, rest⟩ := bind_eq_ok run
  cases first
  split at rest
  · cases rest
    exact Or.inl rfl
  · cases rest
    exact Or.inr ⟨_, CallOutcome.limit_le _ _, rfl, rfl⟩

/-- Whatever the calls do, a fetch that succeeds gets the range. -/
theorem fetchData_some
    {offset len : Nat} {data : Buffer} {process next : Process}
    (run : fetchData env offset len process = .ok (some data) next) :
    Fetchable process.file.bytes offset len ∧
      data.bytes = slice process.file.bytes offset len := by
  obtain ⟨reached, sought, seeks, rest⟩ := bind_eq_ok run
  cases reached with
  | false => cases rest
  | true =>
      obtain ⟨offsetLt, file⟩ := lseek_ok seeks rfl
      obtain ⟨_, _, same, rest⟩ := bind_eq_ok rest
      cases same
      obtain ⟨⟨rv, bytes⟩, _, reads, rest⟩ := bind_eq_ok rest
      dsimp only at rest
      split at rest
      · cases rest
      · next accepted =>
          cases rest
          rw [not_or, not_not] at accepted
          obtain ⟨rvEq, lenLt⟩ := accepted
          rcases read_ok reads with failed | ⟨most, mostLe, bytesEq, isLength⟩
          · cases failed
            rw [sizeT] at rvEq
            omega
          · rw [file] at bytesEq
            dsimp only at bytesEq isLength
            have within : bytes.length ≤ len := by
              rw [bytesEq, slice_length]
              omega
            rw [isLength] at rvEq
            obtain ⟨lengthEq, small⟩ :=
              (sizeT_intOf_eq_iff within (by omega)).mp rvEq
            have whole : bytes = slice process.file.bytes offset len := by
              have long := lengthEq
              rw [bytesEq, slice_length] at long
              have all : most = len := by omega
              rw [bytesEq, all]
            refine ⟨⟨offsetLt, ?_, small⟩, whole⟩
            rw [← whole]
            exact lengthEq

end Fetched

/-! ## Files with room for what is read -/

section Files

variable (bytes : List UInt8) (info : ElfInfo)

/-- The bytes of an area. -/
def areaBuffer (offset len : Nat) : Buffer :=
  ⟨slice bytes offset len, fun _ => 0⟩

/-- Every note up to the first build ID, if one follows another, is there as far
as it is looked at. -/
def AreaFits (offset len : Nat) : Prop :=
  ∀ k, Walked info.endian info (areaBuffer bytes offset len) k →
    NoteFits info.endian info (areaBuffer bytes offset len)
      (noteOffset info.endian info (areaBuffer bytes offset len) k)

/-- None of these notes is taken for a build ID. -/
def AreaSilent (offset len : Nat) : Prop :=
  ∀ k,
    noteOffset info.endian info (areaBuffer bytes offset len) k <
        (areaBuffer bytes offset len).bytes.length →
      isBuildid info.endian info (areaBuffer bytes offset len)
          (noteOffset info.endian info (areaBuffer bytes offset len) k) =
        false

section Entries

variable (table : Table)

def entryField (width i : Nat) (field : Member) : Nat :=
  fileField bytes info width
    (tableOffset bytes info table + i * tableEntsize bytes info table) field

def entryTypeAt (i : Nat) : Nat := entryField bytes info table 4 i table.entryType

def areaOffsetAt (i : Nat) : Nat :=
  entryField bytes info table info.bits.addrWidth i table.entryOffset

def areaSizeAt (i : Nat) : Nat :=
  entryField bytes info table info.bits.addrWidth i table.entrySize

/-- The search goes on behind the entry. -/
def PassedOver (i : Nat) : Prop :=
  entryTypeAt bytes info table i = table.wanted →
    Fetchable bytes (areaOffsetAt bytes info table i)
        (areaSizeAt bytes info table i) ∧
      AreaSilent bytes info (areaOffsetAt bytes info table i)
        (areaSizeAt bytes info table i)

/-- The bytes of the table from the entry on. -/
def bytesFrom (i : Nat) : Nat :=
  (tableNumber bytes info table - i) * tableEntsize bytes info table

/-- What is read of the entry ends with the table at the latest, and its area has
room for the notes in it. -/
structure EntryFits (i : Nat) : Prop where
  type : table.entryType.offset info.bits + 4 ≤ bytesFrom bytes info table i
  area : entryTypeAt bytes info table i = table.wanted →
    table.entryOffset.offset info.bits + info.bits.addrWidth ≤
        bytesFrom bytes info table i ∧
      table.entrySize.offset info.bits + info.bits.addrWidth ≤
        bytesFrom bytes info table i ∧
      (Fetchable bytes (areaOffsetAt bytes info table i)
          (areaSizeAt bytes info table i) →
        AreaFits bytes info (areaOffsetAt bytes info table i)
          (areaSizeAt bytes info table i))

/-- The size of the table is an `int`, and so for every entry the search comes
to. -/
def TableFits : Prop :=
  tableNumber bytes info table ≠ 0 →
    tableSize bytes info table < 2 ^ 31 ∧
      (Fetchable bytes (tableOffset bytes info table)
          (tableSize bytes info table) →
        ∀ i, i < tableNumber bytes info table →
          (∀ j, j < i → PassedOver bytes info table j) →
            EntryFits bytes info table i)

/-- The search comes to the end of the table. -/
def TablePassed : Prop :=
  tableNumber bytes info table = 0 ∨
    Fetchable bytes (tableOffset bytes info table)
        (tableSize bytes info table) ∧
      ∀ j, j < tableNumber bytes info table → PassedOver bytes info table j

end Entries

/-- The section headers are searched if the program headers are passed. -/
def FileFits : Prop :=
  TableFits bytes info phdrTable ∧
    (TablePassed bytes info phdrTable → TableFits bytes info shdrTable)

end Files

section Areas

variable {env : Env} {bytes : List UInt8} {info : ElfInfo} {offset len : Nat}
  {data : Buffer}

theorem areaFits_iff :
    AreaFits bytes info offset len ↔
      WalkInside info.endian info offset (areaBuffer bytes offset len) := by
  rw [WalkInside, forall_reaches_iff]
  exact forall_congr' fun k => imp_congr_right fun _ => noteReads_inside_iff.symm

theorem areaSilent_iff :
    AreaSilent bytes info offset len ↔
      Silent info.endian info offset (areaBuffer bytes offset len) :=
  silent_iff_noteOffset.symm

/-- A walk over the area, on any platform and with anything behind the area. -/
theorem walkInside_iff (same : data.bytes = slice bytes offset len)
    (host : Endian) :
    WalkInside host info offset data ↔ AreaFits bytes info offset len := by
  rw [areaFits_iff]
  constructor
  · intro inside
    exact (inside.of_host info.endian).congr same.symm
  · intro inside
    exact (inside.congr same).of_host host

theorem silent_iff (same : data.bytes = slice bytes offset len)
    (host : Endian) (fits : AreaFits bytes info offset len) :
    Silent host info offset data ↔ AreaSilent bytes info offset len := by
  have inside := areaFits_iff.mp fits
  rw [areaSilent_iff]
  constructor
  · intro silent
    have there := (walkInside_iff same info.endian).mpr fits
    exact there.silent_congr same.symm (silent.of_host info.endian)
  · intro silent
    exact (inside.silent_congr same silent).of_host host

end Areas

/-! ## The entries the loop comes to -/

section Entries

variable {env : Env} {info : ElfInfo} {table : Table} {entries : Buffer}
  {number entsize i : Nat}

theorem Examines.next
    {start : Nat}
    (examines : Examines env table entries info number entsize start i)
    (later : start ≠ i) :
    Examines env table entries info number entsize (start + 1) i := by
  obtain ⟨le, lt, others⟩ := examines
  exact ⟨by omega, lt, fun j above below => others j (by omega) below⟩

theorem findNotes_of_examines
    {start : Nat}
    (examines : Examines env table entries info number entsize start i)
    (wanted :
      getfield32 env.host info entries (i * entsize) table.entryType =
        table.wanted) :
    findNotes env table entries info start number entsize =
      some (i, getaddr env.host info entries (i * entsize) table.entryOffset,
        getaddr env.host info entries (i * entsize) table.entrySize) := by
  obtain ⟨le, lt, others⟩ := examines
  rw [findNotes_step (by omega)]
  by_cases here : start = i
  · subst here
    rw [if_pos wanted]
  · rw [if_neg (others start (Nat.le_refl _) (by omega))]
    exact
      findNotes_of_examines (Examines.next ⟨le, lt, others⟩ here) wanted
termination_by i - start

theorem findNotes_some
    {start offset size : Nat}
    (found : findNotes env table entries info start number entsize =
      some (i, offset, size)) :
    Examines env table entries info number entsize start i ∧
      getfield32 env.host info entries (i * entsize) table.entryType =
        table.wanted ∧
      offset = getaddr env.host info entries (i * entsize) table.entryOffset ∧
      size = getaddr env.host info entries (i * entsize) table.entrySize := by
  have bounds := findNotes_bounds found
  rw [findNotes_step (by omega)] at found
  by_cases wanted :
      getfield32 env.host info entries (start * entsize) table.entryType =
        table.wanted
  · rw [if_pos wanted] at found
    cases found
    exact
      ⟨⟨Nat.le_refl _, bounds.2, fun j above below => by omega⟩, wanted, rfl,
        rfl⟩
  · rw [if_neg wanted] at found
    obtain ⟨⟨le, lt, others⟩, facts⟩ := findNotes_some found
    refine ⟨⟨by omega, lt, ?_⟩, facts⟩
    intro j above below
    by_cases first : j = start
    · rw [first]
      exact wanted
    · exact others j (by omega) below
termination_by number - start

theorem findNotes_none
    {start : Nat}
    (none : findNotes env table entries info start number entsize = none)
    (behind : start ≤ i) (inside : i < number) :
    getfield32 env.host info entries (i * entsize) table.entryType ≠
      table.wanted := by
  rw [findNotes_step (by omega)] at none
  by_cases wanted :
      getfield32 env.host info entries (start * entsize) table.entryType =
        table.wanted
  · rw [if_pos wanted] at none
    cases none
  · rw [if_neg wanted] at none
    by_cases first : i = start
    · rw [first]
      exact wanted
    · exact findNotes_none none (by omega) inside
termination_by number - start

end Entries

/-! ## One table -/

section Tables

variable {env : Env} {bytes : List UInt8} {info : ElfInfo} {table : Table}
  {entries : Buffer}

/-- The buffer of the table. -/
structure HoldsBytes (bytes : List UInt8) (info : ElfInfo) (table : Table)
    (entries : Buffer) : Prop where
  fetchable : Fetchable bytes (tableOffset bytes info table)
    (tableSize bytes info table)
  bytes_eq : entries.bytes =
    slice bytes (tableOffset bytes info table) (tableSize bytes info table)

variable (holds : HoldsBytes bytes info table entries)

include holds

theorem HoldsBytes.inside_iff {width i : Nat} {field : Member}
    (inside : i < tableNumber bytes info table) :
    FieldInside info entries width (i * tableEntsize bytes info table) field ↔
      field.offset info.bits + width ≤ bytesFrom bytes info table i := by
  have whole :
      i * tableEntsize bytes info table + bytesFrom bytes info table i =
        tableSize bytes info table := by
    rw [bytesFrom, ← Nat.add_mul, Nat.add_sub_cancel' (Nat.le_of_lt inside),
      tableSize]
  rw [FieldInside, holds.bytes_eq, holds.fetchable.length_eq]
  omega

theorem HoldsBytes.getfield_eq {width i : Nat} {field : Member}
    (host : Endian)
    (inside :
      FieldInside info entries width (i * tableEntsize bytes info table)
        field) :
    getfield host info width entries (i * tableEntsize bytes info table) field =
      entryField bytes info table width i field := by
  obtain ⟨fetched, beyond⟩ := entries
  obtain ⟨fetchable, same⟩ := holds
  dsimp only at same
  subst same
  rw [FieldInside, fetchable.length_eq] at inside
  exact getfield_fetched host info beyond fetchable.length_eq inside

theorem HoldsBytes.index_lt {i : Nat}
    (inside : i < tableNumber bytes info table) :
    i * tableEntsize bytes info table < 2 ^ 31 := by
  have small := holds.fetchable.len_lt
  have below :
      i * tableEntsize bytes info table ≤ tableSize bytes info table :=
    Nat.mul_le_mul_right _ (Nat.le_of_lt inside)
  omega

end Tables

/-! ## Tables with room -/

section Room

variable {env : Env} {bytes : List UInt8} {info : ElfInfo} {table : Table}
  {entries : Buffer}

/-- `find_buildid` returns 0 after it has walked over an area without a build
ID. -/
theorem findBuildid_zero
    {offset len : Nat} {out later : BuildidInfo} {process last : Process}
    (run : findBuildid env info offset len out process =
      .ok (0, later) last) :
    ∃ data next,
      fetchData env offset len process = .ok (some data) next ∧
        Silent env.host info offset data := by
  obtain ⟨fetched, next, fetch, rest⟩ := bind_eq_ok run
  cases fetched with
  | none => cases rest
  | some data =>
      refine ⟨data, next, fetch, evaluate_notFound_iff.mp ?_⟩
      obtain ⟨_, _, _, rest⟩ := bind_eq_ok rest
      obtain ⟨_, _, _, rest⟩ := bind_eq_ok rest
      cases ended :
          evaluate (noteStep env.host info offset data)
            (data.bytes.length + 1) 0 with
      | none =>
          rw [ended] at rest
          cases rest
      | some exit =>
          rw [ended] at rest
          cases exit with
          | found found => cases rest
          | notFound => rfl

variable (holds : HoldsBytes bytes info table entries)
  (fits : ∀ i, i < tableNumber bytes info table →
    (∀ j, j < i → PassedOver bytes info table j) →
      EntryFits bytes info table i)

include holds fits

theorem passedOver_of_other
    {i : Nat} (inside : i < tableNumber bytes info table)
    (passed : ∀ j, j < i → PassedOver bytes info table j)
    (other :
      getfield32 env.host info entries (i * tableEntsize bytes info table)
        table.entryType ≠ table.wanted) :
    PassedOver bytes info table i := by
  have typeInside := (holds.inside_iff inside).mpr (fits i inside passed).type
  intro wanted
  refine absurd ?_ other
  rw [← wanted]
  exact holds.getfield_eq env.host typeInside

/-- The entries before the one that is examined are passed over. -/
theorem passedOver_of_examines
    {start i : Nat}
    (passed : ∀ j, j < start → PassedOver bytes info table j)
    (examines :
      Examines env table entries info (tableNumber bytes info table)
        (tableEntsize bytes info table) start i) :
    ∀ j, j < i → PassedOver bytes info table j := by
  obtain ⟨_, inside, others⟩ := examines
  intro j
  induction j using Nat.strongRecOn with
  | ind j inductionHypothesis =>
      intro before
      rcases Nat.lt_or_ge j start with earlier | later
      · exact passed j earlier
      · exact
          passedOver_of_other holds fits (by omega)
            (fun k smaller => inductionHypothesis k smaller (by omega))
            (others j later before)

/-- What the loop finds, where there is room for it. -/
structure FoundEntry (bytes : List UInt8) (info : ElfInfo) (table : Table)
    (entries : Buffer) (i offset size : Nat) : Prop where
  inside : i < tableNumber bytes info table
  passed : ∀ j, j < i → PassedOver bytes info table j
  offsetInside :
    FieldInside info entries info.bits.addrWidth
      (i * tableEntsize bytes info table) table.entryOffset
  sizeInside :
    FieldInside info entries info.bits.addrWidth
      (i * tableEntsize bytes info table) table.entrySize
  offset_eq : offset = areaOffsetAt bytes info table i
  size_eq : size = areaSizeAt bytes info table i
  area : Fetchable bytes offset size → AreaFits bytes info offset size

theorem foundEntry_of_fits
    {start i offset size : Nat}
    (passed : ∀ j, j < start → PassedOver bytes info table j)
    (found : findNotes env table entries info start
      (tableNumber bytes info table) (tableEntsize bytes info table) =
        some (i, offset, size)) :
    FoundEntry bytes info table entries i offset size := by
  obtain ⟨examines, wanted, offsetEq, sizeEq⟩ := findNotes_some found
  have inside := examines.2.1
  have before := passedOver_of_examines holds fits passed examines
  have entry := fits i inside before
  have typeEq :=
    holds.getfield_eq env.host ((holds.inside_iff inside).mpr entry.type)
  obtain ⟨offsetRoom, sizeRoom, area⟩ := entry.area (typeEq.symm.trans wanted)
  have offsetInside := (holds.inside_iff inside).mpr offsetRoom
  have sizeInside := (holds.inside_iff inside).mpr sizeRoom
  have offsetAt : offset = areaOffsetAt bytes info table i :=
    offsetEq.trans (holds.getfield_eq env.host offsetInside)
  have sizeAt : size = areaSizeAt bytes info table i :=
    sizeEq.trans (holds.getfield_eq env.host sizeInside)
  refine
    ⟨inside, before, offsetInside, sizeInside, offsetAt, sizeAt, ?_⟩
  rw [offsetAt, sizeAt]
  exact area

theorem roundInside_of_fits
    {start : Nat} {process : Process}
    (passed : ∀ j, j < start → PassedOver bytes info table j)
    (sameBytes : process.file.bytes = bytes) :
    RoundInside env table entries info (tableNumber bytes info table)
      (tableEntsize bytes info table) start process where
  index_lt := fun i examines => holds.index_lt examines.2.1
  type := by
    intro i examines
    have entry :=
      fits i examines.2.1 (passedOver_of_examines holds fits passed examines)
    exact (holds.inside_iff examines.2.1).mpr entry.type
  found := by
    intro i offset size found
    have entry := foundEntry_of_fits holds fits passed found
    refine ⟨entry.offsetInside, entry.sizeInside, ?_⟩
    intro data next fetch
    obtain ⟨fetchable, dataEq⟩ := fetchData_some fetch
    rw [sameBytes] at fetchable dataEq
    exact (walkInside_iff dataEq env.host).mpr (entry.area fetchable)

/-- A round that goes on has passed over the entry it found. -/
theorem passedOver_of_found
    {start i offset size : Nat} {out later : BuildidInfo}
    {process last : Process}
    (passed : ∀ j, j < start → PassedOver bytes info table j)
    (sameBytes : process.file.bytes = bytes)
    (found : findNotes env table entries info start
      (tableNumber bytes info table) (tableEntsize bytes info table) =
        some (i, offset, size))
    (run : findBuildid env info offset size out process =
      .ok (0, later) last) :
    (∀ j, j < i + 1 → PassedOver bytes info table j) ∧
      last.file.bytes = bytes := by
  have entry := foundEntry_of_fits holds fits passed found
  obtain ⟨data, next, fetch, silent⟩ := findBuildid_zero run
  obtain ⟨fetchable, dataEq⟩ := fetchData_some fetch
  rw [sameBytes] at fetchable dataEq
  have quiet :=
    (silent_iff dataEq env.host (entry.area fetchable)).mp silent
  constructor
  · intro j before
    rcases Nat.lt_or_ge j i with earlier | here
    · exact entry.passed j earlier
    · have same : j = i := by omega
      subst same
      intro _
      rw [← entry.offset_eq, ← entry.size_eq]
      exact ⟨fetchable, quiet⟩
  · have kept := (findBuildid_keeps env info offset size out).ok run
    exact kept.bytes_eq.trans sameBytes

theorem searchInside_of_fits
    {out : BuildidInfo} {process : Process}
    (sameBytes : process.file.bytes = bytes) :
    SearchInside env table entries info (tableNumber bytes info table)
      (tableEntsize bytes info table) out process := by
  intro start last run
  have reached :
      ∀ state,
        Relation.ReflTransGen
            (RoundPasses env table entries info (tableNumber bytes info table)
              (tableEntsize bytes info table) out) (0, process) state →
          (∀ j, j < state.1 → PassedOver bytes info table j) ∧
            state.2.file.bytes = bytes := by
    intro state run
    induction run with
    | refl => exact ⟨fun j before => absurd before (Nat.not_lt_zero j), sameBytes⟩
    | tail _ passes inductionHypothesis =>
        obtain ⟨i, offset, size, found, area, next⟩ := passes
        rw [next]
        exact
          passedOver_of_found holds fits inductionHypothesis.1
            inductionHypothesis.2 found area
  obtain ⟨passed, lastBytes⟩ := reached _ run
  exact roundInside_of_fits holds fits passed lastBytes

/-- A search that returns 0 has passed over every entry. -/
theorem passedOver_of_searchNotes
    {start : Nat} {rv : Int} {out later : BuildidInfo} {process last : Process}
    (passed : ∀ j, j < start → PassedOver bytes info table j)
    (sameBytes : process.file.bytes = bytes)
    (run : searchNotes env table entries info (tableNumber bytes info table)
      (tableEntsize bytes info table) start rv out process =
        .ok (0, later) last) :
    ∀ j, j < tableNumber bytes info table → PassedOver bytes info table j := by
  cases found :
      findNotes env table entries info start (tableNumber bytes info table)
        (tableEntsize bytes info table) with
  | none =>
      intro j inside
      rcases Nat.lt_or_ge j start with earlier | behind
      · exact passed j earlier
      · have examines :
            Examines env table entries info (tableNumber bytes info table)
              (tableEntsize bytes info table) start j :=
          ⟨behind, inside, fun k above below =>
            findNotes_none found above (by omega)⟩
        exact
          passedOver_of_other holds fits inside
            (passedOver_of_examines holds fits passed examines)
            (findNotes_none found behind inside)
  | some triple =>
      obtain ⟨i, offset, size⟩ := triple
      have bounds := findNotes_bounds found
      rw [searchNotes_of_some found] at run
      obtain ⟨⟨value, next⟩, middle, area, rest⟩ := bind_eq_ok run
      dsimp only at rest
      split at rest
      · next nonzero =>
          cases rest
          exact absurd rfl nonzero
      · next zero =>
          rw [not_not] at zero
          subst zero
          obtain ⟨further, middleBytes⟩ :=
            passedOver_of_found holds fits passed sameBytes found area
          exact passedOver_of_searchNotes further middleBytes rest
termination_by tableNumber bytes info table - start

end Room

/-! ## Room is needed -/

section Needed

variable {env : Env} {bytes : List UInt8} {info : ElfInfo} {table : Table}
  {entries : Buffer} {out : BuildidInfo}

theorem findBuildid_of_silent
    (completes : env.Completes) {offset len : Nat} {process : Process}
    (fetchable : Fetchable process.file.bytes offset len)
    (silent : Silent env.host info offset (process.buffer env offset len)) :
    findBuildid env info offset len out process =
      .ok (0, out) (process.scanned env info offset len) := by
  have ended := evaluate_notFound_iff.mpr silent
  have length : (process.buffer env offset len).bytes.length = len :=
    fetchable.length_eq
  rw [length] at ended
  rw [findBuildid_of_fetchable completes info out fetchable, ended]
  rfl

/-- The entry a round inside of the buffers finds. -/
theorem RoundInside.foundEntry
    (completes : env.Completes) (holds : HoldsBytes bytes info table entries)
    {start i : Nat} {process : Process}
    (round : RoundInside env table entries info (tableNumber bytes info table)
      (tableEntsize bytes info table) start process)
    (sameBytes : process.file.bytes = bytes)
    (examines :
      Examines env table entries info (tableNumber bytes info table)
        (tableEntsize bytes info table) start i)
    (wanted :
      getfield32 env.host info entries (i * tableEntsize bytes info table)
        table.entryType = table.wanted) :
    findNotes env table entries info start (tableNumber bytes info table)
        (tableEntsize bytes info table) =
      some (i, areaOffsetAt bytes info table i,
        areaSizeAt bytes info table i) ∧
    FieldInside info entries info.bits.addrWidth
      (i * tableEntsize bytes info table) table.entryOffset ∧
    FieldInside info entries info.bits.addrWidth
      (i * tableEntsize bytes info table) table.entrySize ∧
    (Fetchable bytes (areaOffsetAt bytes info table i)
        (areaSizeAt bytes info table i) →
      AreaFits bytes info (areaOffsetAt bytes info table i)
        (areaSizeAt bytes info table i)) := by
  have found := findNotes_of_examines examines wanted
  obtain ⟨offsetInside, sizeInside, area⟩ := round.found _ _ _ found
  have offsetEq := holds.getfield_eq env.host offsetInside
  have sizeEq := holds.getfield_eq env.host sizeInside
  rw [getaddr, offsetEq, sizeEq] at found area
  refine ⟨found, offsetInside, sizeInside, ?_⟩
  intro fetchable
  have here :
      Fetchable process.file.bytes (areaOffsetAt bytes info table i)
        (areaSizeAt bytes info table i) := by
    rw [sameBytes]
    exact fetchable
  have fetch :=
    fetchData_of_completes completes (areaOffsetAt bytes info table i)
      (areaSizeAt bytes info table i) process
  rw [if_pos here] at fetch
  exact (walkInside_iff (congrArg (slice · _ _) sameBytes) env.host).mp
    (area _ _ fetch)

variable (completes : env.Completes)
  (holds : HoldsBytes bytes info table entries) {process : Process}
  (inside : SearchInside env table entries info
    (tableNumber bytes info table) (tableEntsize bytes info table) out process)
  (sameBytes : process.file.bytes = bytes)

include completes holds inside sameBytes

/-- The loop comes to an entry if the ones before it are passed over. -/
theorem examines_of_passedOver :
    ∀ {i : Nat}, i ≤ tableNumber bytes info table →
      (∀ j, j < i → PassedOver bytes info table j) →
        ∃ start last,
          Relation.ReflTransGen
              (RoundPasses env table entries info
                (tableNumber bytes info table)
                (tableEntsize bytes info table) out)
              (0, process) (start, last) ∧
            start ≤ i ∧ last.file.bytes = bytes ∧
            ∀ j, start ≤ j → j < i →
              getfield32 env.host info entries
                  (j * tableEntsize bytes info table) table.entryType ≠
                table.wanted
  | 0, _, _ =>
      ⟨0, process, .refl, Nat.le_refl 0, sameBytes,
        fun j _ below => absurd below (Nat.not_lt_zero j)⟩
  | i + 1, within, passed => by
      obtain ⟨start, last, run, le, lastBytes, others⟩ :=
        examines_of_passedOver (Nat.le_of_succ_le within) fun j before =>
          passed j (by omega)
      have examines :
          Examines env table entries info (tableNumber bytes info table)
            (tableEntsize bytes info table) start i :=
        ⟨le, within, others⟩
      have round := inside start last run
      have typeEq := holds.getfield_eq env.host (round.type i examines)
      by_cases wanted :
          getfield32 env.host info entries
              (i * tableEntsize bytes info table) table.entryType =
            table.wanted
      · obtain ⟨found, _, _, area⟩ :=
          round.foundEntry completes holds lastBytes examines wanted
        obtain ⟨fetchable, quiet⟩ :=
          passed i (Nat.lt_succ_self i) (typeEq.symm.trans wanted)
        have silent :
            Silent env.host info (areaOffsetAt bytes info table i)
              (last.buffer env (areaOffsetAt bytes info table i)
                (areaSizeAt bytes info table i)) :=
          (silent_iff (congrArg (slice · _ _) lastBytes) env.host
            (area fetchable)).mpr quiet
        have here :
            Fetchable last.file.bytes (areaOffsetAt bytes info table i)
              (areaSizeAt bytes info table i) := by
          rw [lastBytes]
          exact fetchable
        refine
          ⟨i + 1, last.scanned env info _ _,
            run.tail
              ⟨i, _, _, found,
                findBuildid_of_silent completes here silent, rfl⟩,
            Nat.le_refl _, (last.fetched_bytes _ _).trans lastBytes, ?_⟩
        intro j above below
        omega
      · refine ⟨start, last, run, by omega, lastBytes, ?_⟩
        intro j above below
        by_cases here : j = i
        · rw [here]
          exact wanted
        · exact others j above (by omega)

/-- A table whose search stays inside of the buffers has room. -/
theorem entryFits_of_inside
    {i : Nat} (within : i < tableNumber bytes info table)
    (passed : ∀ j, j < i → PassedOver bytes info table j) :
    EntryFits bytes info table i := by
  obtain ⟨start, last, run, le, lastBytes, others⟩ :=
    examines_of_passedOver completes holds inside sameBytes
      (Nat.le_of_lt within) passed
  have examines :
      Examines env table entries info (tableNumber bytes info table)
        (tableEntsize bytes info table) start i :=
    ⟨le, within, others⟩
  have round := inside start last run
  have typeInside := round.type i examines
  refine ⟨(holds.inside_iff within).mp typeInside, ?_⟩
  intro wanted
  rw [entryTypeAt, ← holds.getfield_eq env.host typeInside] at wanted
  obtain ⟨_, offsetInside, sizeInside, area⟩ :=
    round.foundEntry completes holds lastBytes examines wanted
  exact
    ⟨(holds.inside_iff within).mp offsetInside,
      (holds.inside_iff within).mp sizeInside, area⟩

/-- A table that is passed to its end leaves `rv` 0. -/
theorem searchNotes_of_passed
    (passed : ∀ j, j < tableNumber bytes info table →
      PassedOver bytes info table j) :
    ∃ last,
      searchNotes env table entries info (tableNumber bytes info table)
          (tableEntsize bytes info table) 0 0 out process =
        .ok (0, out) last ∧ last.file.bytes = bytes := by
  obtain ⟨start, last, run, le, lastBytes, others⟩ :=
    examines_of_passedOver completes holds inside sameBytes (Nat.le_refl _)
      passed
  refine ⟨last, ?_, lastBytes⟩
  have same :
      ∀ state,
        Relation.ReflTransGen
            (RoundPasses env table entries info
              (tableNumber bytes info table) (tableEntsize bytes info table)
              out) (0, process) state →
          searchNotes env table entries info (tableNumber bytes info table)
              (tableEntsize bytes info table) 0 0 out process =
            searchNotes env table entries info (tableNumber bytes info table)
              (tableEntsize bytes info table) state.1 0 out state.2 := by
    intro state run
    induction run with
    | refl => rfl
    | tail _ passes inductionHypothesis =>
        rw [inductionHypothesis]
        exact searchNotes_of_passes passes 0
  rw [same _ run]
  have none :
      findNotes env table entries info start (tableNumber bytes info table)
        (tableEntsize bytes info table) = none := by
    cases found :
        findNotes env table entries info start (tableNumber bytes info table)
          (tableEntsize bytes info table) with
    | none => rfl
    | some triple =>
        obtain ⟨i, offset, size⟩ := triple
        obtain ⟨⟨above, below, _⟩, wanted, _⟩ := findNotes_some found
        exact absurd wanted (others i above below)
  rw [searchNotes_of_none none]
  rfl

end Needed

end KernelStuff.Editbuildid
