import KernelStuff.Editbuildid.Notes
import KernelStuff.Library.Effects

/-!
# The program editbuildid

The search for the build ID, the write of the new one, and `main` after the
options have been parsed.  Each system call has its outcome given by the
environment, and so have the locals and the heap memory nobody has initialised.

The process keeps a record of the parts of the file that were looked at.
-/

namespace KernelStuff.Editbuildid

open KernelStuff.Library

/-- What the program does not determine: the platform, the outcome of each
system call, the memory after the buffer of each call, and `rv` of the two
searches before it is assigned. -/
structure Env where
  host : Endian
  outcome : Nat → CallOutcome
  beyond : Nat → Nat → UInt8
  phdrRv : Int
  shdrRv : Int

/-- A range of the file: its offset and length. -/
abbrev Range := Nat × Nat

structure Process where
  file : ByteFile
  calls : Nat
  stdout : List (Option (List UInt8))
  inspected : List Range
  areas : List Range

/-- The process when `main` starts. -/
def Process.initial (bytes : List UInt8) : Process where
  file := ⟨bytes, 0⟩
  calls := 0
  stdout := []
  inspected := []
  areas := []

/-- A loop that repeats itself for ever. -/
inductive Spin where
  | spins
  deriving DecidableEq

abbrev Program := EStateM Spin Process

section Calls

variable (env : Env)

/-! ## System calls -/

def nextOutcome : Program CallOutcome := do
  let process ← get
  set { process with calls := process.calls + 1 }
  return env.outcome process.calls

def openFile : Program Bool := do
  return (← nextOutcome env) ≠ .failure

/-- An `off_t` from `2 ^ 63` on is negative. -/
def lseek (offset : Nat) : Program Bool := do
  let outcome ← nextOutcome env
  if outcome = .failure ∨ 2 ^ 63 ≤ offset then return false
  modify fun process => { process with file.pos := offset }
  return true

/-- Returns the value of the call and the bytes. -/
def read (count : Nat) : Program (Int × List UInt8) := do
  let outcome ← nextOutcome env
  if outcome = .failure then return (-1, [])
  let process ← get
  let bytes :=
    slice process.file.bytes process.file.pos (outcome.limit count)
  set { process with file.pos := process.file.pos + bytes.length }
  return (intOf bytes.length, bytes)

def write (data : List UInt8) : Program Int := do
  let outcome ← nextOutcome env
  if outcome = .failure then return -1
  let process ← get
  let written := data.take (outcome.limit data.length)
  set { process with
    file :=
      ⟨overwrite process.file.bytes process.file.pos written,
        process.file.pos + written.length⟩ }
  return intOf written.length

def inspect (ranges : List Range) : Program PUnit :=
  modify fun process =>
    { process with inspected := process.inspected ++ ranges }

/-! ## Search -/

/-- `calloc` of more than `PTRDIFF_MAX` bytes fails, and then so does the `read`
into it. -/
def fetchData (offset len : Nat) : Program (Option Buffer) := do
  if !(← lseek env offset) then return none
  let process ← get
  let (rv, bytes) ← read env len
  if sizeT rv ≠ len ∨ 2 ^ 63 ≤ len then return none
  return some ⟨bytes, env.beyond process.calls⟩

/-- What the walk has looked at: the headers, and the names as far as they were
compared. -/
def inspectedNotes (info : ElfInfo) (offset : Nat) (data : Buffer) :
    List Range :=
  ((trail (noteStep env.host info offset data) (data.bytes.length + 1) 0).filter
      fun nhdr => !endNotes data.bytes.length nhdr).flatMap
    fun nhdr =>
      [(offset + nhdr, nhdrSize),
        (offset + nhdr + nhdrSize, strcmpReads gnu (nameAt data nhdr))]

def findBuildid (info : ElfInfo) (offset len : Nat) (out : BuildidInfo) :
    Program (Int × BuildidInfo) := do
  let some data ← fetchData env offset len | return (-1, out)
  modify fun process =>
    { process with areas := process.areas ++ [(offset, len)] }
  inspect (inspectedNotes env info offset data)
  match evaluate (noteStep env.host info offset data)
      (data.bytes.length + 1) 0 with
  | some (.found found) => return (1, found)
  | some .notFound => return (0, out)
  | none => throw .spins

/-- What the program headers and the section headers differ in: the members of
the file header and of an entry, and the type that is looked for. -/
structure Table where
  number : Member
  offset : Member
  entsize : Member
  entryType : Member
  entryOffset : Member
  entrySize : Member
  wanted : Nat

def phdrTable : Table where
  number := ePhnum
  offset := ePhoff
  entsize := ePhentsize
  entryType := pType
  entryOffset := pOffset
  entrySize := pFilesz
  wanted := ptNote

def shdrTable : Table where
  number := eShnum
  offset := eShoff
  entsize := eShentsize
  entryType := shType
  entryOffset := shOffset
  entrySize := shSize
  wanted := shtNote

/-- The first entry of the wanted type from `start` on, with the offset and size
of its area.  The products `i * entsize` do not overflow: the size of the whole
table has been an `int`. -/
def findNotes (table : Table) (entries : Buffer) (info : ElfInfo)
    (start number entsize : Nat) : Option (Nat × Nat × Nat) :=
  ((List.range' start (number - start)).find? fun i =>
    getfield32 env.host info entries (i * entsize) table.entryType ==
      table.wanted).map fun i =>
        (i, getaddr env.host info entries (i * entsize) table.entryOffset,
          getaddr env.host info entries (i * entsize) table.entrySize)

def findNotesPhdr := findNotes env phdrTable
def findNotesShdr := findNotes env shdrTable

variable {env} in
theorem findNotes_bounds
    {table : Table} {entries : Buffer} {info : ElfInfo}
    {start number entsize i offset size : Nat}
    (found : findNotes env table entries info start number entsize =
      some (i, offset, size)) :
    start ≤ i ∧ i < number := by
  obtain ⟨j, first, shape⟩ := Option.map_eq_some_iff.mp found
  have member := List.mem_range'_1.mp (List.mem_of_find?_eq_some first)
  cases shape
  omega

/-- The loop over the note areas of a table. -/
def searchNotes (table : Table) (entries : Buffer) (info : ElfInfo)
    (number entsize : Nat) (start : Nat) (rv : Int) (out : BuildidInfo) :
    Program (Int × BuildidInfo) :=
  match _found : findNotes env table entries info start number entsize with
  | none => return (rv, out)
  | some (i, offset, size) => do
      let (rv, out) ← findBuildid env info offset size out
      if rv ≠ 0 then return (rv, out)
      searchNotes table entries info number entsize (i + 1) rv out
termination_by number - start
decreasing_by
  have bounds := findNotes_bounds _found
  omega

/-- Search the areas a table declares.  `rv` is not initialised. -/
def findBuildidTable (table : Table) (rv : Int) (info : ElfInfo)
    (ehdr : Buffer) (out : BuildidInfo) : Program (Int × BuildidInfo) := do
  let number := getfield16 env.host info ehdr 0 table.number
  let offset := getaddr env.host info ehdr 0 table.offset
  let entsize := getfield16 env.host info ehdr 0 table.entsize
  if number = 0 then return (0, out)
  let size := sizeT (intOf (number * entsize))
  let some entries ← fetchData env offset size | return (-1, out)
  inspect [(offset, size)]
  searchNotes env table entries info number entsize 0 rv out

def findBuildidPhdr := findBuildidTable env phdrTable env.phdrRv
def findBuildidShdr := findBuildidTable env shdrTable env.shdrRv

/-- The class and byte order in `e_ident`, if they are supported. -/
def elfInfo (ident : Buffer) : Option ElfInfo :=
  if ident.read 0 4 ≠ [0x7f, 69, 76, 70] then none
  else
    match
      (if ident.byte eiClass = 1 then some ElfClass.elf32
        else if ident.byte eiClass = 2 then some ElfClass.elf64
        else none),
      (if ident.byte eiData = 1 then some Endian.little
        else if ident.byte eiData = 2 then some Endian.big
        else none) with
    | some bits, some endian => some ⟨endian, bits⟩
    | _, _ => none

def findBuildId (out : BuildidInfo) : Program (Int × BuildidInfo) := do
  let process ← get
  let (rv, bytes) ← read env ehdrSize
  if rv ≠ ehdrSize then return (-1, out)
  inspect [(0, ehdrSize)]
  let ehdr : Buffer := ⟨bytes, env.beyond process.calls⟩
  let some info := elfInfo ehdr | return (-1, out)
  let (rv, out) ← findBuildidPhdr env info ehdr out
  if rv ≠ 0 then return (rv, out)
  findBuildidShdr env info ehdr out

/-! ## Editing -/

def writeNewBuildid (offset : Nat) (data : List UInt8) : Program Int := do
  if !(← lseek env offset) then return -1
  let _ ← write env data
  return 0

/-- `from_hex` of the argument of `-n`, if it has an even length. -/
def newidBytes (newidHex : List UInt8) : Option (List UInt8) :=
  if newidHex.length % 2 = 0 then fromHex newidHex (intOf newidHex.length)
  else none

/-- `main` with `-p`, with `-n`, or with neither or both, and one file. -/
def main (print : Bool) (newidHex : Option (List UInt8)) : Program Int := do
  if print ∧ newidHex.isSome then return 1
  if ¬ (print ∨ newidHex.isSome) then return 1
  if !(← openFile env) then return 1
  let (rv, info) ← findBuildId env .zero
  if rv < 0 then return rv
  if rv = 0 then return rv
  if print then
    modify fun process =>
      { process with stdout := process.stdout ++ [info.hex] }
    return 0
  match newidBytes (newidHex.getD []) with
  | none => return 1
  | some bytes =>
      if (newidHex.getD []).length / 2 ≠ info.bytesSize then return 1
      writeNewBuildid env info.dataOffset bytes

end Calls

/-- The status the parent process gets. -/
def exitStatus (rv : Int) : Nat := (rv % 2 ^ 8).toNat

end KernelStuff.Editbuildid
