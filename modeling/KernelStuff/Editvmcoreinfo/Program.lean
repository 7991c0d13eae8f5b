import KernelStuff.Library.Effects
import KernelStuff.Library.ElfHeaders
import KernelStuff.Library.Platform

/-!
# The program editvmcoreinfo

The program reads the headers and the notes of a core file, writes the program
headers back with the sizes of the new note, saves what follows the old note in
a temporary file, cuts the core file off at the old note, and appends the new
note and what was saved.

Each system call has its outcome given by the environment.  The process keeps a
record of the changes that were made to the core file.
-/

namespace KernelStuff.Editvmcoreinfo

open KernelStuff.Library

/-- What the program does not determine: the outcome of each system call and the
part each `sendfile` transfers, the memory after the notes, and after how many
rounds a loop is given up. -/
structure Env where
  outcome : Nat → CallOutcome
  sent : Nat → CallOutcome
  beyond : Nat → UInt8
  fuel : Nat

/-- A change of the core file. -/
inductive Change where
  | wrote (pos : Nat) (data : List UInt8)
  | truncated (length : Nat)
  deriving DecidableEq

/-- `elf_fd` and `tmpfd`. -/
inductive Fd where
  | elf
  | tmp
  deriving DecidableEq

structure Process where
  elf : ByteFile
  tmp : ByteFile
  calls : Nat
  changes : List Change

/-- The process when `main` starts. -/
def Process.initial (bytes : List UInt8) : Process where
  elf := ⟨bytes, 0⟩
  tmp := ⟨[], 0⟩
  calls := 0
  changes := []

def Process.file (process : Process) : Fd → ByteFile
  | .elf => process.elf
  | .tmp => process.tmp

def Process.seek (process : Process) (fd : Fd) (pos : Nat) : Process :=
  match fd with
  | .elf => { process with elf.pos := pos }
  | .tmp => { process with tmp.pos := pos }

/-- Write at the position of the descriptor, and move it. -/
def Process.wrote (process : Process) (fd : Fd) (data : List UInt8) :
    Process :=
  let file := process.file fd
  let after : ByteFile :=
    ⟨overwrite file.bytes file.pos data, file.pos + data.length⟩
  match fd with
  | .elf =>
      { process with
        elf := after
        changes := process.changes ++ [.wrote file.pos data] }
  | .tmp => { process with tmp := after }

/-- `main` does not return: the assertion fails, a null pointer is read, or a
loop was given up. -/
inductive Fault where
  | aborted
  | segfault
  | spins
  deriving DecidableEq

abbrev Program := EStateM Fault Process

section Calls

variable (env : Env)

/-! ## System calls -/

def nextOutcome (outcome : Nat → CallOutcome) : Program CallOutcome := do
  let process ← get
  set { process with calls := process.calls + 1 }
  return outcome process.calls

/-- `open`, `mkstemp` or `unlink`. -/
def succeeds : Program Bool := do
  return (← nextOutcome env.outcome) ≠ .failure

/-- With `SEEK_SET`.  An `off_t` from `2 ^ 63` on is negative. -/
def lseek (fd : Fd) (offset : Nat) : Program Bool := do
  let outcome ← nextOutcome env.outcome
  if outcome = .failure ∨ 2 ^ 63 ≤ offset then return false
  modify fun process => process.seek fd offset
  return true

/-- With `SEEK_END`. -/
def lseekEnd (fd : Fd) : Program (Option Nat) := do
  let outcome ← nextOutcome env.outcome
  let process ← get
  let length := (process.file fd).bytes.length
  if outcome = .failure ∨ 2 ^ 63 ≤ length then return none
  set (process.seek fd length)
  return some length

def read (fd : Fd) (count : Nat) : Program (Option (List UInt8)) := do
  let outcome ← nextOutcome env.outcome
  if outcome = .failure then return none
  let process ← get
  let file := process.file fd
  let bytes := slice file.bytes file.pos (outcome.limit count)
  set (process.seek fd (file.pos + bytes.length))
  return some bytes

def write (fd : Fd) (data : List UInt8) : Program (Option Nat) := do
  let outcome ← nextOutcome env.outcome
  if outcome = .failure then return none
  let written := data.take (outcome.limit data.length)
  modify fun process => process.wrote fd written
  return some written.length

def sendfile (dst src : Fd) (count : Nat) : Program (Option Nat) := do
  let outcome ← nextOutcome env.sent
  if outcome = .failure then return none
  let process ← get
  let file := process.file src
  let bytes := slice file.bytes file.pos (outcome.limit count)
  set ((process.seek src (file.pos + bytes.length)).wrote dst bytes)
  return some bytes.length

/-- Of the core file. -/
def ftruncate (length : Nat) : Program Bool := do
  let outcome ← nextOutcome env.outcome
  if outcome = .failure ∨ 2 ^ 63 ≤ length then return false
  modify fun process =>
    { process with
      elf.bytes := truncate process.elf.bytes length
      changes := process.changes ++ [.truncated length] }
  return true

/-! ## Notes -/

def pad4 (val : Nat) : Nat :=
  if val % 4 ≠ 0 then val / 4 * 4 + 4 else val

/-- `sizeof(struct elf_notehdr)`. -/
def nhdrSize : Nat := 12

section Notes

variable (notes : Buffer) (nhdr : Nat)

def nameszAt : Nat := littleDecode (notes.read nhdr 4)
def descszAt : Nat := littleDecode (notes.read (nhdr + 4) 4)
def typeAt : Nat := littleDecode (notes.read (nhdr + 8) 4)

/-- The memory the name is compared with. -/
def nameAt (i : Nat) : UInt8 := notes.byte (nhdr + nhdrSize + i)

def noteDesc : Nat := nhdr + nhdrSize + pad4 (nameszAt notes nhdr)

def nextNote : Nat :=
  nhdr + nhdrSize +
    (pad4 (nameszAt notes nhdr) + pad4 (descszAt notes nhdr))

end Notes

def endNotes (len ptr : Nat) : Bool := decide (len ≤ ptr)

/-- `"VMCOREINFO"`. -/
def vmcoreinfo : List UInt8 := [86, 77, 67, 79, 82, 69, 73, 78, 70, 79]

def isVmcoreinfo (notes : Buffer) (nhdr : Nat) : Bool :=
  strcmpEq vmcoreinfo (nameAt notes nhdr) && typeAt notes nhdr == 0

theorem lt_nextNote (notes : Buffer) (nhdr : Nat) :
    nhdr + nhdrSize ≤ nextNote notes nhdr := by
  rw [nextNote]
  omega

/-- The loop over the notes: each one that is found replaces the one before. -/
def lastVmcoreinfo (notes : Buffer) (nhdr : Nat) (found : Option Nat) :
    Option Nat :=
  if endNotes notes.bytes.length nhdr then found
  else
    lastVmcoreinfo notes (nextNote notes nhdr)
      (if isVmcoreinfo notes nhdr then some nhdr else found)
termination_by notes.bytes.length - nhdr
decreasing_by
  have forward := lt_nextNote notes nhdr
  rename_i notEnded
  rw [endNotes, decide_eq_true_iff] at notEnded
  rw [nhdrSize] at forward
  omega

/-! ## Reading the core file -/

/-- `struct saved_elfdata`; `viNote` is an offset into `notes`. -/
structure SavedElfdata where
  ehdr : Elf64Ehdr
  phdr : List Elf64Phdr
  notes : Buffer
  viNote : Nat
  notesStart : Nat
  notesLen : Nat
  notesSeg : Nat
  viNoteStart : Nat
  viNoteEnd : Nat
  oldDescsz : Nat

/-- `PT_NOTE`. -/
def ptNote : UInt32 := 4

/-- The checks of `e_ident`: the magic number, the class and the byte order. -/
def identSupported (ident : List UInt8) : Bool :=
  slice ident 0 4 == [0x7f, 69, 76, 70] && ident.getD 4 0 == 2 &&
    ident.getD 5 0 == 1

/-- The first segment of notes from index `i` on, with its index. -/
def firstNotes : Nat → List Elf64Phdr → Option (Nat × Elf64Phdr)
  | _, [] => none
  | i, phdr :: rest =>
      if phdr.pType ≠ ptNote then firstNotes (i + 1) rest
      else some (i, phdr)

def assertThat (condition : Prop) [Decidable condition] : Program PUnit :=
  if condition then pure () else throw .aborted

/-- The first part of `read_elfdata`: the file header, checked, and the program
headers. -/
def readPhdrs : Program (Option (Elf64Ehdr × List Elf64Phdr)) := do
  let some bytes ← read env .elf elf64EhdrSize | return none
  if sizeT (intOf bytes.length) ≠ elf64EhdrSize then return none
  let ehdr := Elf64Ehdr.decode bytes
  if !identSupported ehdr.eIdent then return none
  if ehdr.eShentsize ≠ 0 then return none
  let n := ehdr.ePhnum.toNat
  assertThat (elf64PhdrSize = ehdr.ePhentsize.toNat)
  let sz := ehdr.ePhentsize.toNat * ehdr.ePhnum.toNat
  if !(← lseek env .elf ehdr.ePhoff.toNat) then return none
  let some table ← read env .elf sz | return none
  if sizeT (intOf table.length) ≠ sz then return none
  return some (ehdr, Elf64Phdr.decodeTable n table)

/-- The part of `read_elfdata` that reads the notes. -/
def readNotes (notesStart notesLen : Nat) : Program (Option Buffer) := do
  if !(← lseek env .elf notesStart) then return none
  if 2 ^ 63 ≤ notesLen then
    -- Without memory the read fails, and `-1` is the largest `size_t`.
    if sizeT (-1) ≠ notesLen then return none
    else throw .segfault
  else
    let some bytes ← read env .elf notesLen | return none
    if sizeT (intOf bytes.length) ≠ notesLen then return none
    return some ⟨bytes, env.beyond⟩

def readElfdata : Program (Option SavedElfdata) := do
  let some (ehdr, phdr) ← readPhdrs env | return none
  let some (i, segment) := firstNotes 0 phdr | return none
  let notesStart := segment.pOffset.toNat
  let notesLen := segment.pFilesz.toNat
  let some notes ← readNotes env notesStart notesLen | return none
  let some nhdr := lastVmcoreinfo notes 0 none | return none
  let descsz := descszAt notes nhdr
  return some {
    ehdr := ehdr
    phdr := phdr
    notes := notes
    viNote := nhdr
    notesStart := notesStart
    notesLen := notesLen
    notesSeg := i
    viNoteStart := nhdr
    viNoteEnd :=
      nhdr + nhdrSize + pad4 descsz + pad4 (nameszAt notes nhdr)
    oldDescsz := descsz }

/-! ## Editing -/

/-- Sizes are `ssize_t`, and their difference is added modulo `2 ^ 64`. -/
def sizediff (oldDescsz newdescsz : Nat) : UInt64 :=
  .ofNat (pad4 newdescsz) - .ofNat (pad4 oldDescsz)

/-- What becomes of the `i`-th program header. -/
def shiftPhdr (notesSeg : Nat) (sizediff : UInt64) (i : Nat)
    (phdr : Elf64Phdr) : Elf64Phdr :=
  if i = notesSeg then
    { phdr with
      pFilesz := phdr.pFilesz + sizediff
      pMemsz :=
        if phdr.pMemsz ≠ 0 then phdr.pMemsz + sizediff else phdr.pMemsz }
  else if notesSeg < i then { phdr with pOffset := phdr.pOffset + sizediff }
  else phdr

def shiftPhdrs (se : SavedElfdata) (newdescsz : Nat) : List Elf64Phdr :=
  se.phdr.mapIdx (shiftPhdr se.notesSeg (sizediff se.oldDescsz newdescsz))

def updateOffsets (se : SavedElfdata) (newdescsz : Nat) : Program Bool := do
  let phdr := shiftPhdrs se newdescsz
  let sz := se.ehdr.ePhentsize.toNat * se.ehdr.ePhnum.toNat
  if !(← lseek env .elf se.ehdr.ePhoff.toNat) then return false
  let some rv ← write env .elf (Elf64Phdr.encodeTable phdr) | return false
  if sizeT (intOf rv) ≠ sz then return false
  return true

/-- The `do` loop from `cur` on. -/
def sendfileRounds (dst src : Fd) (amt : Nat) : Nat → Nat → Program Bool
  | 0, _ => throw .spins
  | fuel + 1, cur => do
      let some rv ← sendfile env dst src (amt - cur) | return false
      let cur := cur + rv
      if cur < amt then sendfileRounds dst src amt fuel cur else return true

def sendfileLoop (dst src : Fd) (amt : Nat) : Program Bool :=
  sendfileRounds env dst src amt env.fuel 0

/-- The note `shift_data` puts together. -/
def newNote (se : SavedElfdata) (newdesc : List UInt8) : List UInt8 :=
  let namesz := nameszAt se.notes se.viNote
  let sz := nhdrSize + pad4 namesz + pad4 newdesc.length
  let zeroed := List.replicate sz 0
  let named :=
    overwrite zeroed 0 (se.notes.read se.viNote (nhdrSize + pad4 namesz))
  let sized := overwrite named 4 (littleEncode 4 newdesc.length)
  overwrite sized (nhdrSize + pad4 namesz) newdesc

/-- The first part of `shift_data`: what follows the old note goes to the
temporary file. -/
def saveTail (se : SavedElfdata) : Program (Option Nat) := do
  let some length ← lseekEnd env .elf | return none
  let offset := (se.notesStart + se.viNoteEnd) % 2 ^ 64
  if !(← lseek env .elf offset) then return none
  -- `mkstemp` and `unlink`
  if !(← succeeds env) then return none
  if !(← succeeds env) then return none
  let savesz := (length + 2 ^ 64 - offset) % 2 ^ 64
  if !(← sendfileLoop env .tmp .elf savesz) then return none
  return some savesz

/-- The last part of `shift_data`, after the core file was cut off. -/
def appendNote (newnote : List UInt8) (savesz : Nat) : Program Bool := do
  let some _ ← lseekEnd env .elf | return false
  if !(← lseek env .tmp 0) then return false
  let some rv ← write env .elf newnote | return false
  if rv ≠ newnote.length then return false
  sendfileLoop env .elf .tmp savesz

def shiftData (se : SavedElfdata) (newdesc : List UInt8) : Program Bool := do
  let some savesz ← saveTail env se | return false
  if !(← ftruncate env ((se.notesStart + se.viNoteStart) % 2 ^ 64)) then
    return false
  appendNote env (newNote se newdesc) savesz

/-- The content of the file with the new vmcoreinfo, if it can be read, and a
NUL. -/
def readNewdata (content : Option (List UInt8)) : Option (List UInt8) :=
  content.map (· ++ [0])

/-- The rest of `main`. -/
def editFile (newdata : List UInt8) : Program Int := do
  if !(← succeeds env) then return 1
  let some se ← readElfdata env | return 1
  if !(← updateOffsets env se newdata.length) then return 1
  if !(← shiftData env se newdata) then return 1
  return 0

/-- `main` with two arguments. -/
def main (content : Option (List UInt8)) : Program Int :=
  match readNewdata content with
  | none => return 1
  | some newdata => editFile env newdata

end Calls

/-! ## Examples -/

/-- A core file with one program header, and the note in its segment. -/
def exampleCore : List UInt8 :=
  [0x7f, 69, 76, 70, 2, 1, 1, 0, 0, 0, 0, 0, 0, 0, 0, 0,
    4, 0, 62, 0, 1, 0, 0, 0, 0, 0, 0, 0, 0, 0, 0, 0,
    64, 0, 0, 0, 0, 0, 0, 0, 0, 0, 0, 0, 0, 0, 0, 0,
    0, 0, 0, 0, 64, 0, 56, 0, 1, 0, 0, 0, 0, 0, 0, 0,
    4, 0, 0, 0, 0, 0, 0, 0, 120, 0, 0, 0, 0, 0, 0, 0,
    0, 0, 0, 0, 0, 0, 0, 0, 0, 0, 0, 0, 0, 0, 0, 0,
    28, 0, 0, 0, 0, 0, 0, 0, 28, 0, 0, 0, 0, 0, 0, 0,
    4, 0, 0, 0, 0, 0, 0, 0,
    11, 0, 0, 0, 2, 0, 0, 0, 0, 0, 0, 0,
    86, 77, 67, 79, 82, 69, 73, 78, 70, 79, 0, 0, 65, 0, 0, 0]

end KernelStuff.Editvmcoreinfo
