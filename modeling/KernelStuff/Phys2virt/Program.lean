import KernelStuff.Library.Effects
import KernelStuff.Library.Endian
import KernelStuff.Library.Platform

/-!
# The program phys2virt

The program reads the table of program headers of a core file into memory, goes
over the entries, and writes the table back.
-/

namespace KernelStuff.Phys2virt

open KernelStuff.Library

/-- The machine the program runs on, and how each of its calls ends.  What
`fwrite` has taken reaches the file when the stream is flushed. -/
structure Env where
  host : Endian
  opens : Bool
  readsHeader : CallOutcome
  seeks : Bool
  allocates : Bool
  readsTable : CallOutcome
  seeksBack : Bool
  writes : CallOutcome
  flushes : CallOutcome

/-- `exit(EXIT_FAILURE)`, with the message. -/
inductive Exit where
  | fail (msg : String)
  | perrorFail (pfx : String)
  deriving DecidableEq

abbrev Program := EStateM Exit ByteFile

/-- Exit unless the condition holds. -/
def require (condition : Bool) (exit : Exit) : Program PUnit :=
  if condition then pure () else throw exit

/-! ## Calls -/

/-- The bytes that were read, and the number of complete items. -/
def fread (outcome : CallOutcome) (size nmemb : Nat) :
    Program (List UInt8 × Nat) := do
  let file ← get
  let bytes := slice file.bytes file.pos (outcome.limit (size * nmemb))
  set { file with pos := file.pos + bytes.length }
  return (bytes, bytes.length / size)

/-- With `SEEK_SET`.  An `off_t` from `2 ^ 63` on is negative. -/
def fseek (succeeds : Bool) (offset : Nat) : Program Bool := do
  if !succeeds ∨ 2 ^ 63 ≤ offset then return false
  modify fun file => { file with pos := offset }
  return true

/-- The number of complete items that were taken.  A part of them reaches the
file, at the latest when the stream is closed. -/
def fwrite (outcome flushed : CallOutcome) (data : List UInt8) (size : Nat) :
    Program Nat := do
  let taken := data.take (outcome.limit data.length)
  let written := taken.take (flushed.limit taken.length)
  modify fun file =>
    ⟨overwrite file.bytes file.pos written, file.pos + taken.length⟩
  return taken.length / size

/-! ## Headers -/

/-- `ELFMAG`. -/
def elfMag : List UInt8 := [0x7f, 69, 76, 70]

/-- `ELFCLASS64`. -/
def elfClass64 : UInt8 := 2

/-- `ELFDATA2LSB` and `ELFDATA2MSB`. -/
def elfData : Endian → UInt8
  | .little => 1
  | .big => 2

/-- `sizeof(Elf64_Ehdr)` and `sizeof(Elf64_Phdr)`. -/
def ehdrSize : Nat := 64
def phdrSize : Nat := 56

/-- A field of `width` bytes, swapped unless the file has the byte order of the
machine. -/
def field (host : Endian) (hdr : List UInt8) (pos width : Nat) : Nat :=
  let value := host.decode (slice hdr pos width)
  if elfData host ≠ hdr.getD 5 0 then byteSwap width value else value

def phoff (host : Endian) (hdr : List UInt8) : Nat := field host hdr 32 8
def phentsize (host : Endian) (hdr : List UInt8) : Nat := field host hdr 54 2
def phnum (host : Endian) (hdr : List UInt8) : Nat := field host hdr 56 2

/-- `phdrs[i].p_paddr`. -/
def pPaddr (host : Endian) (phdrs : List UInt8) (i : Nat) : Nat :=
  host.decode (slice phdrs (phdrSize * i + 24) 8)

/-- Assign to `phdrs[i].p_vaddr`. -/
def setVaddr (host : Endian) (phdrs : List UInt8) (i value : Nat) :
    List UInt8 :=
  overwrite phdrs (phdrSize * i + 16) (host.encode 8 value)

/-- The body of the loop. -/
def updatePhdr (host : Endian) (zero : Bool) (phdrs : List UInt8) (i : Nat) :
    List UInt8 :=
  if zero then setVaddr host phdrs i 0
  else setVaddr host phdrs i (pPaddr host phdrs i)

/-- The table after `count` rounds. -/
def updatePhdrs (host : Endian) (zero : Bool) (phdrs : List UInt8) :
    Nat → List UInt8
  | 0 => phdrs
  | count + 1 => updatePhdr host zero (updatePhdrs host zero phdrs count) count

/-! ## The program -/

/-- The header, checked. -/
def readHeader (env : Env) : Program (List UInt8) := do
  require env.opens (.perrorFail "open")
  let (hdr, items) ← fread env.readsHeader ehdrSize 1
  require (items == 1) (.perrorFail "read elf header")
  require (slice hdr 0 4 == elfMag) (.fail "not an ELF file")
  require (hdr.getD 4 0 == elfClass64)
    (.fail "file is not 64-bits: unsupported")
  require (phentsize env.host hdr == phdrSize)
    (.fail "error: mismatch between phentsize and sizeof(Elf64_Phdr)")
  return hdr

def phys2virt (env : Env) (zero : Bool) : Program Int := do
  let hdr ← readHeader env
  let phnum := phnum env.host hdr
  let phoff := phoff env.host hdr
  require (← fseek env.seeks phoff) (.perrorFail "fseek")
  require env.allocates (.fail "error: allocation error")
  let (phdrs, items) ← fread env.readsTable phdrSize phnum
  require (items == phnum) (.perrorFail "fread phdrs")
  let phdrs := updatePhdrs env.host zero phdrs phnum
  require (← fseek env.seeksBack phoff) (.perrorFail "fseek")
  let items ← fwrite env.writes env.flushes phdrs phdrSize
  require (items == phnum) (.perrorFail "fwrite phdrs")
  return 0

end KernelStuff.Phys2virt
