import KernelStuff.Library.Effects
import KernelStuff.Library.Platform
import KernelStuff.Library.Splitting

/-!
# The program dumpphys

The program goes over the page frames that a core file has, reads each of them
through libkdumpfile, and gives it to a callback: one writes the page to the
output, the other looks for a vmcoreinfo note in it.
-/

namespace KernelStuff.Dumpphys

open KernelStuff.Library

/-! ## What the program rests on -/

/-- Where a search of a bitmap ends. -/
inductive Search where
  | found (idx : Nat)
  | noData
  | error
  deriving DecidableEq

/-- What libkdumpfile makes of a core file; an attribute that cannot be read is
`none`, and so is a failed read.  The reads depend on the memory in the core
file. -/
structure Kdump where
  maxPfn : Option Nat
  pageSize : Option Nat
  pageShift : Option (Fin 64)
  hasPagemap : Bool
  findSet : Nat → Search
  findClear : Nat → Search
  read : (Nat → UInt8) → Nat → Nat → Option (List UInt8)
  readString : (Nat → UInt8) → Nat → Option (List UInt8)

/-- The core file, and the machine: how each call of `write` ends, and what is
behind the page buffer up to a NUL, when the page of an address is in it. -/
structure Env where
  kdump : Kdump
  memory : Nat → UInt8
  writes : Nat → CallOutcome
  behind : Nat → List UInt8

/-- `page_fn op`. -/
inductive PageFn where
  | dumpPage
  | checkVmcoreinfo
  deriving DecidableEq

/-- What the command line says. -/
structure Options where
  op : PageFn
  shouldContinue : Bool
  searchWithinPage : Bool
  persist : Bool

/-- The end of the run before `main` returns: `exit(EXIT_FAILURE)`, the end of
`int`, where nothing is defined, or none at all. -/
inductive Exit where
  | fail (msg : String)
  | readError
  | overflow
  | spins
  deriving DecidableEq

/-- The output, with all calls of `write`: what was given to them, and how much
of it they took. -/
structure Process where
  output : ByteFile
  written : List (List UInt8 × Nat)
  foundCount : Nat
  deriving DecidableEq

abbrev Program := EStateM Exit Process

/-- `-o` opens the output without emptying it. -/
def Process.start (old : List UInt8) : Process where
  output := ⟨old, 0⟩
  written := []
  foundCount := 0

/-! ## Writing -/

/-- No call of `write` takes more. -/
def maxTransfer : Nat := 0x7ffff000

/-- How the call ends.  A count that is negative as an `ssize_t` is refused. -/
def Env.outcome (env : Env) (call count : Nat) : CallOutcome :=
  if 2 ^ 63 ≤ count then .failure else env.writes call

/-- How much the call takes. -/
def Env.taken (env : Env) (call count : Nat) : Nat :=
  (env.outcome call count).limit (min count maxTransfer)

/-- `write(fd, data, count)`. -/
def write (env : Env) (data : List UInt8) (count : Nat) : Program Int := do
  let process ← get
  let call := process.written.length
  let bytes := data.take (env.taken call count)
  set { process with
    output :=
      ⟨overwrite process.output.bytes process.output.pos bytes,
        process.output.pos + bytes.length⟩
    written := process.written ++ [(data, bytes.length)] }
  return if env.outcome call count = .failure then -1 else bytes.length

/-! ## The callbacks -/

/-- The `int` holds every value that `write` returns. -/
def dumpPage (env : Env) (buf : List UInt8) : Program Int := do
  let rv ← write env buf buf.length
  return if rv < 0 then -1 else 0

/-- `"OSRELEASE="`. -/
def osrelease : List UInt8 := [79, 83, 82, 69, 76, 69, 65, 83, 69, 61]

/-- `"---\n"`. -/
def dashes : List UInt8 := [45, 45, 45, 10]

/-- The string that starts with the page buffer. -/
def Env.cString (env : Env) (addr : Nat) (buf : List UInt8) : List UInt8 :=
  (buf ++ env.behind addr).takeWhile (· ≠ 0)

/-- `found_count += 1`. -/
def countFound : Program PUnit := do
  let process ← get
  if process.foundCount + 1 < 2 ^ 31 then
    set { process with foundCount := process.foundCount + 1 }
  else throw .overflow

/-- What follows the output of a note. -/
def afterNote (env : Env) (options : Options) : Program Int := do
  if options.shouldContinue then
    let _ ← write env dashes 4
    return 0
  else return -1

def checkVmcoreinfo (env : Env) (options : Options) (addr : Nat)
    (buf : List UInt8) : Program Int := do
  if !options.searchWithinPage && osrelease.isPrefixOf (env.cString addr buf)
  then
    let text := env.cString addr buf
    let vmcoreinfoLen := intOf text.length
    let _ ← write env text (sizeT vmcoreinfoLen)
    countFound
    afterNote env options
  else if options.searchWithinPage then
    match findIndex osrelease buf with
    | none => return 0
    | some found =>
        match env.kdump.readString env.memory (addr + found) with
        | none => return -1
        | some str =>
            let _ ← write env str str.length
            afterNote env options
  else return 0

/-! ## The pages -/

structure MemoryInfo where
  pageSize : Nat
  pageShift : Fin 64

/-- The value of an attribute, or `exit(EXIT_FAILURE)`. -/
def getAttr {Value : Type} (value : Option Value) (msg : String) :
    Program Value :=
  match value with
  | some value => pure value
  | none => throw (.fail msg)

def getMemoryInfo (kdump : Kdump) : Program MemoryInfo := do
  let _ ← getAttr kdump.maxPfn "kdump_get_number_attr(max_pfn): %s\n"
  let pageSize ← getAttr kdump.pageSize
    "kdump_get_number_attr(KDUMP_ATTR_PAGE_SIZE): %s\n"
  let pageSize := if pageSize = 0 then 4096 else pageSize
  let pageShift ← getAttr kdump.pageShift
    "kdump_get_number_attr(KDUMP_ATTR_PAGE_SHIFT): %s\n"
  if !kdump.hasPagemap then
    throw (.fail "kdump_get_attr(KDUMP_ATTR_FILE_PAGEMAP): %s\n")
  return { pageSize, pageShift }

/-- `offset << mi->page_shift`. -/
def MemoryInfo.address (mi : MemoryInfo) (offset : Nat) : Nat :=
  (offset * 2 ^ mi.pageShift.val) % 2 ^ 64

def runOp (env : Env) (options : Options) (addr : Nat) (buf : List UInt8) :
    Program Int :=
  match options.op with
  | .dumpPage => dumpPage env buf
  | .checkVmcoreinfo => checkVmcoreinfo env options addr buf

/-- The inner loop.  A result below zero ends both loops. -/
def readPages (env : Env) (mi : MemoryInfo) (options : Options) :
    List Nat → Program Int
  | [] => return 0
  | offset :: rest =>
      match env.kdump.read env.memory (mi.address offset) mi.pageSize with
      | none =>
          if options.persist then readPages env mi options rest
          else throw .readError
      | some buf => do
          let rv ← runOp env options (mi.address offset) buf
          if rv < 0 then return rv
          readPages env mi options rest

/-- `fuel` rounds of the outer loop at most. -/
def countPages (env : Env) (mi : MemoryInfo) (options : Options) :
    Nat → Nat → Program Int
  | 0, _ => throw .spins
  | fuel + 1, addr =>
      match env.kdump.findSet addr with
      | .noData => return 0
      | .error => throw (.fail "kdump_bmp_find_set: %s")
      | .found first =>
          match env.kdump.findClear first with
          | .found last => do
              let rv ← readPages env mi options
                (List.range' first (last - first))
              if rv < 0 then return rv
              countPages env mi options fuel last
          | _ => throw (.fail "kdump_bmp_find_set: %s")

/-! ## The program -/

inductive Message where
  | found (count : Nat)
  | couldNotFind
  deriving DecidableEq

/-- What `main` prints after the search, and whether it returns
`EXIT_SUCCESS`. -/
structure Verdict where
  message : Option Message
  success : Bool
  deriving DecidableEq

def verdict (options : Options) (rv : Int) (foundCount : Nat) : Verdict where
  message :=
    if options.op = .checkVmcoreinfo ∧ foundCount > 1 then
      some (.found foundCount)
    else if rv = 0 ∧ foundCount = 0 ∧ options.op = .checkVmcoreinfo then
      some .couldNotFind
    else none
  success := rv = 0

def main (env : Env) (options : Options) (fuel : Nat) : Program Verdict := do
  let mi ← getMemoryInfo env.kdump
  let rv ← countPages env mi options fuel 0
  let process ← get
  return verdict options rv process.foundCount

end KernelStuff.Dumpphys
