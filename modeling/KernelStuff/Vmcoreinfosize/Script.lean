import KernelStuff.Library.Scanning
import Mathlib.Data.List.Infix

/-!
# The script vmcoreinfosize

`vmcoreinfosize.py` collects the `VMCOREINFO` statements of two functions of a
kernel tree, makes a line with a fake value from each, and prints the lines and
their length.
-/

namespace KernelStuff.Vmcoreinfosize

open KernelStuff.Library

abbrev Text := List Char

/-- Where the script stops: a file that is not there, the `assert False`, a
statement that the expression does not match, a kind that is not in the table,
and a pair without a comma. -/
inductive Failure where
  | noFile (path : String)
  | assertion
  | noMatch
  | keyError
  | valueError
  deriving DecidableEq

/-- The fakes `ADDR` and `NUM`. -/
def addr : Text := List.replicate 16 'f'

def num : Text := List.replicate 4 '0'

/-! ## Lines -/

/-- A text file is read with all line ends as newlines. -/
def translateNewlines : Text → Text
  | [] => []
  | '\r' :: '\n' :: rest => '\n' :: translateNewlines rest
  | '\r' :: rest => '\n' :: translateNewlines rest
  | char :: rest => char :: translateNewlines rest

/-- The lines with their newlines. -/
def splitLines : Text → List Text
  | [] => []
  | char :: rest =>
      if char = '\n' then [char] :: splitLines rest
      else
        match splitLines rest with
        | [] => [[char]]
        | line :: lines => (char :: line) :: lines

/-- `list(f)`. -/
def fileLines (content : Text) : List Text :=
  splitLines (translateNewlines content)

/-- `str.isspace` of one character. -/
def isSpace (char : Char) : Bool :=
  let code := char.toNat
  (9 ≤ code && code ≤ 13) || (28 ≤ code && code ≤ 32) || code == 0x85 ||
    code == 0xa0 || code == 0x1680 || (0x2000 ≤ code && code ≤ 0x200a) ||
    code == 0x2028 || code == 0x2029 || code == 0x202f || code == 0x205f ||
    code == 0x3000

def strip (text : Text) : Text :=
  ((text.dropWhile isSpace).reverse.dropWhile isSpace).reverse

def startsWith (start text : Text) : Bool := start.isPrefixOf text

/-- The loop of `vmcoreinfo_statements`. -/
def statementsFrom (funcname : Text) :
    Bool → List Text → List Text → Option (List Text)
  | _, _, [] => none
  | inFn, stmts, line :: rest =>
      let stripped := strip line
      if inFn then
        if startsWith "VMCOREINFO".toList stripped then
          statementsFrom funcname inFn (stmts ++ [stripped]) rest
        else if line = "\x7d\n".toList then some stmts
        else statementsFrom funcname inFn stmts rest
      else if funcname <:+: line then statementsFrom funcname true stmts rest
      else statementsFrom funcname inFn stmts rest

def vmcoreinfoStatements
    (tree : String → Option Text) (filename : String) (funcname : Text) :
    Except Failure (List Text) :=
  match tree filename with
  | none => .error (.noFile filename)
  | some content =>
      match statementsFrom funcname false [] (fileLines content) with
      | none => .error .assertion
      | some stmts => .ok stmts

/-! ## One line for each statement -/

/-- `key=value`, with its newline. -/
def entryLine (key value : Text) : Text := key ++ '=' :: value ++ ['\n']

/-- `name(contents)`. -/
def keyOf (name : String) (contents : Text) : Text :=
  name.toList ++ '(' :: contents ++ [')']

/-- `contents.split(",", 1)`, when there is a comma. -/
def splitComma (contents : Text) : Option (Text × Text) :=
  match contents.dropWhile (· != ',') with
  | [] => none
  | _ :: rest => some (contents.takeWhile (· != ','), rest)

def symbol (contents : Text) : Option Text :=
  some (entryLine (keyOf "SYMBOL" contents) addr)

def offset (contents : Text) : Option Text :=
  (splitComma contents).map fun (struct, field) =>
    entryLine (keyOf "OFFSET" (strip struct ++ '.' :: strip field)) num

def number (contents : Text) : Option Text :=
  some (entryLine (keyOf "NUMBER" contents) num)

def length (contents : Text) : Option Text :=
  (splitComma contents).map fun (name, _) =>
    entryLine (keyOf "LENGTH" (strip name)) num

def size (contents : Text) : Option Text :=
  some (entryLine (keyOf "SIZE" contents) num)

def pagesize (_ : Text) : Option Text :=
  some (entryLine "PAGESIZE".toList "16384".toList)

def buildid (_ : Text) : Option Text :=
  some (entryLine "BUILD-ID".toList (List.replicate 40 'f'))

def osrelease (_ : Text) : Option Text :=
  some (entryLine "OSRELEASE".toList (List.replicate 64 'x'))

/-- `FUNCTIONS`. -/
def functions : List (Text × (Text → Option Text)) :=
  [("SYMBOL".toList, symbol),
    ("SYMBOL_ARRAY".toList, symbol),
    ("OFFSET".toList, offset),
    ("TYPE_OFFSET".toList, offset),
    ("NUMBER".toList, number),
    ("LENGTH".toList, length),
    ("SIZE".toList, size),
    ("STRUCT_SIZE".toList, size),
    ("PAGESIZE".toList, pagesize),
    ("BUILD_ID".toList, buildid),
    ("OSRELEASE".toList, osrelease)]

/-- `[A-Z_]`. -/
def isKindChar (char : Char) : Bool :=
  (65 ≤ char.toNat && char.toNat ≤ 90) || char == '_'

/-- The groups of `^VMCOREINFO_([A-Z_]+)\((.*)\);$`.  A statement has been
stripped, so the `$` is its end. -/
def matchStatement (stmt : Text) : Option (Text × Text) := do
  let rest ← skip "VMCOREINFO_".toList stmt
  let (kind, rest) ← scanRun isKindChar rest
  let rest ← skip ['('] rest
  let content ← rest.dropSuffix? ");".toList
  if '\n' ∈ content then none else some (kind, content)

def fakeStatement (stmt : Text) : Except Failure Text :=
  match matchStatement stmt with
  | none => .error .noMatch
  | some (kind, content) =>
      match functions.lookup kind with
      | none => .error .keyError
      | some function =>
          match function content with
          | none => .error .valueError
          | some line => .ok line

/-- The loop of `main`. -/
def fakeStatements : List Text → Text → Except Failure Text
  | [], fakeVmcoreinfo => .ok fakeVmcoreinfo
  | stmt :: rest, fakeVmcoreinfo =>
      match fakeStatement stmt with
      | .error failure => .error failure
      | .ok line => fakeStatements rest (fakeVmcoreinfo ++ line)

/-- The fake note and its length, as printed. -/
def main (tree : String → Option Text) : Except Failure (Text × Nat) := do
  let crashcore ←
    vmcoreinfoStatements tree "kernel/crash_core.c"
      "crash_save_vmcoreinfo_init".toList
  let printk ←
    vmcoreinfoStatements tree "kernel/printk/printk.c"
      "log_buf_vmcoreinfo_setup".toList
  let fakeVmcoreinfo ← fakeStatements (crashcore ++ printk) []
  return (fakeVmcoreinfo, fakeVmcoreinfo.length)

end KernelStuff.Vmcoreinfosize
