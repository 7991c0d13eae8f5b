import KernelStuff.Negdentcreate.Threads
import Mathlib.Logic.Function.Basic

/-!
# The operations of negdentcreate on the directory

In `Threads` an operation is one step that succeeds or fails.  Here it is the
sequence of its system calls, and between two of them the other threads may do
theirs.  Nobody else changes the directory, which tells its names apart byte by
byte.  A call fails as the file system likes, but it does not succeed on a plain
name that is not there.  Where a name leads elsewhere, by a slash or a symbolic
link, it is left open what becomes of the directory.
-/

namespace KernelStuff.Negdentcreate

/-- What a name of the directory stands for. -/
inductive Entry where
  | plain
  | symlink
  deriving DecidableEq

/-- The entries of the directory. -/
abbrev Directory := List UInt8 → Option Entry

def slash : UInt8 := 47

/-- The name leads to its own entry of the directory, or to the lack of one. -/
def Directory.Plain (directory : Directory) (name : List UInt8) : Prop :=
  slash ∉ name ∧ directory name ≠ some .symlink

instance (directory : Directory) (name : List UInt8) :
    Decidable (directory.Plain name) :=
  inferInstanceAs (Decidable (_ ∧ _))

inductive Call where
  | fstatat
  | openat
  | openatCreate
  | close
  | unlinkat
  deriving DecidableEq

inductive CallResult where
  | success
  | enoent
  | failure
  deriving DecidableEq

/-- A name has to be there. -/
def Call.needsName : Call → Bool
  | .fstatat | .openat | .unlinkat => true
  | .openatCreate | .close => false

/-- What the kernel may answer for a plain name. -/
def Call.answers (call : Call) (entry : Option Entry) : CallResult → Bool
  | .success => !call.needsName || entry.isSome
  | .enoent => !call.needsName || entry.isNone
  | .failure => true

/-- What becomes of the entry of a plain name when the call succeeds. -/
def Call.writes : Call → Option (Option Entry)
  | .openatCreate => some (some .plain)
  | .unlinkat => some none
  | .fstatat | .openat | .close => none

def Call.perform
    (call : Call) (result : CallResult) (name : List UInt8)
    (directory : Directory) : Directory :=
  match result, call.writes with
  | .success, some entry => Function.update directory name entry
  | _, _ => directory

/-- A call, and whether the operation goes on behind an `ENOENT` of it. -/
structure CheckedCall where
  call : Call
  acceptsEnoent : Bool

def CheckedCall.accepts (checked : CheckedCall) : CallResult → Bool
  | .success => true
  | .enoent => checked.acceptsEnoent
  | .failure => false

def doStat : List CheckedCall := [⟨.fstatat, true⟩]

def doOpen : List CheckedCall := [⟨.openat, false⟩, ⟨.close, false⟩]

def doCreate : List CheckedCall := [⟨.openatCreate, false⟩, ⟨.close, false⟩]

def doUnlink : List CheckedCall := [⟨.unlinkat, false⟩]

def doCreateCloseUnlink : List CheckedCall :=
  [⟨.openatCreate, false⟩, ⟨.close, false⟩, ⟨.unlinkat, false⟩]

def doCreateUnlinkClose : List CheckedCall :=
  [⟨.openatCreate, false⟩, ⟨.unlinkat, false⟩, ⟨.close, false⟩]

/-- `OPERATIONS`. -/
def operations : List (String × List CheckedCall) :=
  [("stat", doStat),
    ("open", doOpen),
    ("create", doCreate),
    ("unlink", doUnlink),
    ("create_close_unlink", doCreateCloseUnlink),
    ("create_unlink_close", doCreateUnlinkClose)]

/-! ## The threads on the directory -/

/-- The threads, how many calls of its operation each worker has behind it, and
the directory. -/
structure DirectorySystem where
  system : System
  made : Nat → Nat
  directory : Directory

/-- `elsewhere` is what the directory becomes when the name of the call is not
plain. -/
inductive DirectoryEvent where
  | call (i : Nat) (result : CallResult) (elsewhere : Directory)
  | other (event : Event)

/-- The worker, if it is at its operation. -/
def System.atOperation (system : System) (i : Nat) : Option Work :=
  system.works[i]?.filter fun work => work.pc = .operate

/-- One system call of the operation `op`.  The worker moves on in `stat_worker`
behind the last one, or behind one that is not accepted. -/
def callStep
    (config : Config) (op : List CheckedCall) (state : DirectorySystem) (i : Nat)
    (result : CallResult) (elsewhere : Directory) : Option DirectorySystem :=
  (state.system.atOperation i).bind fun work =>
    op[state.made i]?.bind fun checked =>
      let name := filename config.pfx work.cur
      let directory :=
        if state.directory.Plain name then
          checked.call.perform result name state.directory
        else elsewhere
      if state.directory.Plain name →
          checked.call.answers (state.directory name) result = true then
        if checked.accepts result then
          if state.made i + 1 < op.length then
            some
              { state with
                made := Function.update state.made i (state.made i + 1)
                directory := directory }
          else
            (step config state.system (.worker i true)).map fun next =>
              ⟨next, Function.update state.made i 0, directory⟩
        else
          (step config state.system (.worker i false)).map fun next =>
            ⟨next, state.made, directory⟩
      else none

/-- The event would do an operation in one step. -/
def System.wholeOperation (system : System) : Event → Bool
  | .worker i _ => (system.atOperation i).isSome
  | _ => false

def directoryStep
    (config : Config) (op : List CheckedCall) (state : DirectorySystem) :
    DirectoryEvent → Option DirectorySystem
  | .call i result elsewhere => callStep config op state i result elsewhere
  | .other event =>
      if state.system.wholeOperation event then none
      else
        (step config state.system event).map fun next =>
          { state with system := next }

/-- The threads come to the state from the directory `initial`. -/
def DirectoryReachable
    (config : Config) (op : List CheckedCall) (initial : Directory)
    (state : DirectorySystem) : Prop :=
  Relation.ReflTransGen
    (fun source target =>
      ∃ event, directoryStep config op source event = some target)
    ⟨System.initial, fun _ => 0, initial⟩ state

end KernelStuff.Negdentcreate
