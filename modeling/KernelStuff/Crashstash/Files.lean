import Mathlib.Logic.Function.Basic
import KernelStuff.Crashstash.Read
import KernelStuff.Library.Service

/-!
# Processes and open files

Any number of processes call the module through the virtual file system, which
checks the access mode of the open file, passes a copy of its position, and
commits the position after a return that is not negative.

`System.Sound` holds of every reachable system: one file is open at most, no
`BUG_ON` fires, and no position lies behind the content.
-/

namespace KernelStuff.Crashstash

open KernelStuff.Library

def EBADF : Int := 9

structure File where
  mode : AccMode
  pos : Nat
  deriving DecidableEq

structure System (pageShift : Nat) where
  stash : Stash pageShift
  files : Nat → Option File

/-- After `crashstash_init` nothing is stashed and nothing is open. -/
def System.initial (pageShift : Nat) (log : List LogRecord) :
    System pageShift where
  stash := ⟨0, [], 0, 0, log⟩
  files := fun _ => none

/-- A call with what its allocations and user copies will do. -/
inductive Call (pageShift : Nat) where
  | openFile (fd : Nat) (mode : AccMode) (suppressed : Bool)
  | write (fd : Nat) (buffer : WriteBuffer) (copy : Nat → UserCopy)
      (fresh : Nat → Page pageShift)
  | read (fd : Nat) (amt : Fin (intMax + 1)) (copy : Nat → UserCopy)
  | release (fd : Nat)

/-- The return value, the bytes a read has delivered, and the ranges of the
stash it has copied from. -/
structure Reply where
  value : Int
  data : List UInt8
  sources : List (Nat × Nat)

/-- A call that returns nothing but its value. -/
def Reply.only (value : Int) : Reply := ⟨value, [], []⟩

/-- The position of a file after a call returned `value` and left `off`. -/
def File.commit (file : File) (value : Int) (off : Nat) : File :=
  if 0 ≤ value then { file with pos := off } else file

variable {pageShift : Nat}

namespace System

def setFile (system : System pageShift) (fd : Nat) (file : Option File)
    (stash : Stash pageShift) : System pageShift where
  stash := stash
  files := Function.update system.files fd file

/-- One call.  A descriptor in use is not handed out again, and a file is
written and read only as it was opened for. -/
def step (system : System pageShift) :
    Call pageShift → Except Fault (System pageShift × Reply)
  | .openFile fd mode suppressed =>
      match system.files fd with
      | some _ => .ok (system, .only (-EBADF))
      | none =>
          match crashstashOpen mode suppressed system.stash with
          | (stash, value) =>
              .ok (system.setFile fd
                (if value = 0 then some ⟨mode, 0⟩ else none) stash,
                .only value)
  | .write fd buffer copy fresh =>
      match system.files fd with
      | none => .ok (system, .only (-EBADF))
      | some file =>
          if file.mode = .writeOnly then
            (crashstashWrite copy fresh buffer file.pos system.stash).map
              fun result =>
                (system.setFile fd (some (file.commit result.value result.off))
                  result.stash, .only result.value)
          else .ok (system, .only (-EBADF))
  | .read fd amt copy =>
      match system.files fd with
      | none => .ok (system, .only (-EBADF))
      | some file =>
          if file.mode = .readOnly then
            (crashstashRead copy amt.val file.pos system.stash).map fun last =>
              (system.setFile fd (some (file.commit last.read last.off))
                system.stash, ⟨last.read, last.data, last.sources⟩)
          else .ok (system, .only (-EBADF))
  | .release fd =>
      match system.files fd with
      | none => .ok (system, .only (-EBADF))
      | some _ =>
          (crashstashRelease system.stash).map fun (stash, value) =>
            (system.setFile fd none stash, .only value)

/-- Nothing is open, or exactly one file, with its position in the content. -/
inductive Opened (system : System pageShift) : Prop where
  | none
      (count_eq : system.stash.count = 0)
      (files_eq : ∀ fd, system.files fd = none)
  | one (fd : Nat) (file : File)
      (count_eq : system.stash.count = 1)
      (file_eq : system.files fd = some file)
      (others : ∀ other, other ≠ fd → system.files other = none)
      (pos_le : file.pos ≤ system.stash.size)

structure Sound (system : System pageShift) : Prop where
  backed : system.stash.Backed
  opened : system.Opened

theorem initial_sound (log : List LogRecord) :
    (System.initial pageShift log).Sound where
  backed := ⟨rfl, Nat.zero_le _, Nat.zero_le _⟩
  opened := .none rfl fun _ => rfl

/-- A descriptor in use belongs to the open file. -/
theorem Sound.of_file
    {system : System pageShift} {fd : Nat} {file : File}
    (sound : system.Sound) (here : system.files fd = some file) :
    system.stash.count = 1 ∧
      (∀ other, other ≠ fd → system.files other = none) ∧
      file.pos ≤ system.stash.size := by
  cases sound.opened with
  | none countEq filesEq =>
      rw [filesEq fd] at here
      cases here
  | one owner opened countEq fileEq others posLe =>
      have same : fd = owner := by
        by_contra different
        rw [others fd different] at here
        cases here
      subst same
      rw [fileEq] at here
      cases here
      exact ⟨countEq, others, posLe⟩

/-- The one open file is replaced. -/
theorem Sound.setFile
    {system : System pageShift} {fd : Nat} {file next : File}
    {stash : Stash pageShift}
    (sound : system.Sound) (here : system.files fd = some file)
    (backed : stash.Backed) (count_eq : stash.count = system.stash.count)
    (pos_le : next.pos ≤ stash.size) :
    (system.setFile fd (some next) stash).Sound where
  backed := backed
  opened := by
    obtain ⟨one, others, _⟩ := sound.of_file here
    refine .one fd next (count_eq.trans one) ?_ ?_ pos_le
    · exact Function.update_self _ _ _
    · intro other different
      change Function.update system.files fd (some next) other = none
      rw [Function.update_of_ne different]
      exact others other different

/-- The descriptor a call writes to. -/
def writesTo : Call pageShift → Option Nat
  | .write fd _ _ _ => some fd
  | _ => none

/-- What a call can do to a sound system. -/
inductive Serves (system : System pageShift) :
    Call pageShift → System pageShift → Reply → Prop where
  | refused (call : Call pageShift) (value : Int)
      (negative : value < 0)
      (unwritten : ∀ fd file, writesTo call = some fd →
        system.files fd = some file → file.mode ≠ .writeOnly) :
      Serves system call system (.only value)
  | openFile (fd : Nat) (mode : AccMode) (suppressed : Bool)
      (free : system.files fd = none)
      (idle : system.stash.count = 0)
      (supported : mode ≠ .readWrite) :
      Serves system (.openFile fd mode suppressed)
        (system.setFile fd (some ⟨mode, 0⟩)
          (crashstashOpen mode suppressed system.stash).1)
        (.only 0)
  | write (fd : Nat) (buffer : WriteBuffer) (copy : Nat → UserCopy)
      (fresh : Nat → Page pageShift) (file : File)
      (result : WriteResult pageShift)
      (here : system.files fd = some file)
      (writable : file.mode = .writeOnly)
      (ends : WriteEnds copy buffer file.pos system.stash result) :
      Serves system (.write fd buffer copy fresh)
        (system.setFile fd (some (file.commit result.value result.off))
          result.stash)
        (.only result.value)
  | read (fd : Nat) (amt : Fin (intMax + 1)) (copy : Nat → UserCopy)
      (file : File) (last : ReadLocals pageShift)
      (here : system.files fd = some file)
      (readable : file.mode = .readOnly)
      (run : crashstashRead copy amt.val file.pos system.stash = .ok last) :
      Serves system (.read fd amt copy)
        (system.setFile fd (some (file.commit last.read last.off))
          system.stash)
        ⟨last.read, last.data, last.sources⟩
  | release (fd : Nat) (file : File)
      (here : system.files fd = some file) :
      Serves system (.release fd)
        (system.setFile fd none { system.stash with count := 0 }) (.only 0)

theorem setFile_none
    {system : System pageShift} {fd : Nat}
    (free : system.files fd = none) :
    system.setFile fd none system.stash = system := by
  rw [System.setFile, ← free, Function.update_eq_self]

/-- The writer's call. -/
theorem step_write
    {system : System pageShift} {fd : Nat} {file : File}
    (buffer : WriteBuffer) (copy : Nat → UserCopy)
    (fresh : Nat → Page pageShift)
    (backed : system.stash.Backed) (here : system.files fd = some file)
    (writable : file.mode = .writeOnly) :
    ∃ result,
      crashstashWrite copy fresh buffer file.pos system.stash = .ok result ∧
        WriteEnds copy buffer file.pos system.stash result ∧
        system.step (.write fd buffer copy fresh) =
          .ok (system.setFile fd (some (file.commit result.value result.off))
            result.stash, .only result.value) := by
  obtain ⟨result, run, ends⟩ :=
    crashstashWrite_ends copy fresh buffer file.pos backed
  refine ⟨result, run, ends, ?_⟩
  rw [step]
  simp only [here, if_pos writable, run]
  rfl

/-- A call of `open` that succeeds. -/
theorem step_openFile
    {system : System pageShift} {fd : Nat} {mode : AccMode}
    (suppressed : Bool) (free : system.files fd = none)
    (idle : system.stash.count = 0) (supported : mode ≠ .readWrite) :
    system.step (.openFile fd mode suppressed) =
      .ok (system.setFile fd (some ⟨mode, 0⟩)
        (crashstashOpen mode suppressed system.stash).1, .only 0) := by
  have busy : ¬ system.stash.count ≠ 0 := not_not.mpr idle
  rw [step]
  simp only [free, crashstashOpen, if_neg busy, if_neg supported, if_true]

theorem refused_of_reads
    {system : System pageShift} {call : Call pageShift} {value : Int}
    (reads : writesTo call = none) (negative : value < 0) :
    Serves system call system (.only value) := by
  refine .refused call value negative ?_
  intro fd file writes
  rw [reads] at writes
  cases writes

/-- No call stops the kernel, and each one does one of these things. -/
theorem step_serves
    {system : System pageShift} (sound : system.Sound)
    (call : Call pageShift) :
    ∃ next reply, system.step call = .ok (next, reply) ∧
      Serves system call next reply := by
  cases call with
  | openFile fd mode suppressed =>
      cases here : system.files fd with
      | some file =>
          refine ⟨system, .only (-EBADF), ?_, refused_of_reads rfl (by decide)⟩
          rw [step]
          simp only [here]
      | none =>
          by_cases busy : system.stash.count ≠ 0
          · refine ⟨system, .only (-EBUSY), ?_, refused_of_reads rfl (by decide)⟩
            rw [step]
            simp only [here, crashstashOpen, if_pos busy]
            rw [if_neg (by decide), setFile_none here]
          have idle : system.stash.count = 0 := not_not.mp busy
          by_cases unsupported : mode = .readWrite
          · refine ⟨system, .only (-EINVAL), ?_, refused_of_reads rfl (by decide)⟩
            rw [step]
            simp only [here, crashstashOpen, if_neg busy, if_pos unsupported]
            rw [if_neg (by decide), setFile_none here]
          · exact
              ⟨_, _, step_openFile suppressed here idle unsupported,
                .openFile fd mode suppressed here idle unsupported⟩
  | write fd buffer copy fresh =>
      cases here : system.files fd with
      | none =>
          refine ⟨system, .only (-EBADF), ?_, .refused _ _ (by decide) ?_⟩
          · rw [step]
            simp only [here]
          · intro other file same found
            cases same
            rw [here] at found
            cases found
      | some file =>
          by_cases writable : file.mode = .writeOnly
          · obtain ⟨result, _, ends, served⟩ :=
              step_write buffer copy fresh sound.backed here writable
            exact
              ⟨_, _, served,
                .write fd buffer copy fresh file result here writable ends⟩
          · refine ⟨system, .only (-EBADF), ?_, .refused _ _ (by decide) ?_⟩
            · rw [step]
              simp only [here, if_neg writable]
            · intro other opened same found
              cases same
              rw [here] at found
              cases found
              exact writable
  | read fd amt copy =>
      cases here : system.files fd with
      | none =>
          refine ⟨system, .only (-EBADF), ?_, refused_of_reads rfl (by decide)⟩
          rw [step]
          simp only [here]
      | some file =>
          by_cases readable : file.mode = .readOnly
          · obtain ⟨_, _, within⟩ := sound.of_file here
            obtain ⟨last, run, _⟩ :=
              crashstashRead_ends copy sound.backed within
                (Nat.le_of_lt_succ amt.isLt)
            refine ⟨_, _, ?_, .read fd amt copy file last here readable run⟩
            rw [step]
            simp only [here, if_pos readable, run]
            rfl
          · refine ⟨system, .only (-EBADF), ?_, refused_of_reads rfl (by decide)⟩
            rw [step]
            simp only [here, if_neg readable]
  | release fd =>
      cases here : system.files fd with
      | none =>
          refine ⟨system, .only (-EBADF), ?_, refused_of_reads rfl (by decide)⟩
          rw [step]
          simp only [here]
      | some file =>
          obtain ⟨one, _, _⟩ := sound.of_file here
          refine ⟨_, _, ?_, .release fd file here⟩
          rw [step]
          simp only [here, crashstashRelease, one]
          rfl

/-- The answer to a call is the one `Serves` describes. -/
theorem serves_of_step
    {system next : System pageShift} {call : Call pageShift} {reply : Reply}
    (sound : system.Sound) (served : system.step call = .ok (next, reply)) :
    Serves system call next reply := by
  obtain ⟨other, otherReply, run, serves⟩ := step_serves sound call
  rw [served] at run
  cases run
  exact serves

end System

theorem File.commit_pos_le {file : File} {value : Int} {off size : Nat}
    (before : file.pos ≤ size) (after : off ≤ size) :
    (file.commit value off).pos ≤ size := by
  rw [File.commit]
  split
  · exact after
  · exact before

/-! ## What opening does -/

/-- Opening keeps the stash as it was, or throws it away. -/
inductive Opens (stash : Stash pageShift) (mode : AccMode) :
    Stash pageShift → Prop where
  | kept (reads : mode ≠ .writeOnly) :
      Opens stash mode { stash with count := 1 }
  | cleared (log : List LogRecord)
      (writes : mode = .writeOnly)
      (logged : LogRecord.crashstash ∈ log) :
      Opens stash mode ⟨1, [], 0, 0, log⟩

/-- After the message has been printed the log has a record of the stash. -/
theorem prInfoRatelimited_logged
    (suppressed : Bool) (stash : Stash pageShift) :
    ∃ log, prInfoRatelimited suppressed stash = { stash with log := log } ∧
      LogRecord.crashstash ∈ log := by
  rw [prInfoRatelimited]
  split
  · next logged =>
      rw [Bool.and_eq_true, List.contains_iff_mem] at logged
      exact ⟨stash.log, rfl, logged.2⟩
  · exact ⟨_, rfl, List.mem_append_right _ (List.mem_singleton_self _)⟩

theorem crashstashOpen_opens
    {stash : Stash pageShift} {mode : AccMode} (suppressed : Bool)
    (idle : stash.count = 0) (supported : mode ≠ .readWrite) :
    Opens stash mode (crashstashOpen mode suppressed stash).1 := by
  rw [crashstashOpen, if_neg (not_not.mpr idle), if_neg supported]
  by_cases writes : mode = .writeOnly
  · obtain ⟨log, printed, logged⟩ :=
      prInfoRatelimited_logged suppressed (crashstashFree stash)
    simp only [if_pos writes, printed]
    simp only [crashstashFree, idle]
    exact .cleared log writes logged
  · simp only [if_neg writes, idle]
    exact .kept writes

theorem Opens.sound {stash next : Stash pageShift} {mode : AccMode}
    (backed : stash.Backed) (opens : Opens stash mode next) :
    next.Backed ∧ next.count = 1 := by
  cases opens with
  | kept reads =>
      exact ⟨⟨backed.entries, backed.room, backed.size_le⟩, rfl⟩
  | cleared log writes logged =>
      exact ⟨⟨rfl, Nat.zero_le _, Nat.zero_le _⟩, rfl⟩

/-! ## The invariant -/

/-- What a write leaves has room for its content, and the position stays within
it. -/
theorem WriteEnds.sound
    {copy : Nat → UserCopy} {buffer : WriteBuffer} {off : Nat}
    {stash : Stash pageShift} {result : WriteResult pageShift}
    (backed : stash.Backed) (within : off ≤ stash.size)
    (ends : WriteEnds copy buffer off stash result) :
    result.stash.Backed ∧ result.stash.count = stash.count ∧
      stash.size ≤ result.stash.size ∧ result.off ≤ result.stash.size := by
  cases ends with
  | elsewhere different resultEq =>
      rw [resultEq]
      exact ⟨backed, rfl, Nat.le_refl _, within⟩
  | full atEnd full resultEq =>
      rw [resultEq]
      exact ⟨backed, rfl, Nat.le_refl _, within⟩
  | complete atEnd room copied extended offEq valueEq =>
      refine
        ⟨extended.backed, extended.count_eq, ?_, Nat.le_of_eq offEq⟩
      rw [extended.size_eq]
      exact Nat.le_add_right _ _
  | torn m middle stored atEnd room faults extended torn first later offEq
      valueEq =>
      refine
        ⟨torn.backed, torn.count_eq.trans extended.count_eq, ?_,
          Nat.le_of_eq offEq⟩
      rw [torn.size_eq, extended.size_eq]
      exact Nat.le_add_right _ _

namespace System

theorem Serves.sound
    {system next : System pageShift} {call : Call pageShift} {reply : Reply}
    (sound : system.Sound) (serves : Serves system call next reply) :
    next.Sound := by
  cases serves with
  | refused call value negative unwritten => exact sound
  | openFile fd mode suppressed free idle supported =>
      have nothing : ∀ other, system.files other = none := by
        cases sound.opened with
        | none _ filesEq => exact filesEq
        | one owner file countEq _ _ _ =>
            rw [idle] at countEq
            cases countEq
      obtain ⟨backed, one⟩ :=
        (crashstashOpen_opens suppressed idle supported).sound sound.backed
      refine ⟨backed, .one fd ⟨mode, 0⟩ one ?_ ?_ (Nat.zero_le _)⟩
      · exact Function.update_self _ _ _
      · intro other different
        change Function.update system.files fd (some _) other = none
        rw [Function.update_of_ne different]
        exact nothing other
  | write fd buffer copy fresh file result here writable ends =>
      obtain ⟨_, _, within⟩ := sound.of_file here
      obtain ⟨backed, countEq, grows, offLe⟩ :=
        WriteEnds.sound sound.backed within ends
      apply sound.setFile here backed countEq
      exact File.commit_pos_le (Nat.le_trans within grows) offLe
  | read fd amt copy file last here readable run =>
      obtain ⟨_, _, within⟩ := sound.of_file here
      obtain ⟨other, otherRun, _, offLe, _⟩ :=
        crashstashRead_ends copy sound.backed within
          (Nat.le_of_lt_succ amt.isLt)
      rw [run] at otherRun
      cases otherRun
      exact
        sound.setFile here sound.backed rfl
          (File.commit_pos_le within offLe)
  | release fd file here =>
      obtain ⟨_, others, _⟩ := sound.of_file here
      obtain ⟨entries, roomLeft, sizeLe⟩ := sound.backed
      refine ⟨⟨entries, roomLeft, sizeLe⟩, .none rfl ?_⟩
      intro other
      change Function.update system.files fd none other = none
      by_cases same : other = fd
      · rw [same, Function.update_self]
      · rw [Function.update_of_ne same]
        exact others other same

end System

end KernelStuff.Crashstash
