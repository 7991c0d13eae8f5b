import Mathlib.Algebra.Order.Ring.Nat
import Mathlib.Data.List.Basic
import Mathlib.Logic.Relation

/-!
# The threads of negdentcreate

`stat_worker` and the part of `main` that follows the options, as parties that
share the `struct work` of each worker and the flag `exiting`.  A step is one
access to shared memory, one operation on the file system, or one call of the
thread library; the scheduler chooses who steps next, and when a `SIGINT` comes.
-/

namespace KernelStuff.Negdentcreate

/-- The arithmetic of `unsigned long`. -/
def ulong (n : Nat) : Nat := n % 2 ^ 64

def ulongSub (a b : Nat) : Nat := ulong (a + 2 ^ 64 - b)

/-- What `main` has from its options. -/
structure Config where
  nthread : Nat
  count : Nat
  pfx : List UInt8
  loop : Bool
  nthread_pos : 1 ≤ nthread
  nthread_lt : nthread < 2 ^ 31
  count_lt : count < 2 ^ 64

def Config.increment (config : Config) : Nat := config.count / config.nthread

/-- `count` once it has been rounded. -/
def Config.total (config : Config) : Nat :=
  ulong (config.increment * config.nthread)

/-- `"%010lu"`. -/
def paddedDecimal (n : Nat) : List UInt8 :=
  let digits := (Nat.toDigits 10 n).map fun digit => UInt8.ofNat digit.toNat
  List.replicate (10 - digits.length) 48 ++ digits

/-- The name that `snprintf` leaves in 64 bytes. -/
def filename (pfx : List UInt8) (cur : Nat) : List UInt8 :=
  (pfx ++ paddedDecimal cur).take 63

/-- An operation on the file system, and whether it returned success. -/
structure Performed where
  index : Nat
  filename : List UInt8
  success : Bool
  deriving DecidableEq

/-! ## The workers -/

inductive WorkerPc where
  | opening
  | assign
  | compare
  | poll
  | operate
  | advance
  | report
  | recount
  | again
  | finished
  deriving DecidableEq

/-- `struct work`, where its thread is, and what it has performed. -/
structure Work where
  start : Nat
  stop : Nat
  cur : Nat
  cnt : Nat
  error : Nat
  cancelled : Bool
  pc : WorkerPc
  performed : List Performed
  deriving DecidableEq

/-- One step of `stat_worker`; `succeeds` is the outcome of its call, if it makes
one. -/
def statWorker (config : Config) (exiting succeeds : Bool) (work : Work) :
    Option Work :=
  match work.pc with
  | .opening =>
      some { work with pc := if succeeds then .assign else .report }
  | .assign => some { work with cur := work.start, pc := .compare }
  | .compare =>
      some { work with pc := if work.cur < work.stop then .poll else .recount }
  | .poll => some { work with pc := if exiting then .recount else .operate }
  | .operate =>
      some
        { work with
          performed :=
            work.performed ++
              [⟨work.cur, filename config.pfx work.cur, succeeds⟩]
          pc := if succeeds then .advance else .report }
  | .advance => some { work with cur := ulong (work.cur + 1), pc := .compare }
  | .report => some { work with error := 1, pc := .finished }
  | .recount =>
      some
        { work with
          cnt := if config.loop then ulong (work.cnt + 1) else work.cnt
          pc := .again }
  | .again =>
      some { work with pc := if config.loop ∧ ¬ exiting then .assign else .finished }
  | .finished => none

/-! ## The main thread -/

def exitSuccess : Nat := 0
def exitFailure : Nat := 1

inductive MainPc where
  | create
  | readCur (i progress err : Nat)
  | readCnt (i progress err : Nat)
  | readError (i progress err : Nat)
  | judge (progress err : Nat)
  | decide (err : Nat)
  | cancel (i : Nat)
  | join (i rv : Nat)
  | returned (rv : Nat)
  deriving DecidableEq

structure System where
  works : List Work
  exiting : Bool
  main : MainPc
  deriving DecidableEq

/-- The `struct work` of the `i`-th thread as `main` sets it up. -/
def Config.newWork (config : Config) (i : Nat) : Work where
  start := ulong (i * config.increment)
  stop := ulong (ulong (i * config.increment) + config.increment)
  cur := ulong (i * config.increment)
  cnt := 0
  error := 0
  cancelled := false
  pc := .opening
  performed := []

def mainStep (config : Config) (system : System) : Option System :=
  match system.main with
  | .create =>
      if system.works.length < config.nthread then
        some
          { system with
            works := system.works ++ [config.newWork system.works.length] }
      else some { system with main := .readCur 0 0 0 }
  | .readCur i progress err =>
      match system.works[i]? with
      | none => some { system with main := .judge progress err }
      | some work =>
          some
            { system with
              main :=
                .readCnt i (ulong (progress + ulongSub work.cur work.start))
                  err }
  | .readCnt i progress err =>
      system.works[i]?.map fun work =>
        { system with
          main :=
            .readError i
              (ulong
                (progress + ulong (work.cnt * ulongSub work.stop work.start)))
              err }
  | .readError i progress err =>
      system.works[i]?.map fun work =>
        { system with main := .readCur (i + 1) progress (err + work.error) }
  | .judge progress err =>
      if (progress < config.total ∨ config.loop) ∧ err = 0 ∧
          ¬ system.exiting then
        some { system with main := .readCur 0 0 0 }
      else some { system with main := .decide err }
  | .decide err =>
      if err ≠ 0 then some { system with main := .cancel 0 }
      else if system.exiting then
        some { system with main := .join 0 exitFailure }
      else some { system with main := .join 0 exitSuccess }
  | .cancel i =>
      match system.works[i]? with
      | none => some { system with main := .join 0 exitFailure }
      | some work =>
          some
            { system with
              works :=
                if work.error = 0 then
                  system.works.set i { work with cancelled := true }
                else system.works
              main := .cancel (i + 1) }
  | .join i rv =>
      match system.works[i]? with
      | none => some { system with main := .returned rv }
      | some work =>
          if work.pc = .finished then
            some { system with main := .join (i + 1) rv }
          else none
  | .returned _ => none

/-! ## Runs -/

/-- What the scheduler chooses.  A thread that has been cancelled may be stopped
anywhere. -/
inductive Event where
  | worker (i : Nat) (succeeds : Bool)
  | stop (i : Nat)
  | main
  | interrupt
  deriving DecidableEq

def step (config : Config) (system : System) : Event → Option System
  | .worker i succeeds =>
      system.works[i]?.bind fun work =>
        (statWorker config system.exiting succeeds work).map fun next =>
          { system with works := system.works.set i next }
  | .stop i =>
      system.works[i]?.bind fun work =>
        if work.cancelled then
          some
            { system with works := system.works.set i { work with pc := .finished } }
        else none
  | .main => mainStep config system
  | .interrupt => some { system with exiting := true }

def System.initial : System where
  works := []
  exiting := false
  main := .create

/-- The system comes to the state, in some order of the steps. -/
def Reachable (config : Config) (system : System) : Prop :=
  Relation.ReflTransGen
    (fun source target => ∃ event, step config source event = some target)
    System.initial system

/-- What all threads have performed. -/
def System.performed (system : System) : List Performed :=
  system.works.flatMap Work.performed

/-! ## What a step does to the workers -/

/-- The main thread sets up a worker, or cancels one, or leaves them alone. -/
theorem mainStep_works
    {config : Config} {system next : System}
    (steps : mainStep config system = some next) :
    next.exiting = system.exiting ∧
      (next.works = system.works ∨
        (system.main = .create ∧ next.main = .create ∧
          system.works.length < config.nthread ∧
          next.works =
            system.works ++ [config.newWork system.works.length]) ∨
        ∃ i work, system.works[i]? = some work ∧
          next.works = system.works.set i { work with cancelled := true }) := by
  cases pcIs : system.main with
  | create =>
      simp only [mainStep, pcIs] at steps
      split at steps
      · next more =>
          cases steps
          exact ⟨rfl, Or.inr (Or.inl ⟨rfl, rfl, more, rfl⟩)⟩
      · cases steps
        exact ⟨rfl, Or.inl rfl⟩
  | cancel i =>
      cases here : system.works[i]? with
      | none =>
          simp only [mainStep, pcIs, here] at steps
          cases steps
          exact ⟨rfl, Or.inl rfl⟩
      | some work =>
          simp only [mainStep, pcIs, here] at steps
          by_cases running : work.error = 0
          · rw [if_pos running] at steps
            cases steps
            exact ⟨rfl, Or.inr (Or.inr ⟨i, work, here, rfl⟩)⟩
          · rw [if_neg running] at steps
            cases steps
            exact ⟨rfl, Or.inl rfl⟩
  | readCnt i progress err | readError i progress err =>
      simp only [mainStep, pcIs] at steps
      obtain ⟨work, -, is⟩ := Option.map_eq_some_iff.mp steps
      subst is
      exact ⟨rfl, Or.inl rfl⟩
  | readCur i progress err =>
      simp only [mainStep, pcIs] at steps
      split at steps <;> cases steps <;> exact ⟨rfl, Or.inl rfl⟩
  | judge progress err =>
      simp only [mainStep, pcIs] at steps
      split at steps <;> cases steps <;> exact ⟨rfl, Or.inl rfl⟩
  | decide err =>
      simp only [mainStep, pcIs] at steps
      split at steps
      · cases steps
        exact ⟨rfl, Or.inl rfl⟩
      · split at steps <;> cases steps <;> exact ⟨rfl, Or.inl rfl⟩
  | join i rv =>
      simp only [mainStep, pcIs] at steps
      split at steps
      · cases steps
        exact ⟨rfl, Or.inl rfl⟩
      · split at steps <;> cases steps
        exact ⟨rfl, Or.inl rfl⟩
  | returned rv =>
      simp only [mainStep, pcIs] at steps
      cases steps

end KernelStuff.Negdentcreate
