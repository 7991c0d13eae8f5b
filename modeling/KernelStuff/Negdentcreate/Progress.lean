import KernelStuff.Negdentcreate.Threads
import Mathlib.Algebra.Order.BigOperators.Group.Finset
import Mathlib.Algebra.BigOperators.Group.Finset.Basic

/-!
# Progress of negdentcreate

The scan is no snapshot, but `cur` only grows and is bounded by `stop`.  So what
the scan adds up is a lower bound of the progress when it has ended, and it can
be `count` only if every worker has come to its end.
-/

namespace KernelStuff.Negdentcreate

variable {config : Config}

/-! ## No overflow -/

theorem ulong_of_lt {n : Nat} (small : n < 2 ^ 64) : ulong n = n :=
  Nat.mod_eq_of_lt small

theorem ulongSub_of_le {a b : Nat} (le : b ≤ a) (small : a < 2 ^ 64) :
    ulongSub a b = a - b := by
  rw [ulongSub, ulong]
  omega

theorem Config.mul_increment_le (config : Config) {i : Nat}
    (le : i ≤ config.nthread) : i * config.increment ≤ config.count :=
  Nat.le_trans (Nat.mul_le_mul_right _ le) (Nat.mul_div_le _ _)

theorem Config.total_eq (config : Config) :
    config.total = config.nthread * config.increment := by
  have le := config.mul_increment_le (Nat.le_refl _)
  have bound := config.count_lt
  rw [Config.total, Nat.mul_comm, ulong_of_lt (by omega)]

/-! ## One worker -/

/-- The operations for the indices from `start` to `cur`, all successful. -/
def done (config : Config) (start cur : Nat) : List Performed :=
  (List.range' start (cur - start)).map fun index =>
    ⟨index, filename config.pfx index, true⟩

theorem done_succ (config : Config) {start cur : Nat} (le : start ≤ cur) :
    done config start (cur + 1) =
      done config start cur ++ [⟨cur, filename config.pfx cur, true⟩] := by
  have shift : cur + 1 - start = (cur - start) + 1 := by omega
  have last : start + (cur - start) = cur := by omega
  rw [done, done, shift, List.range'_1_concat, List.map_append, last]
  rfl

/-- What the worker has performed beyond `done`, and what its place in the code
says about `cur`. -/
def Pending (config : Config) (work : Work) (pending : List Performed) : Prop :=
  match work.pc with
  | .opening | .assign => pending = [] ∧ work.cur = work.start
  | .poll | .operate => pending = [] ∧ work.cur < work.stop
  | .advance =>
      pending = [⟨work.cur, filename config.pfx work.cur, true⟩] ∧
        work.cur < work.stop
  | .report | .finished => pending = [] ∨ work.cur < work.stop
  | .compare | .recount | .again => pending = []

/-- The state of the `i`-th worker. -/
structure Valid (config : Config) (i : Nat) (work : Work) : Prop where
  start_eq : work.start = i * config.increment
  stop_eq : work.stop = (i + 1) * config.increment
  start_le : work.start ≤ work.cur
  le_stop : work.cur ≤ work.stop
  cnt_eq : work.cnt = 0
  performed_eq : ∃ pending,
    work.performed = done config work.start work.cur ++ pending ∧
      Pending config work pending

theorem newWork_valid (config : Config) {i : Nat} (inside : i < config.nthread) :
    Valid config i (config.newWork i) := by
  have startLe := config.mul_increment_le (Nat.le_of_lt inside)
  have stopLe := config.mul_increment_le inside
  have bound := config.count_lt
  have next : (i + 1) * config.increment = i * config.increment + config.increment :=
    Nat.succ_mul _ _
  have start : (config.newWork i).start = i * config.increment :=
    ulong_of_lt (by omega)
  have stop : (config.newWork i).stop = (i + 1) * config.increment := by
    change ulong ((config.newWork i).start + config.increment) = _
    rw [start, ← next]
    exact ulong_of_lt (Nat.lt_of_le_of_lt stopLe bound)
  refine ⟨start, stop, Nat.le_refl _, ?_, rfl, [], ?_, rfl, rfl⟩
  · rw [stop]
    change ulong _ ≤ _
    rw [ulong_of_lt (by omega)]
    omega
  · rw [done]
    change [] = (List.range' _ (ulong _ - ulong _)).map _ ++ []
    rw [Nat.sub_self]
    rfl

/-- A step of a worker keeps it valid, and its progress does not go back. -/
theorem statWorker_valid
    (once : config.loop = false) {i : Nat} (inside : i < config.nthread)
    {exiting succeeds : Bool} {work next : Work} (valid : Valid config i work)
    (steps : statWorker config exiting succeeds work = some next) :
    Valid config i next ∧ work.cur ≤ next.cur := by
  obtain ⟨startEq, stopEq, startLe, leStop, cntEq, pending, split, held⟩ := valid
  cases pcIs : work.pc with
  | opening =>
      rw [statWorker, pcIs] at steps
      rw [Pending, pcIs] at held
      cases steps
      refine
        ⟨⟨startEq, stopEq, startLe, leStop, cntEq, pending, split, ?_⟩,
          Nat.le_refl _⟩
      cases succeeds with
      | false => exact Or.inl held.1
      | true => exact held
  | assign =>
      rw [statWorker, pcIs] at steps
      rw [Pending, pcIs] at held
      cases steps
      rw [held.2] at split
      exact
        ⟨⟨startEq, stopEq, Nat.le_refl _, Nat.le_trans startLe leStop, cntEq,
          pending, split, held.1⟩, Nat.le_of_eq held.2⟩
  | compare =>
      rw [statWorker, pcIs] at steps
      rw [Pending, pcIs] at held
      cases steps
      refine
        ⟨⟨startEq, stopEq, startLe, leStop, cntEq, pending, split, ?_⟩,
          Nat.le_refl _⟩
      rw [Pending]
      by_cases before : work.cur < work.stop
      · simp only [if_pos before]
        exact ⟨held, before⟩
      · simp only [if_neg before]
        exact held
  | poll =>
      rw [statWorker, pcIs] at steps
      rw [Pending, pcIs] at held
      cases steps
      refine
        ⟨⟨startEq, stopEq, startLe, leStop, cntEq, pending, split, ?_⟩,
          Nat.le_refl _⟩
      cases exiting with
      | false => exact held
      | true => exact held.1
  | operate =>
      rw [statWorker, pcIs] at steps
      rw [Pending, pcIs] at held
      cases steps
      obtain ⟨nothing, before⟩ := held
      rw [nothing, List.append_nil] at split
      refine
        ⟨⟨startEq, stopEq, startLe, leStop, cntEq, _,
          congrArg (· ++ _) split, ?_⟩, Nat.le_refl _⟩
      cases succeeds with
      | false => exact Or.inr before
      | true => exact ⟨rfl, before⟩
  | advance =>
      rw [statWorker, pcIs] at steps
      rw [Pending, pcIs] at held
      cases steps
      obtain ⟨last, before⟩ := held
      have stopLe := config.mul_increment_le inside
      have bound := config.count_lt
      have curEq : ulong (work.cur + 1) = work.cur + 1 :=
        ulong_of_lt (by
          rw [stopEq] at before
          change work.cur < i.succ * config.increment at before
          omega)
      rw [last, ← done_succ config startLe] at split
      refine
        ⟨⟨startEq, stopEq, ?_, ?_, cntEq, [], ?_, rfl⟩, ?_⟩
      · change work.start ≤ ulong (work.cur + 1)
        omega
      · change ulong (work.cur + 1) ≤ work.stop
        omega
      · change work.performed = done config work.start (ulong (work.cur + 1)) ++ []
        rw [curEq, List.append_nil]
        exact split
      · change work.cur ≤ ulong (work.cur + 1)
        omega
  | report =>
      rw [statWorker, pcIs] at steps
      rw [Pending, pcIs] at held
      cases steps
      exact
        ⟨⟨startEq, stopEq, startLe, leStop, cntEq, pending, split, held⟩,
          Nat.le_refl _⟩
  | recount =>
      rw [statWorker, pcIs, once] at steps
      rw [Pending, pcIs] at held
      cases steps
      exact
        ⟨⟨startEq, stopEq, startLe, leStop, cntEq, pending, split, held⟩,
          Nat.le_refl _⟩
  | again =>
      rw [statWorker, pcIs, once] at steps
      rw [Pending, pcIs] at held
      cases steps
      exact
        ⟨⟨startEq, stopEq, startLe, leStop, cntEq, pending, split,
          Or.inl held⟩, Nat.le_refl _⟩
  | finished =>
      rw [statWorker, pcIs] at steps
      cases steps

/-- A worker that is cancelled stays valid. -/
theorem stopped_valid {i : Nat} {work : Work} (valid : Valid config i work) :
    Valid config i { work with pc := .finished } := by
  obtain ⟨startEq, stopEq, startLe, leStop, cntEq, pending, split, held⟩ := valid
  refine ⟨startEq, stopEq, startLe, leStop, cntEq, pending, split, ?_⟩
  cases pcIs : work.pc <;> rw [Pending, pcIs] at held
  case report | finished => exact held
  case poll | operate | advance => exact Or.inr held.2
  case opening | assign => exact Or.inl held.1
  case compare | recount | again => exact Or.inl held

/-! ## All workers -/

/-- The progress of the `i`-th worker. -/
def gain (works : List Work) (i : Nat) : Nat :=
  match works[i]? with
  | some work => work.cur - work.start
  | none => 0

/-- The progress of the first workers. -/
def gains (works : List Work) (number : Nat) : Nat :=
  ∑ i ∈ Finset.range number, gain works i

/-- Every worker has come to the end of its range. -/
def AllAtStop (works : List Work) : Prop :=
  ∀ work ∈ works, work.cur = work.stop

def AllValid (config : Config) (works : List Work) : Prop :=
  ∀ i work, works[i]? = some work → Valid config i work

/-- The workers have gone on, each from where it was. -/
def Advances (works next : List Work) : Prop :=
  next.length = works.length ∧
    ∀ (i : Nat) (work : Work), works[i]? = some work →
      ∃ later : Work, next[i]? = some later ∧ later.start = work.start ∧
        later.stop = work.stop ∧ work.cur ≤ later.cur

theorem advances_set {works : List Work} {i : Nat} {work next : Work}
    (here : works[i]? = some work) (start : next.start = work.start)
    (stop : next.stop = work.stop) (cur : work.cur ≤ next.cur) :
    Advances works (works.set i next) := by
  refine ⟨List.length_set, ?_⟩
  intro j other there
  by_cases same : i = j
  · subst same
    rw [here] at there
    cases there
    have inside := (List.getElem?_eq_some_iff.mp here).1
    exact ⟨next, List.getElem?_set_self inside, start, stop, cur⟩
  · exact
      ⟨other, (List.getElem?_set_ne same).trans there, rfl, rfl, Nat.le_refl _⟩

theorem allValid_set
    {works : List Work} (valid : AllValid config works) {i : Nat} {next : Work}
    (nextValid : Valid config i next) : AllValid config (works.set i next) := by
  intro j other there
  by_cases same : i = j
  · subst same
    rw [List.getElem?_set_self' ] at there
    obtain ⟨_, _, is⟩ := Option.map_eq_some_iff.mp there
    subst is
    exact nextValid
  · rw [List.getElem?_set_ne same] at there
    exact valid j other there

theorem Advances.gains_le
    {works next : List Work} (advances : Advances works next) (number : Nat) :
    gains works number ≤ gains next number := by
  apply Finset.sum_le_sum
  intro i _
  rw [gain, gain]
  cases here : works[i]? with
  | none => exact Nat.zero_le _
  | some work =>
      obtain ⟨later, there, start, _, cur⟩ := advances.2 i work here
      rw [there]
      dsimp only
      omega

theorem Advances.allAtStop
    {works next : List Work} (advances : Advances works next)
    (valid : AllValid config next) (atStop : AllAtStop works) :
    AllAtStop next := by
  intro later member
  obtain ⟨i, inside, there⟩ := List.getElem_of_mem member
  have before : i < works.length := by
    rw [← advances.1]
    exact inside
  have here : works[i]? = some works[i] := List.getElem?_eq_getElem before
  obtain ⟨other, otherThere, _, stop, cur⟩ := advances.2 i works[i] here
  rw [List.getElem?_eq_getElem inside, there] at otherThere
  cases otherThere
  have bound :=
    (valid i later (by rw [List.getElem?_eq_getElem inside, there])).le_stop
  have reached := atStop works[i] (List.getElem_mem before)
  omega

theorem gain_le {works : List Work} (valid : AllValid config works) (i : Nat) :
    gain works i ≤ config.increment := by
  rw [gain]
  cases here : works[i]? with
  | none => exact Nat.zero_le _
  | some work =>
      obtain ⟨startEq, stopEq, _, leStop, _, _⟩ := valid i work here
      rw [Nat.succ_mul] at stopEq
      dsimp only
      omega

/-- The sum is the total only if every worker is at its end. -/
theorem allAtStop_of_total_le
    {works : List Work} (valid : AllValid config works)
    (length : works.length = config.nthread)
    (enough : config.total ≤ gains works config.nthread) : AllAtStop works := by
  intro work member
  obtain ⟨i, inside, here⟩ := List.getElem_of_mem member
  have present : works[i]? = some work := by
    rw [List.getElem?_eq_getElem inside, here]
  obtain ⟨startEq, stopEq, startLe, leStop, _, _⟩ := valid i work present
  by_contra before
  have less : gain works i < config.increment := by
    rw [gain, present]
    rw [Nat.succ_mul] at stopEq
    dsimp only
    omega
  have missing :
      gains works config.nthread <
        ∑ _i ∈ Finset.range config.nthread, config.increment := by
    apply Finset.sum_lt_sum
    · exact fun j _ => gain_le valid j
    · exact ⟨i, Finset.mem_range.mpr (by omega), less⟩
  rw [Finset.sum_const_nat fun _ _ => rfl, Finset.card_range,
    ← config.total_eq] at missing
  omega

/-! ## The main thread -/

/-- What the place of the main thread says about the workers. -/
def MainHolds (config : Config) (works : List Work) (exiting : Bool) :
    MainPc → Prop
  | .create => works.length ≤ config.nthread
  | .readCur i progress _ =>
      works.length = config.nthread ∧ i ≤ config.nthread ∧
        progress ≤ gains works i
  | .readCnt i progress _ | .readError i progress _ =>
      works.length = config.nthread ∧ i < config.nthread ∧
        progress ≤ gains works (i + 1)
  | .judge progress _ =>
      works.length = config.nthread ∧ progress ≤ gains works config.nthread
  | .decide err =>
      works.length = config.nthread ∧
        (err = 0 → exiting = false → AllAtStop works)
  | .cancel _ => works.length = config.nthread
  | .join _ rv | .returned rv =>
      works.length = config.nthread ∧ (rv = exitSuccess → AllAtStop works)

structure Invariant (config : Config) (system : System) : Prop where
  valid : AllValid config system.works
  main : MainHolds config system.works system.exiting system.main

theorem initial_invariant (config : Config) :
    Invariant config System.initial where
  valid := by
    intro i work here
    cases here
  main := Nat.zero_le _

theorem Invariant.length_le {system : System}
    (invariant : Invariant config system) :
    system.works.length ≤ config.nthread := by
  have holds := invariant.main
  cases pcIs : system.main <;> rw [pcIs] at holds
  case create => exact holds
  case cancel => exact Nat.le_of_eq holds
  all_goals exact Nat.le_of_eq holds.1

/-- What holds of the workers goes on holding while they go on. -/
theorem mainHolds_of_advances
    {works next : List Work} {exiting later : Bool} {pc : MainPc}
    (advances : Advances works next) (valid : AllValid config next)
    (grows : later = false → exiting = false)
    (holds : MainHolds config works exiting pc) :
    MainHolds config next later pc := by
  have length := advances.1
  cases pc with
  | create =>
      change next.length ≤ _
      rw [length]
      exact holds
  | readCur i progress err =>
      exact
        ⟨length.trans holds.1, holds.2.1,
          Nat.le_trans holds.2.2 (advances.gains_le i)⟩
  | readCnt i progress err | readError i progress err =>
      exact
        ⟨length.trans holds.1, holds.2.1,
          Nat.le_trans holds.2.2 (advances.gains_le (i + 1))⟩
  | judge progress err =>
      exact
        ⟨length.trans holds.1,
          Nat.le_trans holds.2 (advances.gains_le config.nthread)⟩
  | decide err =>
      exact
        ⟨length.trans holds.1, fun none quiet =>
          advances.allAtStop valid (holds.2 none (grows quiet))⟩
  | cancel i => exact length.trans holds
  | join i rv | returned rv =>
      exact
        ⟨length.trans holds.1, fun success =>
          advances.allAtStop valid (holds.2 success)⟩

/-- A worker of a valid system takes a step of its own. -/
theorem Invariant.set
    {system : System} (invariant : Invariant config system) {i : Nat}
    {work next : Work} (here : system.works[i]? = some work)
    (valid : Valid config i next) (cur : work.cur ≤ next.cur) :
    Invariant config { system with works := system.works.set i next } := by
  have before := invariant.valid i work here
  have allValid := allValid_set invariant.valid valid
  have advances :=
    advances_set here (valid.start_eq.trans before.start_eq.symm)
      (valid.stop_eq.trans before.stop_eq.symm) cur
  exact
    ⟨allValid, mainHolds_of_advances advances allValid id invariant.main⟩

theorem gains_succ (works : List Work) (i : Nat) :
    gains works (i + 1) = gains works i + gain works i :=
  Finset.sum_range_succ _ _

theorem mainStep_invariant
    {system next : System}
    (invariant : Invariant config system)
    (steps : mainStep config system = some next) : Invariant config next := by
  have holds := invariant.main
  have valid := invariant.valid
  cases pcIs : system.main with
  | create =>
      rw [mainStep, pcIs] at steps
      rw [pcIs] at holds
      change system.works.length ≤ config.nthread at holds
      by_cases more : system.works.length < config.nthread
      · simp only [if_pos more] at steps
        cases steps
        refine ⟨?_, ?_⟩
        · intro i work here
          dsimp only at here
          rcases Nat.lt_or_ge i system.works.length with old | new
          · rw [List.getElem?_append_left old] at here
            exact valid i work here
          · rw [List.getElem?_append_right new] at here
            obtain ⟨inside, is⟩ := List.getElem?_eq_some_iff.mp here
            have last : i = system.works.length := by
              rw [List.length_singleton] at inside
              omega
            subst last
            rw [List.getElem_singleton] at is
            subst is
            exact newWork_valid config more
        · change (_ ++ [_]).length ≤ _
          rw [List.length_append, List.length_singleton]
          omega
      · simp only [if_neg more] at steps
        cases steps
        exact
          ⟨valid, Nat.le_antisymm holds (Nat.le_of_not_lt more),
            Nat.zero_le _, Nat.zero_le _⟩
  | readCur i progress err =>
      rw [mainStep, pcIs] at steps
      rw [pcIs] at holds
      obtain ⟨length, iLe, progressLe⟩ := holds
      cases here : system.works[i]? with
      | none =>
          simp only [here] at steps
          cases steps
          have beyond := List.getElem?_eq_none_iff.mp here
          have last : i = config.nthread := by omega
          subst last
          exact ⟨valid, length, progressLe⟩
      | some work =>
          simp only [here] at steps
          cases steps
          have inside := (List.getElem?_eq_some_iff.mp here).1
          obtain ⟨_, stopEq, startLe, leStop, _, _⟩ := valid i work here
          have stopLe := config.mul_increment_le (show i + 1 ≤ _ by omega)
          have bound := config.count_lt
          refine ⟨valid, length, by omega, ?_⟩
          rw [gains_succ, gain, here,
            ulongSub_of_le startLe (by omega), ulong]
          exact
            Nat.le_trans (Nat.mod_le _ _) (Nat.add_le_add_right progressLe _)
  | readCnt i progress err =>
      rw [mainStep, pcIs] at steps
      rw [pcIs] at holds
      obtain ⟨length, iLt, progressLe⟩ := holds
      obtain ⟨work, here, is⟩ := Option.map_eq_some_iff.mp steps
      subst is
      refine ⟨valid, length, iLt, ?_⟩
      rw [(valid i work here).cnt_eq, Nat.zero_mul, ulong, ulong, Nat.zero_mod,
        Nat.add_zero]
      exact Nat.le_trans (Nat.mod_le _ _) progressLe
  | readError i progress err =>
      rw [mainStep, pcIs] at steps
      rw [pcIs] at holds
      obtain ⟨length, iLt, progressLe⟩ := holds
      obtain ⟨work, here, is⟩ := Option.map_eq_some_iff.mp steps
      subst is
      exact ⟨valid, length, iLt, progressLe⟩
  | judge progress err =>
      rw [mainStep, pcIs] at steps
      rw [pcIs] at holds
      obtain ⟨length, progressLe⟩ := holds
      by_cases again :
          (progress < config.total ∨ config.loop) ∧ err = 0 ∧ ¬ system.exiting
      · simp only [if_pos again] at steps
        cases steps
        exact ⟨valid, length, Nat.zero_le _, Nat.zero_le _⟩
      · simp only [if_neg again] at steps
        cases steps
        refine ⟨valid, length, ?_⟩
        -- With no error and no signal the loop ends only for the progress.
        intro none quiet
        apply allAtStop_of_total_le valid length
        have reached : ¬ progress < config.total := by
          intro less
          apply again
          refine ⟨Or.inl less, none, ?_⟩
          rw [show system.exiting = false from quiet]
          decide
        omega
  | decide err =>
      rw [mainStep, pcIs] at steps
      rw [pcIs] at holds
      obtain ⟨length, atStop⟩ := holds
      by_cases failed : err ≠ 0
      · simp only [if_pos failed] at steps
        cases steps
        exact ⟨valid, length⟩
      · simp only [if_neg failed] at steps
        cases quiet : system.exiting with
        | true =>
            simp only [quiet, if_true] at steps
            cases steps
            exact ⟨valid, length, fun impossible => by cases impossible⟩
        | false =>
            simp only [quiet, Bool.false_eq_true, if_false] at steps
            cases steps
            exact ⟨valid, length, fun _ => atStop (not_not.mp failed) quiet⟩
  | cancel i =>
      rw [mainStep, pcIs] at steps
      rw [pcIs] at holds
      cases here : system.works[i]? with
      | none =>
          simp only [here] at steps
          cases steps
          exact ⟨valid, holds, fun impossible => by cases impossible⟩
      | some work =>
          simp only [here] at steps
          cases steps
          by_cases running : work.error = 0
          · simp only [if_pos running]
            have cancelled : Valid config i { work with cancelled := true } := by
              obtain ⟨startEq, stopEq, startLe, leStop, cntEq, performedEq⟩ :=
                valid i work here
              exact ⟨startEq, stopEq, startLe, leStop, cntEq, performedEq⟩
            exact
              ⟨allValid_set valid cancelled, List.length_set.trans holds⟩
          · simp only [if_neg running]
            exact ⟨valid, holds⟩
  | join i rv =>
      rw [mainStep, pcIs] at steps
      rw [pcIs] at holds
      cases here : system.works[i]? with
      | none =>
          simp only [here] at steps
          cases steps
          exact ⟨valid, holds⟩
      | some work =>
          simp only [here] at steps
          by_cases ended : work.pc = .finished
          · simp only [if_pos ended] at steps
            cases steps
            exact ⟨valid, holds⟩
          · simp only [if_neg ended] at steps
            cases steps
  | returned rv =>
      rw [mainStep, pcIs] at steps
      cases steps

/-- Every step keeps the invariant. -/
theorem step_invariant
    (once : config.loop = false) {system next : System} {event : Event}
    (invariant : Invariant config system)
    (steps : step config system event = some next) : Invariant config next := by
  cases event with
  | worker i succeeds =>
      obtain ⟨work, here, rest⟩ := Option.bind_eq_some_iff.mp steps
      obtain ⟨later, moves, is⟩ := Option.map_eq_some_iff.mp rest
      subst is
      have inside : i < config.nthread :=
        Nat.lt_of_lt_of_le (List.getElem?_eq_some_iff.mp here).1
          invariant.length_le
      obtain ⟨laterValid, cur⟩ :=
        statWorker_valid once inside (invariant.valid i work here) moves
      exact invariant.set here laterValid cur
  | stop i =>
      obtain ⟨work, here, rest⟩ := Option.bind_eq_some_iff.mp steps
      split at rest
      · cases rest
        exact
          invariant.set here (stopped_valid (invariant.valid i work here))
            (Nat.le_refl _)
      · cases rest
  | main => exact mainStep_invariant invariant steps
  | interrupt =>
      cases steps
      have stays : Advances system.works system.works :=
        ⟨rfl, fun i work here => ⟨work, here, rfl, rfl, Nat.le_refl _⟩⟩
      exact
        ⟨invariant.valid,
          mainHolds_of_advances stays invariant.valid
            (fun impossible => by cases impossible) invariant.main⟩

theorem reachable_invariant
    (once : config.loop = false) {system : System}
    (reachable : Reachable config system) : Invariant config system := by
  induction reachable with
  | refl => exact initial_invariant config
  | tail _ moves inductionHypothesis =>
      obtain ⟨event, steps⟩ := moves
      exact step_invariant once inductionHypothesis steps

/-! ## Success -/

theorem done_append (config : Config) {first second third : Nat}
    (left : first ≤ second) (right : second ≤ third) :
    done config first second ++ done config second third =
      done config first third := by
  have start : second = first + (second - first) := by omega
  have length : third - first = (second - first) + (third - second) := by omega
  rw [done, done, done, ← List.map_append, length]
  nth_rewrite 2 [start]
  rw [List.range'_append_1]

/-- A worker at the end of its range has performed everything in it. -/
theorem Valid.performed_of_atStop
    {i : Nat} {work : Work} (valid : Valid config i work)
    (atStop : work.cur = work.stop) :
    work.performed =
      done config (i * config.increment) ((i + 1) * config.increment) := by
  obtain ⟨startEq, stopEq, _, _, _, pending, split, held⟩ := valid
  have nothing : pending = [] := by
    cases pcIs : work.pc <;> rw [Pending, pcIs] at held
    case report | finished => exact held.resolve_right (by omega)
    case poll | operate | advance => exact absurd held.2 (by omega)
    case opening | assign => exact held.1
    case compare | recount | again => exact held
  rw [split, nothing, List.append_nil, atStop, startEq, stopEq]

theorem performed_of_allAtStop
    {works : List Work} (valid : AllValid config works)
    (atStop : AllAtStop works) :
    ∀ number, number ≤ works.length →
      (works.take number).flatMap Work.performed =
        done config 0 (number * config.increment)
  | 0, _ => by
      rw [List.take_zero, Nat.zero_mul]
      rfl
  | number + 1, le => by
      have here : works[number]? = some works[number] :=
        List.getElem?_eq_getElem le
      rw [List.take_add_one, here, List.flatMap_append,
        performed_of_allAtStop valid atStop number (Nat.le_of_succ_le le)]
      change _ ++ (works[number].performed ++ []) = _
      rw [List.append_nil,
        (valid number _ here).performed_of_atStop
          (atStop _ (List.getElem_mem le))]
      apply done_append config (Nat.zero_le _)
      exact Nat.mul_le_mul_right _ (Nat.le_succ _)

/-- Each index below the rounded count has been operated on once, with success, and
no operation has failed; every worker has come to its end. -/
structure Complete (config : Config) (system : System) : Prop where
  each : ∀ index, index < config.count / config.nthread * config.nthread →
    system.performed.filter (fun record => record.index == index) =
      [⟨index, filename config.pfx index, true⟩]
  only : ∀ record ∈ system.performed,
    record.success = true ∧
      record.index < config.count / config.nthread * config.nthread
  atStop : system.works.length = config.nthread ∧ AllAtStop system.works

theorem filter_done (config : Config) {number index : Nat}
    (inside : index < number) :
    (done config 0 number).filter (fun record => record.index == index) =
      [⟨index, filename config.pfx index, true⟩] := by
  have once : (List.range number).count index = 1 :=
    List.count_eq_one_of_mem List.nodup_range (List.mem_range.mpr inside)
  rw [done, Nat.sub_zero, ← List.range_eq_range', List.filter_map]
  change ((List.range number).filter (· == index)).map _ = _
  rw [List.filter_beq, once]
  rfl

/-- For every order of the steps and every moment of a `SIGINT`: if `main` returns
`EXIT_SUCCESS` all the work has been done. -/
theorem negdentcreate_success_complete
    (once : config.loop = false) {system : System}
    (reachable : Reachable config system)
    (success : system.main = .returned exitSuccess) :
    Complete config system := by
  obtain ⟨valid, holds⟩ := reachable_invariant once reachable
  rw [success] at holds
  obtain ⟨length, reached⟩ := holds
  have atStop := reached rfl
  have performed :
      system.performed =
        done config 0 (config.count / config.nthread * config.nthread) := by
    have whole :=
      performed_of_allAtStop valid atStop system.works.length (Nat.le_refl _)
    rw [List.take_length, length, Nat.mul_comm] at whole
    exact whole
  refine ⟨?_, ?_, length, atStop⟩
  · intro index inside
    rw [performed]
    exact filter_done config inside
  · intro record member
    rw [performed] at member
    obtain ⟨index, inRange, is⟩ := List.mem_map.mp member
    subst is
    have inside := (List.mem_range'_1.mp inRange).2
    rw [Nat.sub_zero, Nat.zero_add] at inside
    exact ⟨rfl, inside⟩

/-! ## Examples -/

/-- Two threads, and a count that is rounded to two files. -/
def twoFiles : Config where
  nthread := 2
  count := 3
  pfx := [102]
  loop := false
  nthread_pos := by decide
  nthread_lt := by decide
  count_lt := by decide

/-- The first worker starts before the second one is there, and both go on while
`main` reads their progress; it has to read it twice. -/
def twoFilesEvents : List Event :=
  [.main, .worker 0 true, .main, .worker 0 true, .worker 1 true] ++
    (List.replicate 7 [.main, .worker 1 true, .worker 0 true]).flatten ++
    [.main, .worker 1 true] ++ List.replicate 13 .main

/-- Run the events, as far as they are enabled. -/
def runEvents (config : Config) (system : System) : List Event → Option System
  | [] => some system
  | event :: rest => (step config system event).bind fun next =>
      runEvents config next rest

theorem reachable_of_runEvents
    {config : Config} {events : List Event} {system last : System}
    (reachable : Reachable config system)
    (run : runEvents config system events = some last) :
    Reachable config last := by
  induction events generalizing system with
  | nil =>
      cases run
      exact reachable
  | cons event rest inductionHypothesis =>
      obtain ⟨next, steps, later⟩ := Option.bind_eq_some_iff.mp run
      exact inductionHypothesis (reachable.tail ⟨event, steps⟩) later

theorem negdentcreate_success_twoFiles :
    ∃ last, runEvents twoFiles System.initial twoFilesEvents = some last ∧
      Complete twoFiles last := by
  have ends :
      (runEvents twoFiles System.initial twoFilesEvents).map System.main =
        some (.returned exitSuccess) := by
    decide +kernel
  obtain ⟨last, run, success⟩ := Option.map_eq_some_iff.mp ends
  exact
    ⟨last, run,
      negdentcreate_success_complete rfl
        (reachable_of_runEvents Relation.ReflTransGen.refl run) success⟩

end KernelStuff.Negdentcreate
