import KernelStuff.Negdentcreate.Progress

/-!
# What a SIGINT does to negdentcreate

Once `exiting` is set no worker begins another operation, and every step that
changes anything brings all threads nearer to their end.
-/

namespace KernelStuff.Negdentcreate

/-- How many steps a worker has before it when `exiting` is set. -/
def WorkerPc.left : WorkerPc → Nat
  | .finished => 0
  | .report | .again => 1
  | .recount => 2
  | .poll => 3
  | .compare => 4
  | .assign | .advance => 5
  | .opening | .operate => 6

/-- The operations it still performs. -/
def WorkerPc.operationsLeft : WorkerPc → Nat
  | .operate => 1
  | _ => 0

/-- How many steps the main thread has before it, and the workers that it has
still to create. -/
def MainPc.left (nthread created : Nat) : MainPc → Nat
  | .create => 6 + 5 * nthread + 7 * (nthread - created)
  | .readCur i _ _ => 5 + 2 * nthread + 3 * (nthread - i)
  | .readCnt i _ _ => 4 + 2 * nthread + 3 * (nthread - i)
  | .readError i _ _ => 3 + 2 * nthread + 3 * (nthread - i)
  | .judge _ _ => 4 + 2 * nthread
  | .decide _ => 3 + 2 * nthread
  | .cancel i => 2 + nthread + (nthread - i)
  | .join i _ => 1 + (nthread - i)
  | .returned _ => 0

def System.left (config : Config) (system : System) : Nat :=
  (system.works.map fun work => work.pc.left).sum +
    system.main.left config.nthread system.works.length

/-- The main thread looks only at workers that are there. -/
def MainPc.Inside (nthread created : Nat) : MainPc → Prop
  | .create => created ≤ nthread
  | .readCur i _ _ | .cancel i | .join i _ => created = nthread ∧ i ≤ nthread
  | .readCnt i _ _ | .readError i _ _ => created = nthread ∧ i < nthread
  | .judge _ _ | .decide _ | .returned _ => created = nthread

/-- The main thread has not decided yet how the run ends. -/
def MainPc.Undecided : MainPc → Prop
  | .create | .readCur _ _ _ | .readCnt _ _ _ | .readError _ _ _ | .judge _ _ |
      .decide _ => True
  | .cancel _ | .join _ _ | .returned _ => False

/-- The main thread does not come to return success. -/
def MainPc.Failing : MainPc → Prop
  | .join _ rv | .returned rv => rv = exitFailure
  | _ => True

theorem MainPc.Undecided.failing {pc : MainPc} (undecided : pc.Undecided) :
    pc.Failing := by
  cases pc <;> trivial

/-! ## One step -/

theorem sum_left_set
    {works : List Work} {i : Nat} {work : Work}
    (here : works[i]? = some work) (next : Work) :
    ((works.set i next).map fun work => work.pc.left).sum + work.pc.left =
      (works.map fun work => work.pc.left).sum + next.pc.left := by
  induction works generalizing i with
  | nil => cases here
  | cons first rest inductionHypothesis =>
      cases i with
      | zero =>
          cases here
          simp only [List.set_cons_zero, List.map_cons, List.sum_cons]
          omega
      | succ i =>
          have later := inductionHypothesis here
          simp only [List.set_cons_succ, List.map_cons, List.sum_cons]
          omega

theorem statWorker_left
    {config : Config} {succeeds : Bool} {work next : Work}
    (steps : statWorker config true succeeds work = some next) :
    next.pc.left < work.pc.left := by
  cases pcIs : work.pc <;> simp only [statWorker, pcIs] at steps <;>
    cases steps
  case opening | operate => cases succeeds <;> simp [WorkerPc.left]
  case compare =>
    by_cases more : work.cur < work.stop <;> simp [more, WorkerPc.left]
  all_goals simp [WorkerPc.left]

/-- The worker performs nothing but the operation that it is about to do. -/
def EndsSoon (work later : Work) : Prop :=
  ∃ more, later.performed = work.performed ++ more ∧
    more.length + later.pc.operationsLeft ≤ work.pc.operationsLeft

theorem statWorker_endsSoon
    {config : Config} {succeeds : Bool} {work next : Work}
    (steps : statWorker config true succeeds work = some next) :
    EndsSoon work next := by
  cases pcIs : work.pc <;> simp only [statWorker, pcIs] at steps <;>
    cases steps
  case operate =>
    refine ⟨_, rfl, ?_⟩
    cases succeeds <;> simp [pcIs, WorkerPc.operationsLeft]
  case opening =>
    refine ⟨[], (List.append_nil _).symm, ?_⟩
    cases succeeds <;> simp [WorkerPc.operationsLeft]
  case compare =>
    refine ⟨[], (List.append_nil _).symm, ?_⟩
    by_cases more : work.cur < work.stop <;>
      simp [more, WorkerPc.operationsLeft]
  all_goals
    refine ⟨[], (List.append_nil _).symm, ?_⟩
    simp [WorkerPc.operationsLeft]

/-- The main thread looks at workers that are there; interrupted, it comes nearer
to its end and does not decide for success. -/
theorem mainStep_left
    {config : Config} {system next : System}
    (inside : system.main.Inside config.nthread system.works.length)
    (steps : mainStep config system = some next) :
    next.main.Inside config.nthread next.works.length ∧
      (system.exiting = true →
        next.left config < system.left config ∧
          (system.main.Failing → next.main.Failing)) := by
  cases pcIs : system.main with
  | create =>
      rw [pcIs] at inside
      simp only [mainStep, pcIs] at steps
      split at steps
      · next more =>
          cases steps
          refine ⟨?_, fun _ => ⟨?_, fun _ => trivial⟩⟩
          · simp only [MainPc.Inside, List.length_append, List.length_singleton]
            omega
          · simp only [System.left, MainPc.left, pcIs, List.map_append,
              List.sum_append, List.length_append, List.map_cons, List.map_nil,
              List.sum_singleton, List.length_singleton, Config.newWork,
              WorkerPc.left]
            omega
      · cases steps
        refine ⟨?_, fun _ => ⟨?_, fun _ => trivial⟩⟩
        · simp only [MainPc.Inside] at inside ⊢
          omega
        · simp only [System.left, MainPc.left, pcIs]
          omega
  | readCur i progress err =>
      rw [pcIs] at inside
      simp only [MainPc.Inside] at inside
      cases here : system.works[i]? with
      | none =>
          simp only [mainStep, pcIs, here] at steps
          cases steps
          refine ⟨inside.1, fun _ => ⟨?_, fun _ => trivial⟩⟩
          simp only [System.left, MainPc.left, pcIs]
          omega
      | some work =>
          have bound := (List.getElem?_eq_some_iff.mp here).1
          simp only [mainStep, pcIs, here] at steps
          cases steps
          refine ⟨⟨inside.1, by omega⟩, fun _ => ⟨?_, fun _ => trivial⟩⟩
          simp only [System.left, MainPc.left, pcIs]
          omega
  | readCnt i progress err =>
      rw [pcIs] at inside
      simp only [mainStep, pcIs] at steps
      obtain ⟨work, -, is⟩ := Option.map_eq_some_iff.mp steps
      subst is
      refine ⟨inside, fun _ => ⟨?_, fun _ => trivial⟩⟩
      simp only [System.left, MainPc.left, pcIs]
      omega
  | readError i progress err =>
      rw [pcIs] at inside
      simp only [mainStep, pcIs] at steps
      obtain ⟨work, -, is⟩ := Option.map_eq_some_iff.mp steps
      subst is
      simp only [MainPc.Inside] at inside
      refine ⟨⟨inside.1, inside.2⟩, fun _ => ⟨?_, fun _ => trivial⟩⟩
      simp only [System.left, MainPc.left, pcIs]
      omega
  | judge progress err =>
      rw [pcIs] at inside
      simp only [mainStep, pcIs] at steps
      split at steps
      · next again =>
          cases steps
          refine ⟨⟨inside, Nat.zero_le _⟩, ?_⟩
          intro interrupted
          exact absurd interrupted again.2.2
      · cases steps
        refine ⟨inside, fun _ => ⟨?_, fun _ => trivial⟩⟩
        simp only [System.left, MainPc.left, pcIs]
        omega
  | decide err =>
      rw [pcIs] at inside
      simp only [mainStep, pcIs] at steps
      split at steps
      · cases steps
        refine ⟨⟨inside, Nat.zero_le _⟩, fun _ => ⟨?_, fun _ => trivial⟩⟩
        simp only [System.left, MainPc.left, pcIs]
        omega
      · split at steps
        · cases steps
          refine ⟨⟨inside, Nat.zero_le _⟩, fun _ => ⟨?_, fun _ => rfl⟩⟩
          simp only [System.left, MainPc.left, pcIs]
          omega
        · next quiet =>
            cases steps
            refine ⟨⟨inside, Nat.zero_le _⟩, ?_⟩
            intro interrupted
            exact absurd interrupted quiet
  | cancel i =>
      rw [pcIs] at inside
      simp only [MainPc.Inside] at inside
      cases here : system.works[i]? with
      | none =>
          simp only [mainStep, pcIs, here] at steps
          cases steps
          refine ⟨⟨inside.1, Nat.zero_le _⟩, fun _ => ⟨?_, fun _ => rfl⟩⟩
          simp only [System.left, MainPc.left, pcIs]
          omega
      | some work =>
          have bound := (List.getElem?_eq_some_iff.mp here).1
          have unchanged := sum_left_set here { work with cancelled := true }
          have same : ({ work with cancelled := true } : Work).pc.left =
              work.pc.left :=
            rfl
          rw [inside.1] at bound
          simp only [mainStep, pcIs, here] at steps
          split at steps <;> cases steps
          · have length :
                (system.works.set i { work with cancelled := true }).length =
                  config.nthread := by
              rw [List.length_set, inside.1]
            refine ⟨⟨length, bound⟩, fun _ => ⟨?_, fun _ => trivial⟩⟩
            simp only [System.left, MainPc.left, pcIs]
            omega
          · refine ⟨⟨inside.1, bound⟩, fun _ => ⟨?_, fun _ => trivial⟩⟩
            simp only [System.left, MainPc.left, pcIs]
            omega
  | join i rv =>
      rw [pcIs] at inside
      simp only [MainPc.Inside] at inside
      cases here : system.works[i]? with
      | none =>
          simp only [mainStep, pcIs, here] at steps
          cases steps
          refine ⟨inside.1, fun _ => ⟨?_, id⟩⟩
          simp only [System.left, MainPc.left, pcIs]
          omega
      | some work =>
          have bound := (List.getElem?_eq_some_iff.mp here).1
          simp only [mainStep, pcIs, here] at steps
          split at steps <;> cases steps
          refine ⟨⟨inside.1, by omega⟩, fun _ => ⟨?_, id⟩⟩
          simp only [System.left, MainPc.left, pcIs]
          omega
  | returned rv =>
      simp only [mainStep, pcIs] at steps
      cases steps

theorem reachable_inside
    {config : Config} {system : System} (reachable : Reachable config system) :
    system.main.Inside config.nthread system.works.length := by
  induction reachable with
  | refl => exact Nat.zero_le _
  | @tail system next _ moves inside =>
      obtain ⟨event, steps⟩ := moves
      cases event with
      | worker i succeeds =>
          obtain ⟨work, here, rest⟩ := Option.bind_eq_some_iff.mp steps
          obtain ⟨later, moves, is⟩ := Option.map_eq_some_iff.mp rest
          subst is
          rw [List.length_set]
          exact inside
      | stop i =>
          obtain ⟨work, here, rest⟩ := Option.bind_eq_some_iff.mp steps
          split at rest <;> cases rest
          rw [List.length_set]
          exact inside
      | main => exact (mainStep_left inside steps).1
      | interrupt =>
          cases steps
          exact inside

/-! ## All workers -/

/-- What the `i`-th worker has performed. -/
def performedBy (works : List Work) (i : Nat) : List Performed :=
  (works[i]?.map Work.performed).getD []

def operationsLeftOf (works : List Work) (i : Nat) : Nat :=
  (works[i]?.map fun work => work.pc.operationsLeft).getD 0

def AllEndSoon (works later : List Work) : Prop :=
  ∀ i, ∃ more, performedBy later i = performedBy works i ++ more ∧
    more.length + operationsLeftOf later i ≤ operationsLeftOf works i

theorem allEndSoon_refl (works : List Work) : AllEndSoon works works :=
  fun _ => ⟨[], (List.append_nil _).symm, by simp⟩

theorem AllEndSoon.trans {first second third : List Work}
    (left : AllEndSoon first second) (right : AllEndSoon second third) :
    AllEndSoon first third := by
  intro i
  obtain ⟨before, performed, few⟩ := left i
  obtain ⟨after, laterPerformed, fewer⟩ := right i
  refine ⟨before ++ after, ?_, ?_⟩
  · rw [laterPerformed, performed, List.append_assoc]
  · rw [List.length_append]
    omega

theorem allEndSoon_set
    {works : List Work} {i : Nat} {work next : Work}
    (here : works[i]? = some work) (ends : EndsSoon work next) :
    AllEndSoon works (works.set i next) := by
  intro j
  by_cases same : i = j
  · subst same
    have changed : (works.set i next)[i]? = some next :=
      List.getElem?_set_self (List.getElem?_eq_some_iff.mp here).1
    rw [performedBy, performedBy, operationsLeftOf, operationsLeftOf, changed,
      here]
    exact ends
  · rw [performedBy, performedBy, operationsLeftOf, operationsLeftOf,
      List.getElem?_set_ne same]
    exact ⟨[], (List.append_nil _).symm, by simp⟩

theorem allEndSoon_append
    {works : List Work} {work : Work} (fresh : work.performed = [])
    (idle : work.pc.operationsLeft = 0) :
    AllEndSoon works (works ++ [work]) := by
  intro i
  refine ⟨[], ?_, ?_⟩
  · rw [performedBy, performedBy, List.append_nil, List.getElem?_append]
    split
    · rfl
    · next outside =>
        rw [List.getElem?_eq_none (Nat.le_of_not_lt outside)]
        cases i - works.length <;> simp [fresh]
  · rw [operationsLeftOf, operationsLeftOf, List.getElem?_append]
    split
    · simp
    · cases i - works.length <;> simp [idle]

theorem step_interrupted
    {config : Config} {system next : System} {event : Event}
    (interrupted : system.exiting = true)
    (inside : system.main.Inside config.nthread system.works.length)
    (steps : step config system event = some next) :
    next.exiting = true ∧
      (next ≠ system → next.left config < system.left config) ∧
      (system.main.Failing → next.main.Failing) ∧
      AllEndSoon system.works next.works := by
  cases event with
  | worker i succeeds =>
      obtain ⟨work, here, rest⟩ := Option.bind_eq_some_iff.mp steps
      obtain ⟨later, moves, is⟩ := Option.map_eq_some_iff.mp rest
      subst is
      rw [interrupted] at moves
      have fewer := statWorker_left moves
      have exchange := sum_left_set here later
      refine
        ⟨interrupted, fun _ => ?_, id,
          allEndSoon_set here (statWorker_endsSoon moves)⟩
      simp only [System.left, List.length_set]
      omega
  | stop i =>
      obtain ⟨work, here, rest⟩ := Option.bind_eq_some_iff.mp steps
      split at rest <;> cases rest
      have exchange := sum_left_set here { work with pc := .finished }
      refine
        ⟨interrupted, fun changes => ?_, id,
          allEndSoon_set here
            ⟨[], (List.append_nil _).symm, Nat.zero_le _⟩⟩
      have running : work.pc ≠ .finished := by
        intro finished
        apply changes
        have same : { work with pc := .finished } = work := by
          rw [← finished]
        obtain ⟨bound, is⟩ := List.getElem?_eq_some_iff.mp here
        rw [same, ← is, List.set_getElem_self]
      have positive : 0 < work.pc.left := by
        cases pcIs : work.pc
        case finished => exact absurd pcIs running
        all_goals simp [WorkerPc.left]
      have nothing : ({ work with pc := .finished } : Work).pc.left = 0 := rfl
      simp only [System.left, List.length_set]
      omega
  | main =>
      obtain ⟨-, ends⟩ := mainStep_left inside steps
      obtain ⟨fewer, failing⟩ := ends interrupted
      obtain ⟨same, unchanged | ⟨-, -, -, grown⟩ | ⟨i, work, here, cancelled⟩⟩ :=
        mainStep_works steps
      · refine ⟨same.trans interrupted, fun _ => fewer, failing, ?_⟩
        rw [unchanged]
        exact allEndSoon_refl _
      · refine ⟨same.trans interrupted, fun _ => fewer, failing, ?_⟩
        rw [grown]
        exact allEndSoon_append rfl rfl
      · refine ⟨same.trans interrupted, fun _ => fewer, failing, ?_⟩
        rw [cancelled]
        exact
          allEndSoon_set here
            ⟨[], (List.append_nil _).symm, Nat.le_of_eq (Nat.zero_add _)⟩
  | interrupt =>
      cases steps
      have same : { system with exiting := true } = system := by
        rw [← interrupted]
      exact
        ⟨rfl, fun changes => absurd same changes, id, allEndSoon_refl _⟩

/-! ## Runs -/

/-- A run of `count` steps each of which changes the state. -/
inductive ProperRun (config : Config) (source : System) :
    Nat → System → Prop
  | refl : ProperRun config source 0 source
  | tail {count : Nat} {middle target : System} {event : Event}
      (run : ProperRun config source count middle)
      (steps : step config middle event = some target)
      (changes : target ≠ middle) :
      ProperRun config source (count + 1) target

theorem ProperRun.reachable
    {config : Config} {source target : System} {count : Nat}
    (reachable : Reachable config source)
    (run : ProperRun config source count target) : Reachable config target := by
  induction run with
  | refl => exact reachable
  | tail _ steps _ inductionHypothesis =>
      exact inductionHypothesis.tail ⟨_, steps⟩

theorem properRun_interrupted
    {config : Config} {source target : System} {count : Nat}
    (reachable : Reachable config source) (interrupted : source.exiting = true)
    (run : ProperRun config source count target) :
    target.exiting = true ∧
      count + target.left config ≤ source.left config ∧
      (source.main.Failing → target.main.Failing) ∧
      AllEndSoon source.works target.works := by
  induction run with
  | refl =>
      exact
        ⟨interrupted, Nat.le_of_eq (Nat.zero_add _), id, allEndSoon_refl _⟩
  | tail run steps changes inductionHypothesis =>
      obtain ⟨exiting, bound, failing, ends⟩ := inductionHypothesis
      have inside := reachable_inside (run.reachable reachable)
      obtain ⟨stays, fewer, fails, soon⟩ :=
        step_interrupted exiting inside steps
      have fewer := fewer changes
      exact
        ⟨stays, by omega, fun before => fails (failing before),
          ends.trans soon⟩

theorem sum_left_le (works : List Work) :
    (works.map fun work => work.pc.left).sum ≤ 6 * works.length := by
  induction works with
  | nil => exact Nat.le_refl 0
  | cons work rest inductionHypothesis =>
      have bound : work.pc.left ≤ 6 := by
        cases work.pc <;> decide
      simp only [List.map_cons, List.sum_cons, List.length_cons]
      omega

/-- How long it can take from any state. -/
theorem left_le
    {config : Config} {system : System}
    (inside : system.main.Inside config.nthread system.works.length) :
    system.left config ≤ 12 * config.nthread + 6 := by
  have workers := sum_left_le system.works
  rw [System.left]
  cases pcIs : system.main <;> rw [pcIs] at inside <;>
    simp only [MainPc.Inside] at inside <;> simp only [MainPc.left] <;> omega

theorem statWorker_enabled
    (config : Config) (exiting succeeds : Bool) {work : Work}
    (running : work.pc ≠ .finished) :
    ∃ next, statWorker config exiting succeeds work = some next := by
  cases pcIs : work.pc
  case finished => exact absurd pcIs running
  all_goals exact ⟨_, by simp only [statWorker, pcIs]; rfl⟩

theorem mainStep_enabled
    {config : Config} {system : System}
    (inside : system.main.Inside config.nthread system.works.length)
    (finished : ∀ work ∈ system.works, work.pc = .finished)
    (running : ∀ rv, system.main ≠ .returned rv) :
    ∃ next, mainStep config system = some next := by
  cases pcIs : system.main with
  | create =>
      simp only [mainStep, pcIs]
      split <;> exact ⟨_, rfl⟩
  | readCur i progress err | cancel i =>
      simp only [mainStep, pcIs]
      split <;> exact ⟨_, rfl⟩
  | readCnt i progress err | readError i progress err =>
      rw [pcIs] at inside
      have present : i < system.works.length := inside.1 ▸ inside.2
      simp only [mainStep, pcIs, List.getElem?_eq_getElem present]
      exact ⟨_, rfl⟩
  | judge progress err =>
      simp only [mainStep, pcIs]
      split <;> exact ⟨_, rfl⟩
  | decide err =>
      simp only [mainStep, pcIs]
      split
      · exact ⟨_, rfl⟩
      · split <;> exact ⟨_, rfl⟩
  | join i rv =>
      cases here : system.works[i]? with
      | none =>
          simp only [mainStep, pcIs, here]
          exact ⟨_, rfl⟩
      | some work =>
          have done := finished work (List.mem_of_getElem? here)
          simp only [mainStep, pcIs, here, done, if_true]
          exact ⟨_, rfl⟩
  | returned rv => exact absurd pcIs (running rv)

/-- Nobody waits for ever: where no step changes anything, `main` has returned and
the threads are gone. -/
theorem finished_of_stuck
    {config : Config} {system : System}
    (interrupted : system.exiting = true)
    (inside : system.main.Inside config.nthread system.works.length)
    (stuck : ∀ event next, step config system event = some next →
      next = system) :
    (∃ rv, system.main = .returned rv) ∧
      ∀ work ∈ system.works, work.pc = .finished := by
  have finished : ∀ work ∈ system.works, work.pc = .finished := by
    intro work member
    obtain ⟨i, here⟩ := List.mem_iff_getElem?.mp member
    by_contra running
    obtain ⟨next, moves⟩ := statWorker_enabled config true true running
    have fewer := statWorker_left moves
    have steps :
        step config system (.worker i true) =
          some { system with works := system.works.set i next } := by
      rw [step, here, Option.bind_some, interrupted, moves]
      rfl
    have same := congrArg System.works (stuck _ _ steps)
    have changed : (system.works.set i next)[i]? = some next :=
      List.getElem?_set_self (List.getElem?_eq_some_iff.mp here).1
    dsimp only at same
    rw [same, here] at changed
    cases changed
    omega
  refine ⟨?_, finished⟩
  by_contra running
  obtain ⟨next, moves⟩ :=
    mainStep_enabled inside finished fun rv is => running ⟨rv, is⟩
  have fewer := ((mainStep_left inside moves).2 interrupted).1
  rw [stuck .main next moves] at fewer
  exact Nat.lt_irrefl _ fewer

/-- A `SIGINT` ends the program, whatever the order of the steps: each worker
performs no more than the operation it was about to do, a run has no more than
twelve steps for each thread and six that change anything, and it ends only when
`main` has returned and all threads are gone; if `main` had not decided before,
it returns `EXIT_FAILURE`. -/
theorem negdentcreate_interrupt
    {config : Config} {source : System} (reachable : Reachable config source)
    (interrupted : source.exiting = true)
    {target : System} {count : Nat}
    (run : ProperRun config source count target) :
    count ≤ 12 * config.nthread + 6 ∧
      (∀ i, ∃ more,
        performedBy target.works i = performedBy source.works i ++ more ∧
          more.length ≤ operationsLeftOf source.works i) ∧
      ((∀ event next, step config target event = some next → next = target) →
        (∃ rv, target.main = .returned rv) ∧
          ∀ work ∈ target.works, work.pc = .finished) ∧
      (source.main.Undecided →
        ∀ rv, target.main = .returned rv → rv = exitFailure) := by
  have inside := reachable_inside reachable
  obtain ⟨exiting, bound, failing, ends⟩ :=
    properRun_interrupted reachable interrupted run
  refine ⟨?_, ?_, ?_, ?_⟩
  · have longest := left_le inside
    omega
  · intro i
    obtain ⟨more, performed, few⟩ := ends i
    exact ⟨more, performed, Nat.le_of_add_right_le few⟩
  · exact finished_of_stuck exiting (reachable_inside (run.reachable reachable))
  · intro undecided rv returned
    have fails := failing undecided.failing
    rw [returned] at fails
    exact fails

/-- Run the events, as far as each of them changes the state. -/
def runProper (config : Config) (system : System) : List Event → Option System
  | [] => some system
  | event :: rest =>
      (step config system event).bind fun next =>
        if next = system then none else runProper config next rest

theorem properRun_of_runProper
    {config : Config} {source middle target : System} {events : List Event}
    {count : Nat} (before : ProperRun config source count middle)
    (run : runProper config middle events = some target) :
    ProperRun config source (count + events.length) target := by
  induction events generalizing count middle with
  | nil =>
      cases run
      exact before
  | cons event rest inductionHypothesis =>
      obtain ⟨next, steps, later⟩ := Option.bind_eq_some_iff.mp run
      split at later
      · cases later
      · next changes =>
          have whole := inductionHypothesis (before.tail steps changes) later
          rw [List.length_cons, Nat.add_comm rest.length, ← Nat.add_assoc]
          exact whole

/-- The interrupt comes when the first worker is at its operation, the second one
opens its directory, and `main` reads the progress. -/
def interruptedTwoFiles : System where
  works := [{ twoFiles.newWork 0 with pc := .operate }, twoFiles.newWork 1]
  exiting := true
  main := .readCnt 0 0 0

def interruptedEvents : List Event :=
  [.main, .worker 0 true, .main] ++ List.replicate 3 (.worker 0 true) ++
    [.main, .main, .interrupt]

/-- The first worker operates once more, the second one not at all. -/
def lastEvents : List Event :=
  [.worker 1 true, .main, .worker 0 true, .main, .worker 1 true] ++
    (List.replicate 3 [.worker 0 true, .main, .worker 1 true]).flatten ++
    [.worker 0 true, .worker 1 true] ++ List.replicate 6 .main

def lastState : System where
  works :=
    [{ twoFiles.newWork 0 with
        cur := 1
        pc := .finished
        performed := [⟨0, filename twoFiles.pfx 0, true⟩] },
      { twoFiles.newWork 1 with pc := .finished }]
  exiting := true
  main := .returned exitFailure

theorem negdentcreate_interrupt_twoFiles :
    runEvents twoFiles System.initial interruptedEvents =
        some interruptedTwoFiles ∧
      runProper twoFiles interruptedTwoFiles lastEvents = some lastState ∧
      lastEvents.length ≤ 12 * twoFiles.nthread + 6 ∧
      (∀ i, ∃ more,
        performedBy lastState.works i =
            performedBy interruptedTwoFiles.works i ++ more ∧
          more.length ≤ operationsLeftOf interruptedTwoFiles.works i) ∧
      ((∃ rv, lastState.main = .returned rv) ∧
        ∀ work ∈ lastState.works, work.pc = .finished) ∧
      ∀ rv, lastState.main = .returned rv → rv = exitFailure := by
  have arrives :
      runEvents twoFiles System.initial interruptedEvents =
        some interruptedTwoFiles := by
    decide +kernel
  have ends :
      runProper twoFiles interruptedTwoFiles lastEvents = some lastState := by
    decide +kernel
  have run := properRun_of_runProper ProperRun.refl ends
  rw [Nat.zero_add] at run
  have stuck : ∀ event next,
      step twoFiles lastState event = some next → next = lastState := by
    intro event next steps
    cases event with
    | worker i succeeds =>
        rcases i with - | - | i <;> cases steps
    | stop i =>
        rcases i with - | - | i <;> cases steps
    | main => cases steps
    | interrupt =>
        cases steps
        rfl
  have reachable : Reachable twoFiles interruptedTwoFiles :=
    reachable_of_runEvents Relation.ReflTransGen.refl arrives
  obtain ⟨bound, performed, finished, failure⟩ :=
    negdentcreate_interrupt reachable rfl run
  exact
    ⟨arrives, ends, bound, performed, finished stuck, failure trivial⟩

end KernelStuff.Negdentcreate
