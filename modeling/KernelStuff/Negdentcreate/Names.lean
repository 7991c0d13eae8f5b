import KernelStuff.Negdentcreate.Progress

/-!
# The names that negdentcreate uses

The ranges of the threads partition the indices, and an index can be read off
its decimal.  So the names are right unless `snprintf` cuts them off.
-/

namespace KernelStuff.Negdentcreate

/-! ## Decimals -/

/-- The characters of `"%010lu"`. -/
def paddedDigits (n : Nat) : List Char :=
  List.replicate (10 - (Nat.toDigits 10 n).length) '0' ++ Nat.toDigits 10 n

theorem paddedDecimal_eq (n : Nat) :
    paddedDecimal n =
      (paddedDigits n).map fun digit => UInt8.ofNat digit.toNat := by
  rw [paddedDecimal, paddedDigits, List.map_append, List.map_replicate,
    List.length_map]
  rfl

theorem isDigit_of_mem_paddedDigits {n : Nat} {digit : Char}
    (member : digit ∈ paddedDigits n) : digit.isDigit = true := by
  rcases List.mem_append.mp member with padding | inDigits
  · rw [List.eq_of_mem_replicate padding]
    decide
  · exact Nat.isDigit_of_mem_toDigits (by decide) (by decide) inDigits

/-- A digit and its byte. -/
theorem ofNat_toNat_of_isDigit {digit : Char} (isDigit : digit.isDigit = true) :
    Char.ofNat (UInt8.ofNat digit.toNat).toNat = digit := by
  have small : digit.toNat < 2 ^ 8 := by
    rw [Char.isDigit, Bool.and_eq_true, decide_eq_true_iff,
      decide_eq_true_iff] at isDigit
    have upper : digit.toNat ≤ 57 := isDigit.2
    omega
  rw [UInt8.toNat_ofNat', Nat.mod_eq_of_lt small, Char.ofNat_toNat]

theorem ofDigitChars_paddedDigits (n : Nat) :
    Nat.ofDigitChars 10 (paddedDigits n) 0 = n := by
  rw [paddedDigits, Nat.ofDigitChars_append, Nat.ofDigitChars_replicate_zero,
    Nat.mul_zero, Nat.ofDigitChars_ten_toDigits]

theorem paddedDecimal_injective {n m : Nat}
    (same : paddedDecimal n = paddedDecimal m) : n = m := by
  have back : ∀ n,
      (paddedDecimal n).map (fun byte => Char.ofNat byte.toNat) =
        paddedDigits n := by
    intro n
    rw [paddedDecimal_eq, List.map_map]
    refine (List.map_congr_left ?_).trans (List.map_id _)
    intro digit member
    exact ofNat_toNat_of_isDigit (isDigit_of_mem_paddedDigits member)
  have digits : paddedDigits n = paddedDigits m := by
    rw [← back n, ← back m, same]
  rw [← ofDigitChars_paddedDigits n, ← ofDigitChars_paddedDigits m, digits]

theorem paddedDecimal_length_le {n m : Nat} (le : n ≤ m) :
    (paddedDecimal n).length ≤ (paddedDecimal m).length := by
  have lengths : ∀ n,
      (paddedDecimal n).length = max 10 (Nat.toDigits 10 n).length := by
    intro n
    rw [paddedDecimal_eq, List.length_map, paddedDigits, List.length_append,
      List.length_replicate]
    omega
  have grows : (Nat.toDigits 10 n).length ≤ (Nat.toDigits 10 m).length := by
    rw [Nat.length_toDigits_le_iff (by decide) Nat.length_toDigits_pos]
    apply Nat.lt_of_le_of_lt le
    rw [← Nat.length_toDigits_le_iff (by decide) Nat.length_toDigits_pos]
  rw [lengths, lengths]
  omega

/-! ## Names and ranges -/

/-- The prefix, and the index with ten digits or more. -/
def fullName (pfx : List UInt8) (index : Nat) : List UInt8 :=
  pfx ++ paddedDecimal index

theorem fullName_injective {pfx : List UInt8} {index other : Nat}
    (same : fullName pfx index = fullName pfx other) : index = other :=
  paddedDecimal_injective (List.append_cancel_left same)

/-- The whole name fits into the 64 bytes. -/
def Fits (pfx : List UInt8) (index : Nat) : Prop :=
  pfx.length + (paddedDecimal index).length ≤ 63

theorem filename_eq_iff (pfx : List UInt8) (index : Nat) :
    filename pfx index = fullName pfx index ↔ Fits pfx index := by
  rw [filename, fullName, Fits, List.take_eq_self_iff, List.length_append]

/-- The indices of the `i`-th thread. -/
def Config.indices (config : Config) (i : Nat) : List Nat :=
  List.range' (i * config.increment) config.increment

/-- The ranges are disjoint and leave no gap. -/
theorem Config.flatMap_indices (config : Config) (number : Nat) :
    (List.range number).flatMap config.indices =
      List.range (number * config.increment) := by
  induction number with
  | zero => rw [Nat.zero_mul]; rfl
  | succ number inductionHypothesis =>
      rw [List.range_succ, List.flatMap_append, inductionHypothesis,
        Nat.succ_mul, List.range_eq_range', List.range_eq_range',
        ← List.range'_append_1, Nat.zero_add, List.flatMap_singleton]
      rfl

theorem Config.index_lt {config : Config} {i index : Nat}
    (inside : i < config.nthread) (member : index ∈ config.indices i) :
    index < config.total := by
  have below := (List.mem_range'_1.mp member).2
  have le := Nat.mul_le_mul_right config.increment (Nat.succ_le_of_lt inside)
  rw [config.total_eq]
  rw [Nat.succ_mul] at le
  omega

/-- An index belongs to one thread. -/
theorem Config.thread_unique {config : Config} {i j index : Nat}
    (left : index ∈ config.indices i) (right : index ∈ config.indices j) :
    i = j := by
  have positive : 0 < config.increment := by
    have bounds := List.mem_range'_1.mp left
    omega
  have quotient : ∀ k, index ∈ config.indices k →
      index / config.increment = k := by
    intro k member
    have bounds := List.mem_range'_1.mp member
    rw [Nat.div_eq_iff positive]
    omega
  rw [← quotient i left, ← quotient j right]

/-! ## Whole passes -/

/-- What the worker has performed in its current pass, by its place in the code;
`none` where it has left its loop for good. -/
def current (config : Config) (work : Work) : Option (List Performed) :=
  match work.pc with
  | .opening | .assign | .again => some []
  | .compare | .poll | .operate => some (done config work.start work.cur)
  | .advance => some (done config work.start (work.cur + 1))
  | .recount => some (done config work.start work.stop)
  | .report | .finished => none

/-- The place in the code is inside of the loop. -/
def InLoop : WorkerPc → Prop
  | .poll | .operate | .advance => True
  | _ => False

/-- `passes` passes, and the current one. -/
def Passes (config : Config) (work : Work) (passes : Nat) : Prop :=
  ∀ list, current config work = some list →
    work.performed =
        (List.replicate passes
          (done config work.start work.stop)).flatten ++ list ∧
      (work.pc = .again → 0 < passes)

/-- The state of the `i`-th worker, also when it makes many passes. -/
structure Follows (config : Config) (i : Nat) (exiting : Bool) (work : Work) :
    Prop where
  inside : i < config.nthread
  start_eq : work.start = i * config.increment
  stop_eq : work.stop = (i + 1) * config.increment
  start_le : work.start ≤ work.cur
  le_stop : work.cur ≤ work.stop
  in_loop : InLoop work.pc → work.cur < work.stop
  each : ∀ record ∈ work.performed,
    record.index ∈ config.indices i ∧
      record.filename = filename config.pfx record.index
  passes : exiting = false → ∃ passes, Passes config work passes

theorem done_self (config : Config) (start : Nat) :
    done config start start = [] := by
  rw [done, Nat.sub_self]
  rfl

section Steps

variable {config : Config} {i : Nat} {exiting : Bool} {work : Work}

/-- A place in the code changes, nothing else. -/
theorem Follows.goto
    (follows : Follows config i exiting work) (pc : WorkerPc)
    (inLoop : InLoop pc → work.cur < work.stop)
    (passes : exiting = false →
      ∃ passes, Passes config { work with pc := pc } passes) :
    Follows config i exiting { work with pc := pc } where
  inside := follows.inside
  start_eq := follows.start_eq
  stop_eq := follows.stop_eq
  start_le := follows.start_le
  le_stop := follows.le_stop
  in_loop := inLoop
  each := follows.each
  passes := passes

theorem passes_of_left {pc : WorkerPc} (left : current config
    { work with pc := pc } = none) (passes : Nat) :
    Passes config { work with pc := pc } passes := by
  intro list here
  rw [left] at here
  cases here

/-- The worker is inside of its range, and the next index does not overflow. -/
theorem Follows.cur_succ
    (follows : Follows config i exiting work) (before : work.cur < work.stop) :
    ulong (work.cur + 1) = work.cur + 1 := by
  have stopLe := config.mul_increment_le follows.inside
  have bound := config.count_lt
  have stop := follows.stop_eq
  apply ulong_of_lt
  change i.succ * _ ≤ _ at stopLe
  rw [Nat.succ_eq_add_one] at stopLe
  omega

theorem Follows.mem_indices
    (follows : Follows config i exiting work) (before : work.cur < work.stop) :
    work.cur ∈ config.indices i := by
  have start := follows.start_eq
  have stop := follows.stop_eq
  have above := follows.start_le
  rw [Nat.succ_mul] at stop
  rw [Config.indices, List.mem_range'_1]
  omega

/-- A step of a worker keeps what is known of it. -/
theorem statWorker_follows
    {succeeds : Bool} {next : Work} (follows : Follows config i exiting work)
    (steps : statWorker config exiting succeeds work = some next) :
    Follows config i exiting next := by
  cases pcIs : work.pc with
  | opening =>
      rw [statWorker, pcIs] at steps
      cases steps
      cases succeeds with
      | false =>
          exact follows.goto _ False.elim
            fun _ => ⟨0, passes_of_left rfl 0⟩
      | true =>
          refine follows.goto _ False.elim ?_
          intro quiet
          obtain ⟨passes, held⟩ := follows.passes quiet
          have here := held [] (by rw [current, pcIs])
          refine ⟨passes, ?_⟩
          rintro _ ⟨⟩
          exact ⟨here.1, by rintro ⟨⟩⟩
  | assign =>
      rw [statWorker, pcIs] at steps
      cases steps
      refine
        ⟨follows.inside, follows.start_eq, follows.stop_eq, Nat.le_refl _,
          follows.start_le.trans follows.le_stop,
          False.elim, follows.each, ?_⟩
      intro quiet
      obtain ⟨passes, held⟩ := follows.passes quiet
      have here := held [] (by rw [current, pcIs])
      refine ⟨passes, ?_⟩
      rintro _ ⟨⟩
      rw [done_self]
      exact ⟨here.1, by rintro ⟨⟩⟩
  | compare =>
      rw [statWorker, pcIs] at steps
      cases steps
      by_cases before : work.cur < work.stop
      · simp only [if_pos before]
        refine follows.goto _ (fun _ => before) ?_
        intro quiet
        obtain ⟨passes, held⟩ := follows.passes quiet
        have here := held _ (by rw [current, pcIs])
        refine ⟨passes, ?_⟩
        rintro _ ⟨⟩
        exact ⟨here.1, by rintro ⟨⟩⟩
      · simp only [if_neg before]
        refine follows.goto _ False.elim ?_
        intro quiet
        obtain ⟨passes, held⟩ := follows.passes quiet
        have here := held _ (by rw [current, pcIs])
        have atStop : work.cur = work.stop :=
          Nat.le_antisymm follows.le_stop (Nat.le_of_not_lt before)
        rw [atStop] at here
        refine ⟨passes, ?_⟩
        rintro _ ⟨⟩
        exact ⟨here.1, by rintro ⟨⟩⟩
  | poll =>
      have before := follows.in_loop (pcIs ▸ trivial)
      rw [statWorker, pcIs] at steps
      cases steps
      cases exiting with
      | true =>
          exact follows.goto _ (fun _ => before) (by rintro ⟨⟩)
      | false =>
          refine follows.goto _ (fun _ => before) ?_
          intro quiet
          obtain ⟨passes, held⟩ := follows.passes quiet
          have here := held _ (by rw [current, pcIs])
          refine ⟨passes, ?_⟩
          rintro _ ⟨⟩
          exact ⟨here.1, by rintro ⟨⟩⟩
  | operate =>
      have before := follows.in_loop (pcIs ▸ trivial)
      rw [statWorker, pcIs] at steps
      cases steps
      refine
        ⟨follows.inside, follows.start_eq, follows.stop_eq, follows.start_le,
          follows.le_stop, fun _ => before, ?_, ?_⟩
      · intro record member
        rcases List.mem_append.mp member with old | new
        · exact follows.each record old
        · rw [List.mem_singleton.mp new]
          exact ⟨follows.mem_indices before, rfl⟩
      · intro quiet
        obtain ⟨passes, held⟩ := follows.passes quiet
        have here := held _ (by rw [current, pcIs])
        refine ⟨passes, ?_⟩
        cases succeeds with
        | false => rintro _ ⟨⟩
        | true =>
            rintro _ ⟨⟩
            refine ⟨?_, by rintro ⟨⟩⟩
            dsimp only
            rw [here.1, done_succ config follows.start_le, List.append_assoc]
  | advance =>
      have before := follows.in_loop (pcIs ▸ trivial)
      have succ := follows.cur_succ before
      rw [statWorker, pcIs, succ] at steps
      cases steps
      refine
        ⟨follows.inside, follows.start_eq, follows.stop_eq,
          follows.start_le.trans (Nat.le_succ _), before,
          False.elim, follows.each, ?_⟩
      intro quiet
      obtain ⟨passes, held⟩ := follows.passes quiet
      have here := held _ (by rw [current, pcIs])
      refine ⟨passes, ?_⟩
      rintro _ ⟨⟩
      exact ⟨here.1, by rintro ⟨⟩⟩
  | report =>
      rw [statWorker, pcIs] at steps
      cases steps
      exact
        ⟨follows.inside, follows.start_eq, follows.stop_eq, follows.start_le,
          follows.le_stop, False.elim, follows.each,
          fun _ => ⟨0, by rintro _ ⟨⟩⟩⟩
  | recount =>
      rw [statWorker, pcIs] at steps
      cases steps
      refine
        ⟨follows.inside, follows.start_eq, follows.stop_eq, follows.start_le,
          follows.le_stop, False.elim, follows.each,
          ?_⟩
      intro quiet
      obtain ⟨passes, held⟩ := follows.passes quiet
      have here := held _ (by rw [current, pcIs])
      refine ⟨passes + 1, ?_⟩
      rintro _ ⟨⟩
      refine ⟨?_, fun _ => Nat.succ_pos _⟩
      rw [List.append_nil, List.replicate_succ', List.flatten_append,
        List.flatten_singleton]
      exact here.1
  | again =>
      rw [statWorker, pcIs] at steps
      cases steps
      refine follows.goto _ ?_ ?_
      · split <;> exact False.elim
      · intro quiet
        obtain ⟨passes, held⟩ := follows.passes quiet
        have here := held [] (by rw [current, pcIs])
        refine ⟨passes, ?_⟩
        split
        · rintro _ ⟨⟩
          exact ⟨here.1, by rintro ⟨⟩⟩
        · rintro _ ⟨⟩
  | finished =>
      rw [statWorker, pcIs] at steps
      cases steps

/-- Nothing is claimed of a worker once a `SIGINT` has come. -/
theorem Follows.interrupted
    (follows : Follows config i exiting work) : Follows config i true work :=
  { follows with passes := nofun }

theorem newWork_follows (inside : i < config.nthread) (exiting : Bool) :
    Follows config i exiting (config.newWork i) := by
  have valid := newWork_valid config inside
  refine
    ⟨inside, valid.start_eq, valid.stop_eq, valid.start_le, valid.le_stop,
      False.elim, nofun, fun _ => ⟨0, ?_⟩⟩
  rintro _ ⟨⟩
  exact ⟨rfl, nofun⟩

end Steps

/-! ## All threads -/

section Systems

variable {config : Config}

/-- All workers are followed. -/
def AllFollow (config : Config) (system : System) : Prop :=
  ∀ i work, system.works[i]? = some work →
    Follows config i system.exiting work

theorem allFollow_set
    {system : System} (all : AllFollow config system) {i : Nat} {next : Work}
    (follows : Follows config i system.exiting next) :
    AllFollow config { system with works := system.works.set i next } := by
  intro j work here
  dsimp only at here
  rw [List.getElem?_set] at here
  split at here
  · next same =>
      split at here
      · cases here
        exact same ▸ follows
      · cases here
  · exact all j work here

theorem mainStep_allFollow
    {system next : System} (all : AllFollow config system)
    (steps : mainStep config system = some next) : AllFollow config next := by
  cases pcIs : system.main with
  | create =>
      rw [mainStep, pcIs] at steps
      by_cases more : system.works.length < config.nthread
      · simp only [if_pos more] at steps
        cases steps
        intro i work here
        dsimp only at here
        rcases Nat.lt_or_ge i system.works.length with old | new
        · rw [List.getElem?_append_left old] at here
          exact all i work here
        · rw [List.getElem?_append_right new] at here
          obtain ⟨inside, is⟩ := List.getElem?_eq_some_iff.mp here
          rw [List.length_singleton] at inside
          have last : i = system.works.length := by omega
          rw [List.getElem_singleton] at is
          rw [last, ← is]
          exact newWork_follows more _
      · simp only [if_neg more] at steps
        cases steps
        exact all
  | cancel i =>
      rw [mainStep, pcIs] at steps
      cases here : system.works[i]? with
      | none =>
          simp only [here] at steps
          cases steps
          exact all
      | some work =>
          simp only [here] at steps
          cases steps
          by_cases running : work.error = 0
          · simp only [if_pos running]
            have follows := all i work here
            have cancelled :
                Follows config i system.exiting
                  { work with cancelled := true } :=
              { follows with }
            exact allFollow_set all cancelled
          · simp only [if_neg running]
            exact all
  | readCur i progress err =>
      rw [mainStep, pcIs] at steps
      cases here : system.works[i]? <;> simp only [here] at steps <;>
        cases steps <;> exact all
  | readCnt i progress err | readError i progress err =>
      rw [mainStep, pcIs] at steps
      obtain ⟨work, -, rfl⟩ := Option.map_eq_some_iff.mp steps
      exact all
  | judge progress err | decide err =>
      rw [mainStep, pcIs] at steps
      dsimp only at steps
      split at steps
      · cases steps
        exact all
      · first
          | (split at steps <;> cases steps <;> exact all)
          | (cases steps; exact all)
  | join i rv =>
      rw [mainStep, pcIs] at steps
      cases here : system.works[i]? with
      | none =>
          simp only [here] at steps
          cases steps
          exact all
      | some work =>
          simp only [here] at steps
          split at steps
          · cases steps
            exact all
          · cases steps
  | returned rv =>
      rw [mainStep, pcIs] at steps
      cases steps

theorem reachable_allFollow
    {system : System} (reachable : Reachable config system) :
    AllFollow config system := by
  induction reachable with
  | refl => exact nofun
  | @tail system next _ moves all =>
      obtain ⟨event, steps⟩ := moves
      cases event with
      | worker i succeeds =>
          obtain ⟨work, here, rest⟩ := Option.bind_eq_some_iff.mp steps
          obtain ⟨later, moves, rfl⟩ := Option.map_eq_some_iff.mp rest
          exact allFollow_set all (statWorker_follows (all i work here) moves)
      | stop i =>
          obtain ⟨work, here, rest⟩ := Option.bind_eq_some_iff.mp steps
          split at rest
          · cases rest
            exact
              allFollow_set all
                ((all i work here).goto .finished False.elim
                  fun _ => ⟨0, passes_of_left rfl 0⟩)
          · cases rest
      | main => exact mainStep_allFollow all steps
      | interrupt =>
          cases steps
          exact fun i work here => (all i work here).interrupted

/-! ## A run to the end of a pass -/

/-- A run of one worker whose calls succeed. -/
def Runs (config : Config) : Work → Work → Prop :=
  Relation.ReflTransGen fun work next =>
    statWorker config false true work = some next

theorem runs_step {work next : Work}
    (moves : statWorker config false true work = some next) :
    Runs config work next :=
  Relation.ReflTransGen.single moves

theorem reachable_of_runs
    {i : Nat} {work last : Work} {system : System}
    (reachable : Reachable config system)
    (quiet : system.exiting = false) (here : system.works[i]? = some work)
    (runs : Runs config work last) :
    ∃ final,
      Reachable config final ∧ final.exiting = false ∧
        final.works[i]? = some last := by
  induction runs with
  | refl => exact ⟨system, reachable, quiet, here⟩
  | @tail middle next _ moves inductionHypothesis =>
      obtain ⟨later, laterReachable, laterQuiet, there⟩ := inductionHypothesis
      have inside := (List.getElem?_eq_some_iff.mp there).1
      refine
        ⟨{ later with works := later.works.set i next }, ?_, laterQuiet, ?_⟩
      · refine laterReachable.tail ⟨.worker i true, ?_⟩
        rw [step, there, laterQuiet, Option.bind_some, moves]
        rfl
      · dsimp only
        rw [List.getElem?_set_self inside]

/-- The threads are created one after the other. -/
theorem reachable_created (config : Config) :
    ∀ number, number ≤ config.nthread →
      Reachable config
        { System.initial with works := (List.range number).map config.newWork }
  | 0, _ => Relation.ReflTransGen.refl
  | number + 1, inside => by
      refine
        (reachable_created config number (Nat.le_of_succ_le inside)).tail
          ⟨.main, ?_⟩
      rw [step, mainStep, List.range_succ, List.map_append]
      simp only [List.length_map, List.length_range, System.initial,
        if_pos (Nat.lt_of_succ_le inside)]
      rfl

/-- The worker after a round of its loop. -/
def roundDone (config : Config) (work : Work) : Work :=
  { work with
    cur := work.cur + 1
    performed :=
      work.performed ++
        [(⟨work.cur, filename config.pfx work.cur, true⟩ : Performed)] }

theorem runs_round
    {i : Nat} {work : Work} (follows : Follows config i false work)
    (pcIs : work.pc = .compare) (before : work.cur < work.stop) :
    Runs config work (roundDone config work) := by
  have compares :
      statWorker config false true work = some { work with pc := .poll } := by
    rw [statWorker, pcIs]
    simp only [if_pos before]
  have advances :
      statWorker config false true
          { work with
            performed :=
              work.performed ++
                [⟨work.cur, filename config.pfx work.cur, true⟩]
            pc := .advance } =
        some (roundDone config work) := by
    rw [roundDone, ← follows.cur_succ before, pcIs]
    rfl
  have polls :
      Runs config { work with pc := .poll } { work with pc := .operate } :=
    runs_step rfl
  have operates :
      Runs config { work with pc := .operate }
        { work with
          performed :=
            work.performed ++
              [⟨work.cur, filename config.pfx work.cur, true⟩]
          pc := .advance } :=
    runs_step rfl
  exact (((runs_step compares).trans polls).trans operates).trans
    (runs_step advances)

theorem Follows.runs
    {i : Nat} {work last : Work} (follows : Follows config i false work)
    (runs : Runs config work last) : Follows config i false last := by
  induction runs with
  | refl => exact follows
  | tail _ moves inductionHypothesis =>
      exact statWorker_follows inductionHypothesis moves

/-- The loop of a worker from an index to its end. -/
theorem runs_loop
    {i : Nat} :
    ∀ (remaining : Nat) {work : Work}, Follows config i false work →
      work.pc = .compare → work.stop - work.cur = remaining →
        work.performed = done config work.start work.cur →
          ∃ last,
            Runs config work last ∧ last.pc = .again ∧
              last.performed = done config work.start work.stop
  | 0, work, follows, pcIs, ended, performed => by
      have atStop : work.cur = work.stop :=
        Nat.le_antisymm follows.le_stop (by omega)
      have compares :
          statWorker config false true work =
            some { work with pc := .recount } := by
        rw [statWorker, pcIs, atStop]
        simp only [Nat.lt_irrefl, if_false]
      have recounts :
          Runs config { work with pc := .recount }
            { work with
              cnt := if config.loop then ulong (work.cnt + 1) else work.cnt
              pc := .again } :=
        runs_step rfl
      refine ⟨_, (runs_step compares).trans recounts, rfl, ?_⟩
      rw [← atStop]
      exact performed
  | remaining + 1, work, follows, pcIs, more, performed => by
      have before : work.cur < work.stop := by omega
      have round := runs_round follows pcIs before
      have later :
          (roundDone config work).performed =
            done config work.start (work.cur + 1) := by
        rw [done_succ config follows.start_le, ← performed]
        rfl
      have fewer : work.stop - (work.cur + 1) = remaining := by omega
      obtain ⟨last, runs, ends, result⟩ :=
        runs_loop remaining (follows.runs round) pcIs fewer later
      exact ⟨last, round.trans runs, ends, result⟩

/-- Every thread can come to the end of its first pass. -/
theorem exists_pass (config : Config) {i : Nat}
    (inside : i < config.nthread) :
    ∃ system work,
      Reachable config system ∧ system.exiting = false ∧
        system.works[i]? = some work ∧ work.pc = .again ∧
        work.performed =
          done config (i * config.increment) ((i + 1) * config.increment) := by
  have follows := newWork_follows inside false
  have opens :
      Runs config (config.newWork i) { config.newWork i with pc := .assign } :=
    runs_step rfl
  have assigns :
      Runs config { config.newWork i with pc := .assign }
        { config.newWork i with pc := .compare } :=
    runs_step rfl
  have atLoop :
      Follows config i false { config.newWork i with pc := .compare } := by
    refine follows.goto _ False.elim fun _ => ⟨0, ?_⟩
    rintro _ ⟨⟩
    rw [show (config.newWork i).cur = (config.newWork i).start from rfl,
      done_self]
    exact ⟨rfl, nofun⟩
  obtain ⟨last, runs, ends, performed⟩ :=
    runs_loop _ atLoop rfl rfl (done_self config _).symm
  have created := reachable_created config (i + 1) inside
  have here :
      ((List.range (i + 1)).map config.newWork)[i]? =
        some (config.newWork i) := by
    rw [List.getElem?_map, List.getElem?_range (Nat.lt_succ_self i),
      Option.map_some]
  obtain ⟨final, reachable, quiet, there⟩ :=
    reachable_of_runs created rfl here ((opens.trans assigns).trans runs)
  refine ⟨final, last, reachable, quiet, there, ends, ?_⟩
  rw [performed, ← follows.start_eq, ← follows.stop_eq]

end Systems

/-! ## The names -/

/-- In each of its passes a thread uses the names of its indices, in their
order; the ranges make up all indices; and no name is used for two indices or by
two threads. -/
structure VisitsOnce (config : Config) : Prop where
  passes : ∀ system, Reachable config system → system.exiting = false →
    ∀ i work, system.works[i]? = some work → work.pc = .again →
      ∃ passes, 0 < passes ∧
        work.performed.map Performed.filename =
          (List.replicate passes
            ((config.indices i).map (fullName config.pfx))).flatten
  ranges :
    (List.range config.nthread).flatMap config.indices =
      List.range (config.count / config.nthread * config.nthread)
  distinct : ∀ system, Reachable config system →
    ∀ (i j : Nat) (work other : Work), system.works[i]? = some work →
      system.works[j]? = some other →
        ∀ record ∈ work.performed, ∀ otherRecord ∈ other.performed,
          record.filename = otherRecord.filename →
            record.index = otherRecord.index ∧ i = j

theorem filename_done (config : Config) (i : Nat) :
    (done config (i * config.increment) ((i + 1) * config.increment)).map
        Performed.filename =
      (config.indices i).map (filename config.pfx) := by
  have length : (i + 1) * config.increment - i * config.increment =
      config.increment := by
    rw [Nat.succ_mul]
    omega
  rw [done, length, List.map_map]
  rfl

/-- If the names of a thread are right, the last one fits. -/
theorem fits_of_visitsOnce {config : Config} (visits : VisitsOnce config)
    (some : config.total ≠ 0) : Fits config.pfx (config.total - 1) := by
  have total := config.total_eq
  have threads := config.nthread_pos
  have positive : 0 < config.increment := by
    apply Nat.pos_of_ne_zero
    intro none
    rw [none, Nat.mul_zero] at total
    exact some total
  have split : config.nthread * config.increment =
      (config.nthread - 1) * config.increment + config.increment := by
    rw [← Nat.succ_mul, Nat.succ_eq_add_one, Nat.sub_add_cancel threads]
  obtain ⟨system, work, reachable, quiet, here, ends, performed⟩ :=
    exists_pass config (Nat.sub_lt threads Nat.one_pos)
  obtain ⟨passes, -, names⟩ :=
    visits.passes system reachable quiet _ work here ends
  rw [performed, filename_done] at names
  have lengths := congrArg List.length names
  rw [List.length_map, List.length_flatten, List.map_replicate,
    List.sum_replicate_nat, List.length_map, Config.indices,
    List.length_range'] at lengths
  have single : passes = 1 :=
    Nat.eq_of_mul_eq_mul_right positive (by omega)
  rw [single, List.replicate_one, List.flatten_singleton,
    List.map_inj_left] at names
  rw [← filename_eq_iff]
  apply names
  rw [Config.indices, List.mem_range'_1]
  omega

theorem fits_of_lt {config : Config}
    (fits : config.total = 0 ∨ Fits config.pfx (config.total - 1))
    {index : Nat} (inside : index < config.total) : Fits config.pfx index := by
  rcases fits with none | last
  · omega
  · have shorter :=
      paddedDecimal_length_le (show index ≤ config.total - 1 by omega)
    rw [Fits] at last ⊢
    omega

/-- Every name is used once in a pass if and only if the name of the last index
fits into the buffer. -/
theorem names_visited_once_iff (config : Config) :
    VisitsOnce config ↔
      config.total = 0 ∨ Fits config.pfx (config.total - 1) := by
  constructor
  · intro visits
    by_cases none : config.total = 0
    · exact Or.inl none
    · exact Or.inr (fits_of_visitsOnce visits none)
  · intro fits
    refine ⟨?_, ?_, ?_⟩
    · intro system reachable quiet i work here ends
      have follows := reachable_allFollow reachable i work here
      obtain ⟨passes, held⟩ := follows.passes quiet
      obtain ⟨performed, some⟩ := held [] (by rw [current, ends])
      refine ⟨passes, some ends, ?_⟩
      have names :
          (config.indices i).map (filename config.pfx) =
            (config.indices i).map (fullName config.pfx) := by
        apply List.map_congr_left
        intro index member
        rw [filename_eq_iff]
        exact fits_of_lt fits (Config.index_lt follows.inside member)
      rw [performed, List.append_nil, List.map_flatten, List.map_replicate,
        follows.start_eq, follows.stop_eq, filename_done, names]
    · rw [config.flatMap_indices, Nat.mul_comm]
      rfl
    · intro system reachable i j work other here there record member
        otherRecord otherMember same
      have follows := reachable_allFollow reachable i work here
      have otherFollows := reachable_allFollow reachable j other there
      obtain ⟨inRange, name⟩ := follows.each record member
      obtain ⟨otherInRange, otherName⟩ :=
        otherFollows.each otherRecord otherMember
      have full :=
        (filename_eq_iff config.pfx record.index).mpr
          (fits_of_lt fits (Config.index_lt follows.inside inRange))
      have otherFull :=
        (filename_eq_iff config.pfx otherRecord.index).mpr
          (fits_of_lt fits
            (Config.index_lt otherFollows.inside otherInRange))
      have sameIndex : record.index = otherRecord.index := by
        have names : fullName config.pfx record.index =
            fullName config.pfx otherRecord.index := by
          rw [← full, ← otherFull, ← name, ← otherName, same]
        exact fullName_injective names
      refine ⟨sameIndex, ?_⟩
      rw [sameIndex] at inRange
      exact Config.thread_unique inRange otherInRange

/-- Two files with a prefix that fills the buffer. -/
def longPrefix : Config where
  nthread := 1
  count := 2
  pfx := List.replicate 63 97
  loop := false
  nthread_pos := Nat.le_refl 1
  nthread_lt := by decide
  count_lt := by decide

/-- Both files have the same name. -/
theorem names_not_visited_once :
    ¬ VisitsOnce longPrefix ∧
      filename longPrefix.pfx 0 = filename longPrefix.pfx 1 := by
  constructor
  · intro visits
    have fits := fits_of_visitsOnce visits (by decide)
    rw [Fits] at fits
    revert fits
    decide +kernel
  · decide +kernel

end KernelStuff.Negdentcreate
