import KernelStuff.Library.Sections
import KernelStuff.Negdentcreate.Names
import KernelStuff.Negdentcreate.Operations

/-!
# What negdentcreate leaves in the directory

The operations of the workers are interleaved sections on the names, and the
threads with their single calls are the threads of `Threads`.  So what holds of
these holds here as well, and when all of them have finished each name is as the
last write of the operation leaves it.
-/

namespace KernelStuff.Negdentcreate

open KernelStuff.Library

/-- The call as an action on its name. -/
def CheckedCall.action (checked : CheckedCall) :
    CellAction (Option Entry) where
  needs entry :=
    checked.call.needsName = true → checked.acceptsEnoent = false →
      entry.isSome = true
  writes := checked.call.writes

/-- A worker that stands here does not leave its index without an operation. -/
def Parked : WorkerPc → Prop
  | .operate | .report | .finished => True
  | _ => False

/-- Where a worker is within its operation. -/
def DirectorySystem.place
    (config : Config) (op : List CheckedCall) (state : DirectorySystem)
    (i : Nat) : Option (List UInt8 × List (CellAction (Option Entry))) :=
  if state.made i = 0 then none
  else
    state.system.works[i]?.map fun work =>
      (filename config.pfx work.cur,
        (op.drop (state.made i)).map CheckedCall.action)

/-- The names of the operations that have succeeded. -/
def completedNames (works : List Work) : Set (List UInt8) :=
  {name | ∃ (i : Nat) (work : Work), works[i]? = some work ∧
    ∃ record ∈ work.performed, record.success = true ∧ record.filename = name}

def DirectorySystem.sections
    (config : Config) (op : List CheckedCall) (state : DirectorySystem) :
    SectionState Nat (List UInt8) (Option Entry) :=
  ⟨state.directory, state.place config op, completedNames state.system.works⟩

/-! ## Steps that are no system call -/

/-- What a step besides the operation leaves of a worker. -/
structure Stays (work later : Work) : Prop where
  performed : later.performed = work.performed
  parked : Parked work.pc →
    Parked later.pc ∧ later.cur = work.cur ∧ later.stop = work.stop

theorem statWorker_stays
    {config : Config} {exiting succeeds : Bool} {work next : Work}
    (elsewhere : work.pc ≠ .operate)
    (steps : statWorker config exiting succeeds work = some next) :
    Stays work next := by
  cases pcIs : work.pc with
  | operate => exact absurd pcIs elsewhere
  | finished =>
      simp only [statWorker, pcIs] at steps
      cases steps
  | report =>
      simp only [statWorker, pcIs] at steps
      cases steps
      exact ⟨rfl, fun _ => ⟨trivial, rfl, rfl⟩⟩
  | opening | assign | compare | poll | advance | recount | again =>
      simp only [statWorker, pcIs] at steps
      cases steps
      refine ⟨rfl, ?_⟩
      rw [pcIs]
      exact False.elim

/-- The workers go on without an operation. -/
structure KeepsPlaces (works later : List Work) : Prop where
  stays : ∀ (i : Nat) work, works[i]? = some work →
    ∃ next : Work, later[i]? = some next ∧ Stays work next
  fresh : ∀ (i : Nat) next, later[i]? = some next →
    works[i]? = none → next.performed = []

theorem keepsPlaces_refl (works : List Work) : KeepsPlaces works works where
  stays i work here := ⟨work, here, rfl, fun parked => ⟨parked, rfl, rfl⟩⟩
  fresh i next here absent := by
    rw [absent] at here
    cases here

theorem keepsPlaces_set
    {works : List Work} {i : Nat} {work next : Work}
    (here : works[i]? = some work) (stays : Stays work next) :
    KeepsPlaces works (works.set i next) where
  stays := by
    intro j other there
    rw [List.getElem?_set]
    split
    · next same =>
        subst same
        rw [here] at there
        cases there
        rw [if_pos (List.getElem?_eq_some_iff.mp here).1]
        exact ⟨next, rfl, stays⟩
    · exact (keepsPlaces_refl works).stays j other there
  fresh := by
    intro j later there absent
    have outside := List.getElem?_eq_none_iff.mp absent
    have inside := (List.getElem?_eq_some_iff.mp there).1
    rw [List.length_set] at inside
    omega

theorem keepsPlaces_append
    {works : List Work} {work : Work} (fresh : work.performed = []) :
    KeepsPlaces works (works ++ [work]) where
  stays := by
    intro i other here
    have inside := (List.getElem?_eq_some_iff.mp here).1
    rw [List.getElem?_append_left inside]
    exact (keepsPlaces_refl works).stays i other here
  fresh := by
    intro i next here absent
    rw [List.getElem?_append_right (List.getElem?_eq_none_iff.mp absent)] at here
    have member := List.mem_of_getElem? here
    rw [List.mem_singleton.mp member]
    exact fresh

theorem other_keepsPlaces
    {config : Config} {system next : System} {event : Event}
    (other : system.wholeOperation event = false)
    (steps : step config system event = some next) :
    KeepsPlaces system.works next.works := by
  cases event with
  | worker i succeeds =>
      obtain ⟨work, here, rest⟩ := Option.bind_eq_some_iff.mp steps
      obtain ⟨later, moves, is⟩ := Option.map_eq_some_iff.mp rest
      subst is
      apply keepsPlaces_set here
      apply statWorker_stays _ moves
      intro operates
      simp [System.wholeOperation, System.atOperation, here, operates] at other
  | stop i =>
      obtain ⟨work, here, rest⟩ := Option.bind_eq_some_iff.mp steps
      split at rest
      · cases rest
        exact keepsPlaces_set here ⟨rfl, fun _ => ⟨trivial, rfl, rfl⟩⟩
      · cases rest
  | main =>
      obtain ⟨-, same | ⟨-, -, -, grown⟩ | ⟨i, work, here, cancelled⟩⟩ :=
        mainStep_works steps
      · rw [same]
        exact keepsPlaces_refl _
      · rw [grown]
        exact keepsPlaces_append rfl
      · rw [cancelled]
        exact keepsPlaces_set here ⟨rfl, fun parked => ⟨parked, rfl, rfl⟩⟩
  | interrupt =>
      cases steps
      exact keepsPlaces_refl _

theorem KeepsPlaces.completedNames
    {works later : List Work} (keeps : KeepsPlaces works later) :
    completedNames later = completedNames works := by
  ext name
  constructor
  · rintro ⟨i, next, here, record, member, success⟩
    cases before : works[i]? with
    | none =>
        rw [keeps.fresh i next here before] at member
        cases member
    | some work =>
        obtain ⟨other, there, stays⟩ := keeps.stays i work before
        rw [here] at there
        cases there
        exact ⟨i, work, before, record, stays.performed ▸ member, success⟩
  · rintro ⟨i, work, here, record, member, success⟩
    obtain ⟨next, there, stays⟩ := keeps.stays i work here
    exact ⟨i, next, there, record, stays.performed ▸ member, success⟩

/-! ## The invariant -/

/-- The names that the indices below the rounded count have. -/
def Config.names (config : Config) : Set (List UInt8) :=
  {name | ∃ index < config.total, filename config.pfx index = name}

/-- A worker in the middle of an operation stays there, inside of its range, and
the names of the range stay plain. -/
structure DirectoryInvariant (config : Config) (state : DirectorySystem) :
    Prop where
  reachable : Reachable config state.system
  plain : ∀ name ∈ config.names, state.directory.Plain name
  parked : ∀ i, state.made i ≠ 0 →
    ∃ work, state.system.works[i]? = some work ∧ Parked work.pc ∧
      work.cur < work.stop

section Steps

variable {config : Config} {op : List CheckedCall}
  {state next : DirectorySystem}

theorem DirectoryInvariant.other
    (invariant : DirectoryInvariant config state) (op : List CheckedCall)
    {system : System}
    (keeps : KeepsPlaces state.system.works system.works)
    (moves : ∃ event, step config state.system event = some system) :
    DirectoryInvariant config { state with system := system } ∧
      ({ state with system := system } : DirectorySystem).sections config op =
        state.sections config op := by
  refine ⟨⟨invariant.reachable.tail moves, invariant.plain, ?_⟩, ?_⟩
  · intro i midway
    obtain ⟨work, here, parked, inside⟩ := invariant.parked i midway
    obtain ⟨later, there, stays⟩ := keeps.stays i work here
    obtain ⟨laterParked, cur, stop⟩ := stays.parked parked
    exact ⟨later, there, laterParked, by rw [cur, stop]; exact inside⟩
  · ext1
    · rfl
    · funext i
      rw [DirectorySystem.sections, DirectorySystem.sections]
      dsimp only
      rw [DirectorySystem.place, DirectorySystem.place]
      by_cases outside : state.made i = 0
      · rw [if_pos outside, if_pos outside]
      · rw [if_neg outside, if_neg outside]
        obtain ⟨work, here, parked, -⟩ := invariant.parked i outside
        obtain ⟨later, there, stays⟩ := keeps.stays i work here
        rw [here, there, Option.map_some, Option.map_some,
          (stays.parked parked).2.1]
    · exact keeps.completedNames

/-! ## System calls -/

theorem DirectoryInvariant.cur_lt
    (invariant : DirectoryInvariant config state) {i : Nat} {work : Work}
    (here : state.system.works[i]? = some work)
    (operates : work.pc = .operate) : work.cur < work.stop := by
  apply (reachable_allFollow invariant.reachable i work here).in_loop
  rw [operates]
  trivial

/-- A worker that is inside of its range stands at a name of the range. -/
theorem DirectoryInvariant.filename_mem_names
    (invariant : DirectoryInvariant config state) {i : Nat} {work : Work}
    (here : state.system.works[i]? = some work)
    (inside : work.cur < work.stop) :
    filename config.pfx work.cur ∈ config.names := by
  have follows := reachable_allFollow invariant.reachable i work here
  exact
    ⟨work.cur, Config.index_lt follows.inside (follows.mem_indices inside), rfl⟩

/-- A call creates no symbolic link. -/
theorem perform_plain
    {directory : Directory} {name other : List UInt8}
    (plain : directory.Plain other) (call : Call) (result : CallResult) :
    Directory.Plain (call.perform result name directory) other := by
  refine ⟨plain.1, ?_⟩
  by_cases same : other = name
  · subst same
    cases result <;> cases call <;>
      simp [Call.perform, Call.writes, plain.2]
  · cases result <;> cases call <;>
      simp [Call.perform, Call.writes, same, plain.2]

/-- The worker once its operation is over. -/
def operated (config : Config) (work : Work) (succeeds : Bool) : Work :=
  { work with
    performed :=
      work.performed ++ [⟨work.cur, filename config.pfx work.cur, succeeds⟩]
    pc := if succeeds then .advance else .report }

theorem step_operated
    {system : System} {i : Nat} {work : Work}
    (here : system.works[i]? = some work) (operates : work.pc = .operate)
    (succeeds : Bool) :
    step config system (.worker i succeeds) =
      some
        { system with
          works := system.works.set i (operated config work succeeds) } := by
  rw [step, here, Option.bind_some, statWorker, operates]
  rfl

theorem callStep_cases
    (invariant : DirectoryInvariant config state)
    {i : Nat} {result : CallResult} {elsewhere : Directory}
    (steps : callStep config op state i result elsewhere = some next) :
    ∃ work checked,
      state.system.works[i]? = some work ∧ work.pc = .operate ∧
        op[state.made i]? = some checked ∧
        checked.call.answers
            (state.directory (filename config.pfx work.cur)) result = true ∧
        next.directory =
          checked.call.perform result (filename config.pfx work.cur)
            state.directory ∧
        ((checked.accepts result = true ∧ state.made i + 1 < op.length ∧
            next.system = state.system ∧
            next.made = Function.update state.made i (state.made i + 1)) ∨
          (checked.accepts result = true ∧ op.length = state.made i + 1 ∧
            next.system.works =
              state.system.works.set i (operated config work true) ∧
            step config state.system (.worker i true) = some next.system ∧
            next.made = Function.update state.made i 0) ∨
          (checked.accepts result = false ∧
            next.system.works =
              state.system.works.set i (operated config work false) ∧
            step config state.system (.worker i false) = some next.system ∧
            next.made = state.made)) := by
  obtain ⟨work, atOperation, rest⟩ := Option.bind_eq_some_iff.mp steps
  obtain ⟨here, operates⟩ := Option.filter_eq_some_iff.mp atOperation
  have operates := of_decide_eq_true operates
  obtain ⟨checked, atCall, rest⟩ := Option.bind_eq_some_iff.mp rest
  have inside := (List.getElem?_eq_some_iff.mp atCall).1
  have plain : state.directory.Plain (filename config.pfx work.cur) :=
    invariant.plain _
      (invariant.filename_mem_names here (invariant.cur_lt here operates))
  refine ⟨work, checked, here, operates, atCall, ?_⟩
  rw [step_operated here operates, step_operated here operates] at rest
  rw [step_operated here operates, step_operated here operates]
  dsimp only at rest
  rw [if_pos plain] at rest
  split at rest
  · next answers =>
      have answers := answers plain
      split at rest
      · next accepts =>
          split at rest
          · next more =>
              cases rest
              exact ⟨answers, rfl, Or.inl ⟨accepts, more, rfl, rfl⟩⟩
          · next last =>
              cases rest
              exact
                ⟨answers, rfl,
                  Or.inr (Or.inl ⟨accepts, by omega, rfl, rfl, rfl⟩)⟩
      · next rejects =>
          cases rest
          exact
            ⟨answers, rfl,
              Or.inr
                (Or.inr ⟨Bool.eq_false_of_not_eq_true rejects, rfl, rfl, rfl⟩)⟩
  · cases rest

/-! ## The calls are actions -/

/-- A call that writes is accepted only when it has succeeded. -/
def Regular (op : List CheckedCall) : Prop :=
  ∀ checked ∈ op, checked.acceptsEnoent = true → checked.call.writes = none

theorem perform_eq_action {checked : CheckedCall} {result : CallResult}
    (regular : checked.acceptsEnoent = true → checked.call.writes = none)
    (accepts : checked.accepts result = true) (name : List UInt8)
    (directory : Directory) :
    checked.call.perform result name directory =
      checked.action.perform name directory := by
  cases result with
  | success =>
      cases writes : checked.call.writes <;>
        simp [Call.perform, CellAction.perform, CheckedCall.action, writes]
  | enoent =>
      rw [perform_of_writes_none (regular accepts)]
      rfl
  | failure => cases accepts

theorem needs_of_answers {checked : CheckedCall} {result : CallResult}
    {entry : Option Entry} (accepts : checked.accepts result = true)
    (answers : checked.call.answers entry result = true) :
    checked.action.needs entry := by
  intro needed strict
  cases result with
  | success => simpa [Call.answers, needed] using answers
  | enoent =>
      rw [CheckedCall.accepts, strict] at accepts
      cases accepts
  | failure => cases accepts

theorem perform_of_rejected {checked : CheckedCall} {result : CallResult}
    (rejects : checked.accepts result = false) (name : List UInt8)
    (directory : Directory) :
    checked.call.perform result name directory = directory := by
  cases result with
  | success => cases rejects
  | enoent | failure => rfl

theorem place_of_made {i : Nat} {work : Work}
    (here : state.system.works[i]? = some work) (midway : state.made i ≠ 0) :
    state.place config op i =
      some
        (filename config.pfx work.cur,
          (op.drop (state.made i)).map CheckedCall.action) := by
  rw [DirectorySystem.place, if_neg midway, here, Option.map_some]

theorem place_of_not_made {i : Nat} (outside : state.made i = 0) :
    state.place config op i = none := by
  rw [DirectorySystem.place, if_pos outside]

theorem place_congr {j : Nat}
    (works : next.system.works[j]? = state.system.works[j]?)
    (made : next.made j = state.made j) :
    next.place config op j = state.place config op j := by
  rw [DirectorySystem.place, DirectorySystem.place, works, made]

theorem aboutTo_of_call (config : Config) {i : Nat} {work : Work} {checked : CheckedCall}
    (here : state.system.works[i]? = some work)
    (atCall : op[state.made i]? = some checked) :
    (state.sections config op).AboutTo (op.map CheckedCall.action) i
      (filename config.pfx work.cur)
      (checked.action ::
        (op.drop (state.made i + 1)).map CheckedCall.action) := by
  obtain ⟨inside, is⟩ := List.getElem?_eq_some_iff.mp atCall
  have split := List.drop_eq_getElem_cons inside
  rw [is] at split
  rw [← List.map_cons, ← split]
  by_cases outside : state.made i = 0
  · right
    rw [outside, List.drop_zero]
    exact ⟨place_of_not_made outside, rfl⟩
  · left
    exact place_of_made here outside

theorem completedNames_operated
    {works : List Work} {i : Nat} {work : Work}
    (here : works[i]? = some work) (succeeds : Bool) :
    completedNames (works.set i (operated config work succeeds)) =
      if succeeds then
        insert (filename config.pfx work.cur) (completedNames works)
      else completedNames works := by
  have inside := (List.getElem?_eq_some_iff.mp here).1
  have changed :
      (works.set i (operated config work succeeds))[i]? =
        some (operated config work succeeds) :=
    List.getElem?_set_self inside
  ext name
  have split :
      name ∈ completedNames (works.set i (operated config work succeeds)) ↔
        (succeeds = true ∧ filename config.pfx work.cur = name) ∨
          name ∈ completedNames works := by
    constructor
    · rintro ⟨j, later, there, record, member, success, is⟩
      by_cases same : i = j
      · subst same
        rw [changed] at there
        cases there
        rcases List.mem_append.mp member with before | last
        · exact Or.inr ⟨i, work, here, record, before, success, is⟩
        · rw [List.mem_singleton.mp last] at success is
          exact Or.inl ⟨success, is⟩
      · rw [List.getElem?_set_ne same] at there
        exact Or.inr ⟨j, later, there, record, member, success, is⟩
    · rintro (⟨success, is⟩ | ⟨j, later, there, record, member, success, is⟩)
      · exact
          ⟨i, _, changed, _,
            List.mem_append_right _ (List.mem_singleton_self _), success, is⟩
      · by_cases same : i = j
        · subst same
          rw [here] at there
          cases there
          exact
            ⟨i, _, changed, record, List.mem_append_left _ member, success, is⟩
        · rw [← List.getElem?_set_ne same] at there
          exact ⟨j, later, there, record, member, success, is⟩
  rw [split]
  cases succeeds <;> simp [eq_comm]

/-- A system call is an action on its name, or leaves the names and the places as
they were. -/
theorem callStep_sections
    (regular : Regular op) (invariant : DirectoryInvariant config state)
    {i : Nat} {result : CallResult} {elsewhere : Directory}
    (steps : callStep config op state i result elsewhere = some next) :
    next.sections config op = state.sections config op ∨
      SectionStep (op.map CheckedCall.action) (state.sections config op)
        (next.sections config op) := by
  obtain
    ⟨work, checked, here, operates, atCall, answers, directory, moves⟩ :=
    callStep_cases invariant steps
  have inWorks := (List.getElem?_eq_some_iff.mp here).1
  have inOp : checked ∈ op := List.mem_of_getElem? atCall
  have about := aboutTo_of_call config here atCall
  rcases moves with
    ⟨accepts, more, system, made⟩ | ⟨accepts, last, works, -, made⟩ |
      ⟨rejects, works, -, made⟩
  · right
    have acts := SectionStep.act about (needs_of_answers accepts answers)
    have cells :=
      directory.trans (perform_eq_action (regular checked inOp) accepts _ _)
    rw [← system] at here
    have midway : next.made i ≠ 0 := by
      rw [made, Function.update_self]
      exact Nat.succ_ne_zero _
    have after :
        next.sections config op =
          (state.sections config op).act i (filename config.pfx work.cur)
            checked.action
            ((op.drop (state.made i + 1)).map CheckedCall.action) := by
      apply eq_act_cons (by simpa using more) cells
      · refine (place_of_made here midway).trans ?_
        rw [made, Function.update_self]
      · intro j distinct
        apply place_congr
        · rw [system]
        · rw [made, Function.update_of_ne distinct]
      · rw [DirectorySystem.sections, system]
        rfl
    rw [after]
    exact acts
  · right
    have acts := SectionStep.act about (needs_of_answers accepts answers)
    have cells :=
      directory.trans (perform_eq_action (regular checked inOp) accepts _ _)
    rw [← last, List.drop_length, List.map_nil] at acts
    have after :
        next.sections config op =
          (state.sections config op).act i (filename config.pfx work.cur)
            checked.action [] := by
      apply eq_act_nil cells
      · apply place_of_not_made
        rw [made, Function.update_self]
      · intro j distinct
        apply place_congr
        · rw [works, List.getElem?_set_ne distinct.symm]
        · rw [made, Function.update_of_ne distinct]
      · rw [DirectorySystem.sections, works]
        exact completedNames_operated here true
    rw [after]
    exact acts
  · left
    ext1
    · exact directory.trans (perform_of_rejected rejects _ _)
    · funext j
      change next.place config op j = state.place config op j
      by_cases same : j = i
      · subst same
        have changed :
            next.system.works[j]? = some (operated config work false) := by
          rw [works]
          exact List.getElem?_set_self inWorks
        rw [DirectorySystem.place, DirectorySystem.place, changed, here, made]
        rfl
      · apply place_congr
        · rw [works, List.getElem?_set_ne (Ne.symm same)]
        · rw [made]
    · rw [DirectorySystem.sections, works]
      exact completedNames_operated here false

theorem callStep_invariant
    (invariant : DirectoryInvariant config state)
    {i : Nat} {result : CallResult} {elsewhere : Directory}
    (steps : callStep config op state i result elsewhere = some next) :
    DirectoryInvariant config next := by
  obtain ⟨work, checked, here, operates, -, -, directory, moves⟩ :=
    callStep_cases invariant steps
  have plain : ∀ name ∈ config.names, next.directory.Plain name := by
    intro name inRange
    rw [directory]
    exact perform_plain (invariant.plain name inRange) _ _
  have inside := invariant.cur_lt here operates
  have inWorks := (List.getElem?_eq_some_iff.mp here).1
  rcases moves with
    ⟨-, -, system, made⟩ | ⟨-, -, works, moves, made⟩ |
      ⟨-, works, moves, made⟩
  · refine ⟨by rw [system]; exact invariant.reachable, plain, ?_⟩
    intro j midway
    rw [system]
    by_cases same : j = i
    · subst same
      exact ⟨work, here, by rw [operates]; trivial, inside⟩
    · rw [made, Function.update_of_ne same] at midway
      exact invariant.parked j midway
  · refine ⟨invariant.reachable.tail ⟨_, moves⟩, plain, ?_⟩
    intro j midway
    have distinct : j ≠ i := by
      intro same
      rw [made, same, Function.update_self] at midway
      exact midway rfl
    rw [made, Function.update_of_ne distinct] at midway
    rw [works, List.getElem?_set_ne distinct.symm]
    exact invariant.parked j midway
  · refine ⟨invariant.reachable.tail ⟨_, moves⟩, plain, ?_⟩
    intro j midway
    rw [works]
    by_cases same : j = i
    · subst same
      exact ⟨_, List.getElem?_set_self inWorks, trivial, inside⟩
    · rw [made] at midway
      rw [List.getElem?_set_ne (Ne.symm same)]
      exact invariant.parked j midway

/-- Every step is one of the sections, or changes nothing that they show. -/
theorem directoryStep_sections
    (regular : Regular op) (invariant : DirectoryInvariant config state)
    {event : DirectoryEvent}
    (steps : directoryStep config op state event = some next) :
    DirectoryInvariant config next ∧
      (next.sections config op = state.sections config op ∨
        SectionStep (op.map CheckedCall.action) (state.sections config op)
          (next.sections config op)) := by
  cases event with
  | call i result elsewhere =>
      exact
        ⟨callStep_invariant invariant steps,
          callStep_sections regular invariant steps⟩
  | other event =>
      rw [directoryStep] at steps
      split at steps
      · cases steps
      · next other =>
          obtain ⟨system, moves, is⟩ := Option.map_eq_some_iff.mp steps
          subst is
          have keeps :=
            other_keepsPlaces (Bool.eq_false_of_not_eq_true other) moves
          obtain ⟨kept, same⟩ := invariant.other op keeps ⟨event, moves⟩
          exact ⟨kept, Or.inl same⟩

end Steps

/-! ## Whole runs -/

theorem directoryReachable_sections
    {config : Config} {op : List CheckedCall} {initial : Directory}
    {state : DirectorySystem} (regular : Regular op)
    (plain : ∀ name ∈ config.names, initial.Plain name)
    (reachable : DirectoryReachable config op initial state) :
    DirectoryInvariant config state ∧
      SectionsReach (op.map CheckedCall.action) initial
        (state.sections config op) := by
  induction reachable with
  | refl =>
      constructor
      · exact
          ⟨Relation.ReflTransGen.refl, plain, fun i midway => absurd rfl midway⟩
      · have start :
            DirectorySystem.sections config op
                ⟨System.initial, fun _ => 0, initial⟩ =
              SectionState.initial initial := by
          ext1
          · rfl
          · rfl
          · ext name
            constructor
            · rintro ⟨i, work, here, -⟩
              cases here
            · rintro ⟨⟩
        rw [start]
        exact Relation.ReflTransGen.refl
  | tail _ moves inductionHypothesis =>
      obtain ⟨event, steps⟩ := moves
      obtain ⟨invariant, reach⟩ := inductionHypothesis
      obtain ⟨kept, same | acts⟩ :=
        directoryStep_sections regular invariant steps
      · rw [same]
        exact ⟨kept, reach⟩
      · exact ⟨kept, reach.tail acts⟩

/-- The names that the run has come to are names of its range. -/
theorem DirectoryInvariant.name_of_touched
    {config : Config} {op : List CheckedCall} {state : DirectorySystem}
    (invariant : DirectoryInvariant config state) {name : List UInt8}
    (touched : ¬ (state.sections config op).Untouched name) :
    name ∈ config.names := by
  have follow := reachable_allFollow invariant.reachable
  by_cases completed : name ∈ completedNames state.system.works
  · obtain ⟨i, work, here, record, member, -, is⟩ := completed
    have follows := follow i work here
    obtain ⟨inRange, nameIs⟩ := follows.each record member
    exact
      ⟨record.index, Config.index_lt follows.inside inRange,
        nameIs.symm.trans is⟩
  · by_contra none
    apply touched
    refine ⟨completed, ?_⟩
    intro i rest place
    change state.place config op i = _ at place
    by_cases outside : state.made i = 0
    · rw [place_of_not_made outside] at place
      cases place
    · obtain ⟨work, here, -, inside⟩ := invariant.parked i outside
      rw [place_of_made here outside] at place
      cases place
      exact none (invariant.filename_mem_names here inside)

/-- Behind `EXIT_SUCCESS` every operation is over, and those of all names have
succeeded. -/
theorem DirectoryInvariant.of_success
    {config : Config} {state : DirectorySystem}
    (invariant : DirectoryInvariant config state) (op : List CheckedCall)
    (once : config.loop = false)
    (success : state.system.main = .returned exitSuccess) :
    (∀ i, (state.sections config op).within i = none) ∧
      config.names ⊆ completedNames state.system.works := by
  obtain ⟨valid, holds⟩ := reachable_invariant once invariant.reachable
  rw [success] at holds
  obtain ⟨length, reached⟩ := holds
  have atStop := reached rfl
  constructor
  · intro i
    apply place_of_not_made
    by_contra midway
    obtain ⟨work, here, -, inside⟩ := invariant.parked i midway
    have stops := atStop work (List.mem_of_getElem? here)
    omega
  · rintro name ⟨index, inside, rfl⟩
    have performed :=
      performed_of_allAtStop valid atStop state.system.works.length
        (Nat.le_refl _)
    rw [List.take_length, length, ← config.total_eq] at performed
    have member :
        (⟨index, filename config.pfx index, true⟩ : Performed) ∈
          state.system.works.flatMap Work.performed := by
      rw [performed, done, Nat.sub_zero]
      apply List.mem_map.mpr
      exact ⟨index, List.mem_range'_1.mpr (by omega), rfl⟩
    obtain ⟨work, inWorks, record⟩ := List.mem_flatMap.mp member
    obtain ⟨i, here⟩ := List.mem_iff_getElem?.mp inWorks
    exact ⟨i, work, here, _, record, rfl, rfl⟩

/-! ## The operations -/

/-- What a run may have made of a name at any time, by the operation. -/
def Allowed (operation : String) (before after : Option Entry) : Prop :=
  match operation with
  | "stat" | "open" => after = before
  | "create" => before.isSome = true → after.isSome = true
  | "unlink" => after.isSome = true → after = before
  | _ => True

/-- What a successful run has made of each name of its range. -/
def Achieved (operation : String) (before after : Option Entry) : Prop :=
  match operation with
  | "stat" => after = before
  | "open" => before.isSome = true ∧ after = before
  | "create" => after.isSome = true
  | "unlink" => before.isSome = true ∧ after = none
  | "create_close_unlink" | "create_unlink_close" => after = none
  | _ => True

theorem regular_of_mem_operations
    {operation : String} {op : List CheckedCall}
    (listed : (operation, op) ∈ operations) : Regular op := by
  have all : ∀ entry ∈ operations, ∀ checked ∈ entry.2,
      checked.acceptsEnoent = true → checked.call.writes = none := by
    decide
  exact all _ listed

/-- An operation writes nothing that it does not allow. -/
theorem allowed_of_writes
    {operation : String} {op : List CheckedCall} {before after : Option Entry}
    (listed : (operation, op) ∈ operations)
    (writes : after ≠ before →
      ∃ action ∈ op.map CheckedCall.action, action.writes = some after) :
    Allowed operation before after := by
  simp only [operations, List.mem_cons, Prod.mk.injEq, List.not_mem_nil,
    or_false] at listed
  rcases listed with ⟨rfl, rfl⟩ | ⟨rfl, rfl⟩ | ⟨rfl, rfl⟩ | ⟨rfl, rfl⟩ |
    ⟨rfl, rfl⟩ | ⟨rfl, rfl⟩
  · by_contra differs
    simpa [doStat, CheckedCall.action, Call.writes] using writes differs
  · by_contra differs
    simpa [doOpen, CheckedCall.action, Call.writes] using writes differs
  · intro present
    by_cases same : after = before
    · rw [same]
      exact present
    · have created : some .plain = after := by
        simpa [doCreate, CheckedCall.action, Call.writes] using writes same
      rw [← created]
      rfl
  · intro present
    by_contra differs
    have removed : none = after := by
      simpa [doUnlink, CheckedCall.action, Call.writes] using writes differs
    rw [← removed] at present
    cases present
  · trivial
  · trivial

/-- What the sections say of a completed name is what the operation is for. -/
theorem achieved_of_completed
    {operation : String} {op : List CheckedCall} {before after : Option Entry}
    (listed : (operation, op) ∈ operations)
    (allowed : Allowed operation before after)
    (final : ∀ entry,
      lastWrite (op.map CheckedCall.action) = some entry → after = entry)
    (needed : ∀ action ∈ op.map CheckedCall.action,
      Foreign (op.map CheckedCall.action) action → action.needs before) :
    Achieved operation before after := by
  simp only [operations, List.mem_cons, Prod.mk.injEq, List.not_mem_nil,
    or_false] at listed
  rcases listed with ⟨rfl, rfl⟩ | ⟨rfl, rfl⟩ | ⟨rfl, rfl⟩ | ⟨rfl, rfl⟩ |
    ⟨rfl, rfl⟩ | ⟨rfl, rfl⟩
  · exact allowed
  · have same : after = before := allowed
    have found : before.isSome = true := by
      apply needed _ List.mem_cons_self ?_ rfl rfl
      simp [Foreign, doOpen, CheckedCall.action, Call.writes]
    exact ⟨found, same⟩
  · have created : after = some .plain := final _ rfl
    rw [created]
    rfl
  · have found : before.isSome = true := by
      apply needed _ List.mem_cons_self ?_ rfl rfl
      simp [Foreign, doUnlink, CheckedCall.action, Call.writes, Call.needsName]
    exact ⟨found, final none rfl⟩
  · exact final none rfl
  · exact final none rfl

/-- A prefix without a slash makes names without one. -/
theorem slash_not_mem_filename
    {pfx : List UInt8} (slashless : slash ∉ pfx) (index : Nat) :
    slash ∉ filename pfx index := by
  intro member
  rcases List.mem_append.mp (List.mem_of_mem_take member) with inPrefix | inDigits
  · exact slashless inPrefix
  · rw [paddedDecimal_eq] at inDigits
    obtain ⟨digit, inside, is⟩ := List.mem_map.mp inDigits
    have isDigit := isDigit_of_mem_paddedDigits inside
    have back := ofNat_toNat_of_isDigit isDigit
    rw [is] at back
    rw [← back] at isDigit
    exact absurd isDigit (by decide)

/-- For every order in which the threads make their system calls, and whatever
fails, is interrupted or cancelled, if the prefix holds no slash and no name of the
range is a symbolic link: names that are not in the range stay as they were, a name
changes only the way the operation allows, and behind `EXIT_SUCCESS` every name of
the range is as the operation is meant to leave it. -/
theorem negdentcreate_directory
    {config : Config} {operation : String} {op : List CheckedCall}
    {initial : Directory} {state : DirectorySystem}
    (listed : (operation, op) ∈ operations)
    (slashless : slash ∉ config.pfx)
    (unlinked : ∀ name ∈ config.names, initial name ≠ some .symlink)
    (reachable : DirectoryReachable config op initial state) :
    (∀ name, state.directory name ≠ initial name → name ∈ config.names) ∧
    (∀ name, Allowed operation (initial name) (state.directory name)) ∧
    (config.loop = false → state.system.main = .returned exitSuccess →
      ∀ name ∈ config.names,
        Achieved operation (initial name) (state.directory name)) := by
  have plain : ∀ name ∈ config.names, initial.Plain name := by
    rintro _ ⟨index, inside, rfl⟩
    exact
      ⟨slash_not_mem_filename slashless index,
        unlinked _ ⟨index, inside, rfl⟩⟩
  obtain ⟨invariant, reach⟩ :=
    directoryReachable_sections (regular_of_mem_operations listed) plain reachable
  have sections := sectionsReach_invariant reach
  refine ⟨?_, ?_, ?_⟩
  · intro name differs
    exact invariant.name_of_touched (sections.changed name differs).2
  · intro name
    exact allowed_of_writes listed fun differs => (sections.changed name differs).1
  · intro once success name inRange
    obtain ⟨outside, completed⟩ :=
      invariant.of_success op once success
    have member := completed inRange
    apply achieved_of_completed listed
    · exact
        allowed_of_writes listed fun differs =>
          (sections.changed _ differs).1
    · intro entry last
      exact sections.final outside last member
    · exact sections.completed _ member

/-- Run the events, as far as they are enabled. -/
def runDirectoryEvents
    (config : Config) (op : List CheckedCall) (state : DirectorySystem) :
    List DirectoryEvent → Option DirectorySystem
  | [] => some state
  | event :: rest =>
      (directoryStep config op state event).bind fun next =>
        runDirectoryEvents config op next rest

theorem directoryReachable_of_runDirectoryEvents
    {config : Config} {op : List CheckedCall} {initial : Directory}
    {events : List DirectoryEvent} {state last : DirectorySystem}
    (reachable : DirectoryReachable config op initial state)
    (run : runDirectoryEvents config op state events = some last) :
    DirectoryReachable config op initial last := by
  induction events generalizing state with
  | nil =>
      cases run
      exact reachable
  | cons event rest inductionHypothesis =>
      obtain ⟨next, steps, later⟩ := Option.bind_eq_some_iff.mp run
      exact inductionHypothesis (reachable.tail ⟨event, steps⟩) later

/-- The first name is there, and a symbolic link under the prefix alone. -/
def linkBeside : Directory := fun name =>
  if name = [102] then some .symlink
  else if name = filename [102] 0 then some .plain
  else none

/-- Both workers are at their calls at the same time. -/
def twoCreations : List DirectoryEvent :=
  let call (i : Nat) : DirectoryEvent := .call i .success linkBeside
  let worker (i : Nat) : DirectoryEvent := .other (.worker i true)
  [.other .main, .other .main] ++
    (List.replicate 4 [worker 0, worker 1]).flatten ++
    [call 0, call 1, call 1, .other .main, call 0, call 0, call 1] ++
    (List.replicate 4 [.other .main, worker 1, worker 0]).flatten ++
    List.replicate 16 (.other .main)

theorem negdentcreate_directory_twoFiles :
    ∃ last,
      runDirectoryEvents twoFiles doCreateUnlinkClose
          ⟨System.initial, fun _ => 0, linkBeside⟩ twoCreations =
        some last ∧
      last.directory [102] = some .symlink ∧
      ∀ name ∈ twoFiles.names, last.directory name = none := by
  have ends :
      (runDirectoryEvents twoFiles doCreateUnlinkClose
          ⟨System.initial, fun _ => 0, linkBeside⟩ twoCreations).map
        (fun last => last.system.main) = some (.returned exitSuccess) := by
    decide +kernel
  obtain ⟨last, run, success⟩ := Option.map_eq_some_iff.mp ends
  have reachable :
      DirectoryReachable twoFiles doCreateUnlinkClose linkBeside last :=
    directoryReachable_of_runDirectoryEvents Relation.ReflTransGen.refl run
  have listed : ("create_unlink_close", doCreateUnlinkClose) ∈ operations := by
    simp [operations]
  have outside : [102] ∉ twoFiles.names := by
    rintro ⟨index, inside, is⟩
    have others : ∀ index < twoFiles.total, filename [102] index ≠ [102] := by
      decide +kernel
    exact others index inside is
  have unlinked : ∀ name ∈ twoFiles.names, linkBeside name ≠ some .symlink := by
    intro name inRange link
    by_cases same : name = [102]
    · exact outside (same ▸ inRange)
    · rw [linkBeside, if_neg same] at link
      split at link <;> cases link
  obtain ⟨unchanged, -, achieved⟩ :=
    negdentcreate_directory listed (by decide) unlinked reachable
  refine ⟨last, run, ?_, achieved rfl success⟩
  by_contra changed
  exact outside (unchanged [102] changed)

end KernelStuff.Negdentcreate
