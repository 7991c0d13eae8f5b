import Mathlib.Data.List.Basic

/-!
# Programs with state and exceptions

Rules for `EStateM`: a program is taken apart at a bind, and a relation between
the states before and after that is reflexive and transitive is kept by a
program if its parts keep it.
-/

namespace KernelStuff.Library

universe u v

section Effects

variable {Failure State : Type u} {α β : Type u}

/-! ## Binds -/

theorem bind_of_ok
    {program : EStateM Failure State α} {rest : α → EStateM Failure State β}
    {state next : State} {value : α}
    (first : program state = .ok value next) :
    (program >>= rest) state = rest value next := by
  change EStateM.bind program rest state = _
  rw [EStateM.bind, first]

theorem bind_of_error
    {program : EStateM Failure State α} {rest : α → EStateM Failure State β}
    {state next : State} {failure : Failure}
    (first : program state = .error failure next) :
    (program >>= rest) state = .error failure next := by
  change EStateM.bind program rest state = _
  rw [EStateM.bind, first]

theorem bind_eq_ok
    {program : EStateM Failure State α} {rest : α → EStateM Failure State β}
    {state last : State} {result : β}
    (run : (program >>= rest) state = .ok result last) :
    ∃ value next,
      program state = .ok value next ∧ rest value next = .ok result last := by
  cases first : program state with
  | ok value next =>
      rw [bind_of_ok first] at run
      exact ⟨value, next, rfl, run⟩
  | error failure next =>
      rw [bind_of_error first] at run
      cases run

/-! ## Relations kept by a program -/

/-- The state a program leaves, whether it returns or not. -/
def lastState (result : EStateM.Result Failure State α) : State :=
  match result with
  | .ok _ state => state
  | .error _ state => state

/-- The program leaves only states related to the one it started in. -/
def Keeps (related : State → State → Prop)
    (program : EStateM Failure State α) : Prop :=
  ∀ state, related state (lastState (program state))

variable {related : State → State → Prop}

theorem Keeps.ok
    {program : EStateM Failure State α} {state last : State} {value : α}
    (keeps : Keeps related program) (run : program state = .ok value last) :
    related state last := by
  have here := keeps state
  rw [run] at here
  exact here

theorem Keeps.error
    {program : EStateM Failure State α} {state last : State}
    {failure : Failure}
    (keeps : Keeps related program)
    (run : program state = .error failure last) :
    related state last := by
  have here := keeps state
  rw [run] at here
  exact here

theorem keeps_pure (reflexive : ∀ state, related state state) (value : α) :
    Keeps related (pure value : EStateM Failure State α) :=
  fun state => reflexive state

theorem keeps_throw
    (reflexive : ∀ state, related state state) (failure : Failure) :
    Keeps related (throw failure : EStateM Failure State α) :=
  fun state => reflexive state

theorem keeps_get (reflexive : ∀ state, related state state) :
    Keeps related (get : EStateM Failure State State) :=
  fun state => reflexive state

theorem keeps_modify {change : State → State}
    (changes : ∀ state, related state (change state)) :
    Keeps related (modify change : EStateM Failure State PUnit) :=
  fun state => changes state

theorem Keeps.bind
    (transitive : ∀ first second third,
      related first second → related second third → related first third)
    {program : EStateM Failure State α} {rest : α → EStateM Failure State β}
    (first : Keeps related program)
    (second : ∀ value, Keeps related (rest value)) :
    Keeps related (program >>= rest) := by
  intro state
  cases run : program state with
  | ok value next =>
      rw [bind_of_ok run]
      exact transitive _ _ _ (first.ok run) (second value next)
  | error failure next =>
      rw [bind_of_error run]
      exact first.error run

theorem Keeps.ite {condition : Prop} [Decidable condition]
    {program other : EStateM Failure State α}
    (first : Keeps related program) (second : Keeps related other) :
    Keeps related (if condition then program else other) := by
  split
  · exact first
  · exact second

/-! ## Properties of what a program returns -/

/-- Every value the program returns has the property. -/
def Yields (property : α → Prop) (program : EStateM Failure State α) : Prop :=
  ∀ state value last, program state = .ok value last → property value

theorem yields_trivial (program : EStateM Failure State α) :
    Yields (fun _ => True) program :=
  fun _ _ _ _ => trivial

theorem yields_pure {property : α → Prop} {value : α} (holds : property value) :
    Yields property (pure value : EStateM Failure State α) := by
  intro state result last run
  cases run
  exact holds

theorem yields_throw {property : α → Prop} (failure : Failure) :
    Yields property (throw failure : EStateM Failure State α) := by
  intro state result last run
  cases run

theorem Yields.bind
    {program : EStateM Failure State α} {rest : α → EStateM Failure State β}
    {property : α → Prop} {later : β → Prop}
    (first : Yields property program)
    (second : ∀ value, property value → Yields later (rest value)) :
    Yields later (program >>= rest) := by
  intro state result last run
  obtain ⟨value, next, here, there⟩ := bind_eq_ok run
  exact second value (first _ _ _ here) _ _ _ there

theorem Yields.ite {condition : Prop} [Decidable condition]
    {program other : EStateM Failure State α} {property : α → Prop}
    (first : Yields property program) (second : Yields property other) :
    Yields property (if condition then program else other) := by
  split
  · exact first
  · exact second

/-! ## Runs on concrete states -/

/-- The run returns, and the test accepts its value and state. -/
def returnsWith (test : α → State → Bool) :
    EStateM.Result Failure State α → Bool
  | .ok value last => test value last
  | .error _ _ => false

theorem exists_of_returnsWith
    {test : α → State → Bool} {result : EStateM.Result Failure State α}
    (returns : returnsWith test result = true) :
    ∃ value last, result = .ok value last ∧ test value last = true := by
  cases result with
  | ok value last => exact ⟨value, last, rfl, returns⟩
  | error failure last => cases returns

end Effects

/-! ## Early returns -/

section EarlyReturns

variable {Failure State α β : Type}

section Taken

variable {default result : β} {state last : State}
  (different : result ≠ default)

include different

theorem guard_eq_ok
    {condition : Prop} [Decidable condition] {rest : EStateM Failure State β}
    (run :
      (if condition then pure default else rest) state = .ok result last) :
    ¬ condition ∧ rest state = .ok result last := by
  by_cases holds : condition
  · rw [if_pos holds] at run
    cases run
    exact absurd rfl different
  · rw [if_neg holds] at run
    exact ⟨holds, run⟩

theorem bind_check_eq_ok
    {program : EStateM Failure State Bool} {rest : EStateM Failure State β}
    (run :
      (program >>= fun value =>
        if (!value) = true then pure default else rest) state =
          .ok result last) :
    ∃ next, program state = .ok true next ∧ rest next = .ok result last := by
  obtain ⟨value, next, first, run⟩ := bind_eq_ok run
  obtain ⟨passed, run⟩ := guard_eq_ok different run
  rw [Bool.not_eq_true, Bool.not_eq_false'] at passed
  rw [passed] at first
  exact ⟨next, first, run⟩

/-- `rest` returns early on `none`. -/
theorem bind_some_eq_ok
    {program : EStateM Failure State (Option α)}
    {rest : Option α → EStateM Failure State β}
    (run : (program >>= rest) state = .ok result last)
    (returns : rest none = pure default) :
    ∃ content next,
      program state = .ok (some content) next ∧
        rest (some content) next = .ok result last := by
  obtain ⟨value, next, first, run⟩ := bind_eq_ok run
  cases value with
  | none =>
      rw [returns] at run
      cases run
      exact absurd rfl different
  | some content => exact ⟨content, next, first, run⟩

end Taken

end EarlyReturns

end KernelStuff.Library
