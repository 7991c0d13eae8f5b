import Mathlib.Logic.Relation

/-!
# Deterministic machines

A machine is a step function that either moves to the next state or halts with
an outcome.  Reachability is the reflexive-transitive closure of the moves, and
a bounded evaluator is related to it in both directions, so a statement about
reached states is also a statement about enough fuel.
-/

namespace KernelStuff.Library

universe u v

section Machine

variable {State : Type u} {Outcome : Type v}

/-- A machine step: `.ok` moves on, `.error` halts. -/
abbrev Step (State : Type u) (Outcome : Type v) :=
  State → Except Outcome State

/-- `target` is reached from `source` by finitely many moves. -/
def Reaches (step : Step State Outcome) : State → State → Prop :=
  Relation.ReflTransGen fun source target => step source = .ok target

/-- The machine started at `source` comes to a halt with `outcome`. -/
def Halts (step : Step State Outcome)
    (source : State) (outcome : Outcome) : Prop :=
  ∃ last, Reaches step source last ∧ step last = .error outcome

/-- Run for at most `fuel` steps. -/
def evaluate (step : Step State Outcome) : Nat → State → Option Outcome
  | 0, _ => none
  | fuel + 1, source =>
      match step source with
      | .ok target => evaluate step fuel target
      | .error outcome => some outcome

variable {step : Step State Outcome}

theorem Reaches.refl (source : State) : Reaches step source source :=
  Relation.ReflTransGen.refl

theorem Reaches.trans {first second third : State}
    (left : Reaches step first second)
    (right : Reaches step second third) :
    Reaches step first third :=
  Relation.ReflTransGen.trans left right

theorem Reaches.single {source target : State}
    (moves : step source = .ok target) :
    Reaches step source target :=
  Relation.ReflTransGen.single moves

theorem Reaches.head {source middle target : State}
    (moves : step source = .ok middle)
    (rest : Reaches step middle target) :
    Reaches step source target :=
  Relation.ReflTransGen.head moves rest

/-- What holds at the start and is preserved by every move holds at every
reached state. -/
theorem Reaches.invariant
    {property : State → Prop}
    (preserved :
      ∀ source target,
        step source = .ok target → property source → property target)
    {source target : State}
    (run : Reaches step source target)
    (initially : property source) :
    property target := by
  induction run with
  | refl => exact initially
  | tail _ moves inductionHypothesis =>
      exact preserved _ _ moves inductionHypothesis

theorem Halts.of_reaches {source middle : State} {outcome : Outcome}
    (run : Reaches step source middle)
    (halts : Halts step middle outcome) :
    Halts step source outcome := by
  obtain ⟨last, rest, stops⟩ := halts
  exact ⟨last, run.trans rest, stops⟩

/-- A halting state has no successor, so every run from `source` passes
through each state on the way to the halt. -/
theorem Halts.of_reaches_source {source middle : State} {outcome : Outcome}
    (run : Reaches step source middle)
    (halts : Halts step source outcome) :
    Halts step middle outcome := by
  obtain ⟨last, rest, stops⟩ := halts
  have unique :
      Relator.RightUnique fun source target : State =>
        step source = .ok target := by
    intro first second third left right
    exact Except.ok.inj (left.symm.trans right)
  rcases Relation.ReflTransGen.total_of_right_unique unique run rest with
    onward | backward
  · exact ⟨last, onward, stops⟩
  · rcases Relation.ReflTransGen.cases_head backward with same | moved
    · exact ⟨last, same ▸ Reaches.refl last, stops⟩
    · obtain ⟨next, moves, _⟩ := moved
      rw [stops] at moves
      cases moves

/-- A deterministic machine halts with at most one outcome. -/
theorem Halts.unique {source : State} {first second : Outcome}
    (left : Halts step source first)
    (right : Halts step source second) :
    first = second := by
  obtain ⟨last, run, stops⟩ := left
  obtain ⟨other, rest, alsoStops⟩ := Halts.of_reaches_source run right
  rcases Relation.ReflTransGen.cases_head rest with same | moved
  · subst same
    exact Except.error.inj (stops.symm.trans alsoStops)
  · obtain ⟨next, moves, _⟩ := moved
    rw [stops] at moves
    cases moves

theorem halts_of_evaluate {outcome : Outcome} :
    ∀ {fuel : Nat} {source : State},
      evaluate step fuel source = some outcome →
        Halts step source outcome
  | 0, _, finished => by
      simp [evaluate] at finished
  | fuel + 1, source, finished => by
      rw [evaluate] at finished
      split at finished
      · next target moves =>
          exact Halts.of_reaches (Reaches.single moves)
            (halts_of_evaluate finished)
      · next stopped stops =>
          cases finished
          exact ⟨source, Reaches.refl source, stops⟩

/-- A machine that stays where it is never halts. -/
theorem not_halts_of_fixed
    {source : State} {outcome : Outcome} (fixed : step source = .ok source) :
    ¬ Halts step source outcome := by
  rintro ⟨last, run, stops⟩
  have stays : ∀ first second,
      step first = .ok second → first = source → second = source := by
    intro first second moves here
    rw [here, fixed] at moves
    exact (Except.ok.inj moves).symm
  have same : last = source := Reaches.invariant stays run rfl
  rw [same, fixed] at stops
  cases stops

/-- A machine whose measure falls with every move that a run makes halts, and
the measure is enough fuel. -/
theorem evaluate_of_decreasing (measure : State → Nat) :
    ∀ {fuel : Nat} {source : State},
      (∀ first second, Reaches step source first → step first = .ok second →
        measure second < measure first) →
        measure source < fuel →
          ∃ outcome, evaluate step fuel source = some outcome
  | 0, _, _, enough => absurd enough (Nat.not_lt_zero _)
  | fuel + 1, source, decreases, enough => by
      rw [evaluate]
      cases moves : step source with
      | error outcome => exact ⟨outcome, rfl⟩
      | ok target =>
          have smaller := decreases source target (Reaches.refl source) moves
          apply evaluate_of_decreasing measure
          · intro first second run
            exact decreases first second (Reaches.head moves run)
          · omega

/-- The states a machine passes through in at most `fuel` steps. -/
def trail (step : Step State Outcome) : Nat → State → List State
  | 0, _ => []
  | fuel + 1, source =>
      source ::
        match step source with
        | .ok target => trail step fuel target
        | .error _ => []

/-- Machines that do the same in every state of a run, up to what their outcomes
show, have the same run. -/
theorem trail_congr {View : Type v} (view : Outcome → View)
    {other : Step State Outcome} :
    ∀ {fuel : Nat} {source : State},
      (∀ state ∈ trail step fuel source,
        (other state).mapError view = (step state).mapError view) →
        trail other fuel source = trail step fuel source ∧
          (evaluate other fuel source).map view =
            (evaluate step fuel source).map view
  | 0, _, _ => ⟨rfl, rfl⟩
  | fuel + 1, source, same => by
      rw [trail] at same
      have here := same source List.mem_cons_self
      rw [trail, trail, evaluate, evaluate]
      cases moves : step source with
      | error outcome =>
          rw [moves] at here
          cases otherMoves : other source with
          | error otherOutcome =>
              rw [otherMoves] at here
              exact ⟨rfl, congrArg some (Except.error.inj here)⟩
          | ok target =>
              rw [otherMoves] at here
              cases here
      | ok target =>
          rw [moves] at here same
          cases otherMoves : other source with
          | error otherOutcome =>
              rw [otherMoves] at here
              cases here
          | ok otherTarget =>
              rw [otherMoves] at here
              cases here
              obtain ⟨sameTrail, sameOutcome⟩ :=
                trail_congr view fun state later =>
                  same state (List.mem_cons_of_mem _ later)
              exact ⟨congrArg (source :: ·) sameTrail, sameOutcome⟩

end Machine

end KernelStuff.Library
