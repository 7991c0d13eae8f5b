import Mathlib.Logic.Function.Basic

/-!
# Loops over a list of items

A bounded `for` loop is `List.foldlM` over the indices.  A loop that can stop
early is related to an abstract loop by relating one iteration.
-/

namespace KernelStuff.Library

universe u v w x

section Loops

variable {State : Type u} {Item : Type v}

/-- A loop fails exactly when some iteration fails after a run that did not. -/
theorem foldlM_eq_none_iff {step : State → Item → Option State} :
    ∀ {items : List Item} {source : State},
      items.foldlM step source = none ↔
        ∃ before item after middle,
          items = before ++ item :: after ∧
            before.foldlM step source = some middle ∧
            step middle item = none
  | [], source => by simp
  | head :: tail, source => by
      rw [List.foldlM_cons]
      constructor
      · intro failed
        cases first : step source head with
        | none => exact ⟨[], head, tail, source, rfl, rfl, first⟩
        | some next =>
            rw [first] at failed
            obtain ⟨before, item, after, middle, split, run, stops⟩ :=
              foldlM_eq_none_iff.mp failed
            refine ⟨head :: before, item, after, middle, ?_, ?_, stops⟩
            · rw [split, List.cons_append]
            · rw [List.foldlM_cons, first]
              exact run
      · rintro ⟨before, item, after, middle, split, run, stops⟩
        cases before with
        | nil =>
            cases split
            cases run
            rw [stops]
            rfl
        | cons first rest =>
            rw [List.cons_append] at split
            cases split
            rw [List.foldlM_cons] at run
            obtain ⟨next, firstStep, others⟩ := Option.bind_eq_some_iff.mp run
            rw [firstStep]
            exact foldlM_eq_none_iff.mpr
              ⟨rest, item, after, middle, rfl, others, stops⟩

/-- A loop that follows another one step by step reaches the end if the other
does. -/
theorem foldlM_follows
    {Other : Type w} {related : State → Other → Prop}
    {step : State → Item → Option State}
    {otherStep : Other → Item → Option Other}
    (iteration :
      ∀ source other item next, related source other →
        step source item = some next →
          ∃ otherNext,
            otherStep other item = some otherNext ∧ related next otherNext) :
    ∀ (items : List Item) {source last : State} {other : Other},
      related source other → items.foldlM step source = some last →
        ∃ otherLast,
          items.foldlM otherStep other = some otherLast ∧
            related last otherLast
  | [], source, last, other, start, run => by
      cases run
      exact ⟨other, rfl, start⟩
  | item :: rest, source, last, other, start, run => by
      rw [List.foldlM_cons] at run
      obtain ⟨next, first, others⟩ := Option.bind_eq_some_iff.mp run
      obtain ⟨otherNext, otherFirst, relatedNext⟩ :=
        iteration source other item next start first
      rw [List.foldlM_cons, otherFirst]
      exact foldlM_follows iteration rest relatedNext others

/-- A concrete result matches an abstract one: both go on, related, or both
stop. -/
def Simulates {Concrete : Type u} {Abstract : Type w} {Failure : Type x}
    (related : Concrete → Abstract → Prop) (stopped : Failure → Prop)
    (concrete : Except Failure Concrete) : Option Abstract → Prop
  | some abstract =>
      ∃ result, concrete = .ok result ∧ related result abstract
  | none => ∃ failure, concrete = .error failure ∧ stopped failure

/-- Loops whose iterations match each other match. -/
theorem foldlM_simulates
    {Concrete : Type u} {Abstract : Type w} {Failure : Type x}
    {related : Concrete → Abstract → Prop} {stopped : Failure → Prop}
    {step : Concrete → Item → Except Failure Concrete}
    {abstractStep : Abstract → Item → Option Abstract}
    (iteration :
      ∀ concrete abstract item, related concrete abstract →
        Simulates related stopped (step concrete item)
          (abstractStep abstract item)) :
    ∀ (items : List Item) {concrete : Concrete} {abstract : Abstract},
      related concrete abstract →
        Simulates related stopped (items.foldlM step concrete)
          (items.foldlM abstractStep abstract)
  | [], concrete, _, start => ⟨concrete, rfl, start⟩
  | item :: rest, concrete, abstract, start => by
      have first := iteration concrete abstract item start
      rw [List.foldlM_cons, List.foldlM_cons]
      cases next : abstractStep abstract item with
      | none =>
          rw [next] at first
          obtain ⟨failure, stops, why⟩ := first
          rw [stops]
          exact ⟨failure, rfl, why⟩
      | some abstractNext =>
          rw [next] at first
          obtain ⟨middle, moves, relatedNext⟩ := first
          rw [moves]
          exact foldlM_simulates iteration rest relatedNext

/-- Two loops whose iterations keep a relation both fail or both end in related
states. -/
theorem foldlM_rel
    {Other : Type w} {related : State → Other → Prop}
    {step : State → Item → Option State}
    {otherStep : Other → Item → Option Other}
    (iteration :
      ∀ source other item, related source other →
        Option.Rel related (step source item) (otherStep other item)) :
    ∀ (items : List Item) {source : State} {other : Other},
      related source other →
        Option.Rel related (items.foldlM step source)
          (items.foldlM otherStep other)
  | [], _, _, start => .some start
  | item :: rest, source, other, start => by
      have first := iteration source other item start
      rw [List.foldlM_cons, List.foldlM_cons]
      generalize step source item = next, otherStep other item = otherNext
        at first
      cases first with
      | none => exact .none
      | some next => exact foldlM_rel iteration rest next

end Loops

/-! ## Postconditions -/

section Postconditions

variable {Failure : Type u} {α β : Type v}

/-- The program ends in a value or in a failure with the given property. -/
def Ends (fine : α → Prop) (stopped : Failure → Prop) :
    Except Failure α → Prop
  | .ok value => fine value
  | .error failure => stopped failure

variable {fine : β → Prop} {middle : α → Prop} {stopped : Failure → Prop}

theorem Ends.bind
    {program : Except Failure α} {rest : α → Except Failure β}
    (first : Ends middle stopped program)
    (second : ∀ value, middle value → Ends fine stopped (rest value)) :
    Ends fine stopped (program >>= rest) := by
  cases program with
  | ok value => exact second value first
  | error failure => exact first

theorem Ends.ite
    {condition : Prop} [Decidable condition] {program other : Except Failure β}
    (first : condition → Ends fine stopped program)
    (second : ¬ condition → Ends fine stopped other) :
    Ends fine stopped (if condition then program else other) := by
  split
  · next holds => exact first holds
  · next fails => exact second fails

/-- A loop keeps what every iteration keeps. -/
theorem Ends.foldlM
    {Item : Type w} {step : α → Item → Except Failure α}
    (iteration : ∀ value item, middle value →
      Ends middle stopped (step value item)) :
    ∀ (items : List Item) {value : α}, middle value →
      Ends middle stopped (items.foldlM step value)
  | [], _, start => start
  | item :: rest, value, start => by
      rw [List.foldlM_cons]
      exact (iteration value item start).bind fun next kept =>
        Ends.foldlM iteration rest kept

end Postconditions

end KernelStuff.Library
