import Mathlib.Data.List.Basic
import Mathlib.Data.Set.Insert
import Mathlib.Logic.Function.Basic
import Mathlib.Logic.Relation

/-!
# Interleaved sections

Parties work on shared cells.  Each goes through the same list of actions again
and again, every time on one cell, and between two of its actions the others do
theirs.  A party that gives up stays where it is.  What a section leaves of its
cell is what its last write leaves, whoever else has been there.
-/

namespace KernelStuff.Library

universe u v w

section Sections

variable {Party : Type u} {Cell : Type v} {Value : Type w}

/-- What an action needs of the cell, and what it writes there. -/
structure CellAction (Value : Type w) where
  needs : Value → Prop
  writes : Option Value

/-- The cells, the parties that are within a section with what is left of it, and
the cells of the completed sections. -/
@[ext]
structure SectionState (Party : Type u) (Cell : Type v) (Value : Type w) where
  cells : Cell → Value
  within : Party → Option (Cell × List (CellAction Value))
  completed : Set Cell

/-- The party is about to do `actions` on the cell. -/
def SectionState.AboutTo
    (state : SectionState Party Cell Value) (op : List (CellAction Value))
    (party : Party) (cell : Cell) (actions : List (CellAction Value)) : Prop :=
  state.within party = some (cell, actions) ∨
    (state.within party = none ∧ actions = op)

def SectionState.initial (cells : Cell → Value) :
    SectionState Party Cell Value :=
  ⟨cells, fun _ => none, ∅⟩

/-! ## The last write of a section -/

def lastWrite (actions : List (CellAction Value)) : Option Value :=
  (actions.filterMap CellAction.writes).getLast?

theorem lastWrite_append (done rest : List (CellAction Value)) :
    lastWrite (done ++ rest) = (lastWrite rest).or (lastWrite done) := by
  rw [lastWrite, List.filterMap_append, List.getLast?_append]
  rfl

theorem lastWrite_singleton (action : CellAction Value) :
    lastWrite [action] = action.writes := by
  cases writes : action.writes <;> simp [lastWrite, writes]

/-- The actions write nothing that this one needs. -/
def Foreign (op : List (CellAction Value)) (action : CellAction Value) : Prop :=
  ∀ other ∈ op, ∀ value, other.writes = some value → ¬ action.needs value

/-- Some party is in a section on the cell that has still to write `value`. -/
def SectionState.Midway
    (state : SectionState Party Cell Value) (cell : Cell) (value : Value) :
    Prop :=
  ∃ party rest, state.within party = some (cell, rest) ∧
    lastWrite rest = some value

def SectionState.Untouched
    (state : SectionState Party Cell Value) (cell : Cell) : Prop :=
  cell ∉ state.completed ∧ ∀ party rest, state.within party ≠ some (cell, rest)

structure SectionInvariant
    (op : List (CellAction Value)) (initial : Cell → Value)
    (state : SectionState Party Cell Value) : Prop where
  within : ∀ party cell rest, state.within party = some (cell, rest) →
    ∃ done, op = done ++ rest ∧
      ∀ action ∈ done, Foreign op action → action.needs (initial cell)
  completed : ∀ cell ∈ state.completed, ∀ action ∈ op,
    Foreign op action → action.needs (initial cell)
  changed : ∀ cell, state.cells cell ≠ initial cell →
    (∃ action ∈ op, action.writes = some (state.cells cell)) ∧
      ¬ state.Untouched cell
  settled : ∀ value, lastWrite op = some value → ∀ cell,
    state.cells cell = value ∨ state.Midway cell value ∨ state.Untouched cell

section Splits

variable {op : List (CellAction Value)} {initial : Cell → Value}
  {state : SectionState Party Cell Value} {party : Party} {cell : Cell}
  {action : CellAction Value} {rest : List (CellAction Value)}

theorem initial_sectionInvariant :
    SectionInvariant op initial
      (SectionState.initial initial : SectionState Party Cell Value) where
  within := by
    intro party cell rest here
    cases here
  completed := by
    intro cell member
    cases member
  changed := by
    intro cell differs
    exact absurd rfl differs
  settled := by
    intro value _ cell
    refine Or.inr (Or.inr ⟨Set.notMem_empty cell, ?_⟩)
    rintro party rest ⟨⟩

theorem SectionInvariant.split
    (invariant : SectionInvariant op initial state)
    {actions : List (CellAction Value)}
    (about : state.AboutTo op party cell actions) :
    ∃ done, op = done ++ actions ∧
      ∀ earlier ∈ done, Foreign op earlier → earlier.needs (initial cell) := by
  rcases about with here | ⟨-, start⟩
  · exact invariant.within party cell _ here
  · exact ⟨[], start.symm, fun earlier member => absurd member List.not_mem_nil⟩

/-- What the action needs was there from the start, if no action brings it. -/
theorem SectionInvariant.needed_initially
    (invariant : SectionInvariant op initial state)
    (foreign : Foreign op action) (needed : action.needs (state.cells cell)) :
    action.needs (initial cell) := by
  by_cases same : state.cells cell = initial cell
  · rw [← same]
    exact needed
  · obtain ⟨⟨other, member, writes⟩, -⟩ := invariant.changed cell same
    exact absurd needed (foreign other member _ writes)

/-- With the action the party has done one more, and what it needed was there. -/
theorem SectionInvariant.act_split
    (invariant : SectionInvariant op initial state)
    (about : state.AboutTo op party cell (action :: rest))
    (needed : action.needs (state.cells cell)) :
    ∃ done, op = done ++ rest ∧
      ∀ earlier ∈ done, Foreign op earlier → earlier.needs (initial cell) := by
  obtain ⟨done, split, past⟩ := invariant.split about
  refine ⟨done ++ [action], by rw [split, List.append_assoc]; rfl, ?_⟩
  intro earlier member foreign
  rcases List.mem_append.mp member with before | last
  · exact past earlier before foreign
  · rw [List.mem_singleton.mp last] at foreign ⊢
    exact invariant.needed_initially foreign needed

/-- When nobody is within a section, a section's cell holds what the last write
of a section leaves. -/
theorem SectionInvariant.final
    (invariant : SectionInvariant op initial state)
    (outside : ∀ party, state.within party = none)
    {value : Value} (last : lastWrite op = some value)
    (member : cell ∈ state.completed) : state.cells cell = value := by
  rcases invariant.settled value last cell with
    here | ⟨party, rest, inside, -⟩ | ⟨notCompleted, -⟩
  · exact here
  · rw [outside party] at inside
    cases inside
  · exact absurd member notCompleted

end Splits

/-! ## Steps -/

variable [DecidableEq Party] [DecidableEq Cell]

def CellAction.perform
    (action : CellAction Value) (cell : Cell) (cells : Cell → Value) :
    Cell → Value :=
  match action.writes with
  | none => cells
  | some value => Function.update cells cell value

/-- The party has done an action, and `rest` is left. -/
def SectionState.act
    (state : SectionState Party Cell Value) (party : Party) (cell : Cell)
    (action : CellAction Value) :
    List (CellAction Value) → SectionState Party Cell Value
  | [] =>
      ⟨action.perform cell state.cells,
        Function.update state.within party none, insert cell state.completed⟩
  | next :: rest =>
      ⟨action.perform cell state.cells,
        Function.update state.within party (some (cell, next :: rest)),
        state.completed⟩

inductive SectionStep (op : List (CellAction Value)) :
    SectionState Party Cell Value → SectionState Party Cell Value → Prop
  | act {state : SectionState Party Cell Value} {party : Party} {cell : Cell}
      {action : CellAction Value} {rest : List (CellAction Value)}
      (about : state.AboutTo op party cell (action :: rest))
      (needed : action.needs (state.cells cell)) :
      SectionStep op state (state.act party cell action rest)

def SectionsReach (op : List (CellAction Value)) (initial : Cell → Value) :
    SectionState Party Cell Value → Prop :=
  Relation.ReflTransGen (SectionStep op) (.initial initial)

section Acting

variable {op rest : List (CellAction Value)} {initial : Cell → Value}
  {state : SectionState Party Cell Value} {party : Party} {cell : Cell}
  {action : CellAction Value}

@[simp]
theorem act_cells :
    (state.act party cell action rest).cells =
      action.perform cell state.cells := by
  cases rest <;> rfl

/-- A state that is the one behind an action in the middle of a section. -/
theorem eq_act_cons
    {next : SectionState Party Cell Value} (more : rest ≠ [])
    (cells : next.cells = action.perform cell state.cells)
    (self : next.within party = some (cell, rest))
    (others : ∀ other, other ≠ party → next.within other = state.within other)
    (completed : next.completed = state.completed) :
    next = state.act party cell action rest := by
  cases rest with
  | nil => exact absurd rfl more
  | cons after rest =>
      ext1
      · exact cells
      · exact Function.eq_update_iff.mpr ⟨self, others⟩
      · exact completed

/-- A state that is the one behind the last action of a section. -/
theorem eq_act_nil
    {next : SectionState Party Cell Value}
    (cells : next.cells = action.perform cell state.cells)
    (self : next.within party = none)
    (others : ∀ other, other ≠ party → next.within other = state.within other)
    (completed : next.completed = insert cell state.completed) :
    next = state.act party cell action [] := by
  ext1
  · exact cells
  · exact Function.eq_update_iff.mpr ⟨self, others⟩
  · exact completed

theorem act_within_other {other : Party} (distinct : other ≠ party) :
    (state.act party cell action rest).within other = state.within other := by
  cases rest <;> exact Function.update_of_ne distinct _ _

/-- A party within its section after an action has that section before it. -/
theorem act_within_self {later : Cell} {left : List (CellAction Value)}
    (here :
      (state.act party cell action rest).within party = some (later, left)) :
    later = cell ∧ left = rest ∧ rest ≠ [] := by
  cases rest with
  | nil =>
      simp only [SectionState.act, Function.update_self] at here
      cases here
  | cons next rest =>
      simp only [SectionState.act, Function.update_self] at here
      cases here
      exact ⟨rfl, rfl, List.cons_ne_nil _ _⟩

theorem mem_act_completed {later : Cell} :
    later ∈ (state.act party cell action rest).completed ↔
      (later = cell ∧ rest = []) ∨ later ∈ state.completed := by
  cases rest <;> simp [SectionState.act]

theorem perform_other {other : Cell} (distinct : other ≠ cell)
    (cells : Cell → Value) : action.perform cell cells other = cells other := by
  rw [CellAction.perform]
  cases action.writes with
  | none => rfl
  | some value => exact Function.update_of_ne distinct _ _

theorem perform_of_writes {value : Value} (writes : action.writes = some value)
    (cells : Cell → Value) : action.perform cell cells cell = value := by
  rw [CellAction.perform, writes]
  exact Function.update_self _ _ _

theorem perform_of_writes_none (writes : action.writes = none)
    (cells : Cell → Value) : action.perform cell cells = cells := by
  rw [CellAction.perform, writes]

end Acting

section Steps

variable {op : List (CellAction Value)} {initial : Cell → Value}
  {state : SectionState Party Cell Value} {party : Party} {cell : Cell}
  {action : CellAction Value} {rest : List (CellAction Value)}

theorem not_untouched_act :
    ¬ (state.act party cell action rest).Untouched cell := by
  rintro ⟨notCompleted, nowhere⟩
  cases rest with
  | nil => exact notCompleted (mem_act_completed.mpr (Or.inl ⟨rfl, rfl⟩))
  | cons next rest =>
      exact nowhere party (next :: rest) (Function.update_self _ _ _)

theorem untouched_act_other
    (about : state.AboutTo op party cell (action :: rest)) {other : Cell}
    (distinct : other ≠ cell) :
    (state.act party cell action rest).Untouched other ↔
      state.Untouched other := by
  have completed :
      other ∈ (state.act party cell action rest).completed ↔
        other ∈ state.completed := by
    simp [mem_act_completed, distinct]
  have within : ∀ someone left,
      (state.act party cell action rest).within someone = some (other, left) ↔
        state.within someone = some (other, left) := by
    intro someone left
    by_cases same : someone = party
    · subst same
      constructor
      · intro here
        exact absurd (act_within_self here).1 distinct
      · intro here
        rcases about with there | ⟨outside, -⟩
        · rw [there] at here
          cases here
          exact absurd rfl distinct
        · rw [outside] at here
          cases here
    · rw [act_within_other same]
  rw [SectionState.Untouched, SectionState.Untouched, completed]
  simp only [ne_eq, within]

theorem midway_act_other {other : Cell} {value : Value}
    (midway : state.Midway other value)
    (elsewhere : ∀ left, state.within party = some (other, left) →
      lastWrite left ≠ some value) :
    (state.act party cell action rest).Midway other value := by
  obtain ⟨someone, left, here, writes⟩ := midway
  have distinct : someone ≠ party := by
    intro same
    subst same
    exact elsewhere left here writes
  exact ⟨someone, left, by rw [act_within_other distinct, here], writes⟩

/-- The cell of the action is settled again: the section goes on to its last
write, or has just done it, or has done it before. -/
theorem SectionInvariant.settled_act
    (invariant : SectionInvariant op initial state)
    (about : state.AboutTo op party cell (action :: rest))
    {value : Value} (last : lastWrite op = some value) :
    (state.act party cell action rest).cells cell = value ∨
      (state.act party cell action rest).Midway cell value := by
  obtain ⟨done, split, -⟩ := invariant.split about
  have ofSuffix : ∀ before left found, op = before ++ left →
      lastWrite left = some found → found = value := by
    intro before left found here writes
    rw [here, lastWrite_append, writes, Option.some_or] at last
    exact Option.some.inj last
  cases left : lastWrite rest with
  | some found =>
      have found_eq : found = value := by
        apply ofSuffix (done ++ [action]) rest found _ left
        rw [split, List.append_assoc]
        rfl
      refine Or.inr ⟨party, rest, ?_, by rw [left, found_eq]⟩
      cases rest with
      | nil => cases left
      | cons next rest => exact Function.update_self _ _ _
  | none =>
      have step : lastWrite (action :: rest) = action.writes := by
        rw [← List.singleton_append, lastWrite_append, left, Option.none_or,
          lastWrite_singleton]
      cases writes : action.writes with
      | some written =>
          rw [writes] at step
          left
          rw [act_cells, perform_of_writes writes,
            ofSuffix done (action :: rest) written split step]
      | none =>
          rw [writes] at step
          have inside : state.within party = some (cell, action :: rest) := by
            rcases about with inside | ⟨-, start⟩
            · exact inside
            · rw [← start, step] at last
              cases last
          rcases invariant.settled value last cell with
            here | midway | ⟨-, nowhere⟩
          · left
            rw [act_cells, perform_of_writes_none writes, here]
          · right
            apply midway_act_other midway
            intro actions there
            rw [inside] at there
            cases there
            rw [step]
            exact (Option.some_ne_none value).symm
          · exact absurd inside (nowhere party _)

theorem SectionInvariant.act
    (invariant : SectionInvariant op initial state)
    (about : state.AboutTo op party cell (action :: rest))
    (needed : action.needs (state.cells cell)) :
    SectionInvariant op initial (state.act party cell action rest) where
  within := by
    intro someone later left here
    by_cases same : someone = party
    · subst same
      obtain ⟨cellEq, leftEq, -⟩ := act_within_self here
      subst cellEq
      subst leftEq
      exact invariant.act_split about needed
    · rw [act_within_other same] at here
      exact invariant.within someone later left here
  completed := by
    intro later member
    rcases mem_act_completed.mp member with ⟨same, finished⟩ | before
    · subst same
      subst finished
      obtain ⟨done, split, past⟩ := invariant.act_split about needed
      intro earlier inOp
      rw [split, List.append_nil] at inOp
      exact past earlier inOp
    · exact invariant.completed later before
  changed := by
    intro later differs
    rw [act_cells] at differs
    by_cases same : later = cell
    · subst same
      refine ⟨?_, not_untouched_act⟩
      cases writes : action.writes with
      | some value =>
          obtain ⟨done, split, -⟩ := invariant.split about
          refine ⟨action, by rw [split]; simp, ?_⟩
          rw [act_cells, perform_of_writes writes, writes]
      | none =>
          rw [perform_of_writes_none writes] at differs
          rw [act_cells, perform_of_writes_none writes]
          exact (invariant.changed later differs).1
    · rw [perform_other same] at differs
      rw [act_cells, perform_other same, untouched_act_other about same]
      exact invariant.changed later differs
  settled := by
    intro value last later
    by_cases same : later = cell
    · subst same
      rcases invariant.settled_act about last with here | midway
      · exact Or.inl here
      · exact Or.inr (Or.inl midway)
    · rw [act_cells, perform_other same, untouched_act_other about same]
      rcases invariant.settled value last later with here | midway | untouched
      · exact Or.inl here
      · right
        left
        apply midway_act_other midway
        intro left there
        rcases about with inside | ⟨outside, -⟩
        · rw [inside] at there
          cases there
          exact absurd rfl same
        · rw [outside] at there
          cases there
      · exact Or.inr (Or.inr untouched)

end Steps

theorem sectionsReach_invariant
    {op : List (CellAction Value)} {initial : Cell → Value}
    {state : SectionState Party Cell Value}
    (reach : SectionsReach op initial state) :
    SectionInvariant op initial state := by
  induction reach with
  | refl => exact initial_sectionInvariant
  | tail _ moves inductionHypothesis =>
      cases moves with
      | act about needed => exact inductionHypothesis.act about needed

end Sections

end KernelStuff.Library
