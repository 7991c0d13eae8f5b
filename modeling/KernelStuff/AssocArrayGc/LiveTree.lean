import KernelStuff.AssocArrayGc.Call
import KernelStuff.AssocArrayGc.Steps

/-!
# The live tree

The collector works on copies.  Whatever state a call is in, all it has stored
to or freed are objects it has allocated itself, so a reader of the old tree
finds every object as it was.
-/

namespace KernelStuff.AssocArrayGc

open KernelStuff.Library

/-- An empty array, or one whose root leads to a tree. -/
def ValidArray (heap : Heap Object) (array : AssocArray) : Prop :=
  array.root = .null ∨ ∃ old, WellFormed heap array old

/-- Everything written since `before` has been allocated since, and the cells
from before are as they were. -/
structure Untouched (before after : Heap Object) : Prop where
  written : ∀ x ∈ after.written, before.next ≤ x ∧ x < after.next
  cells_eq : ∀ x, x < before.next → after.cells x = before.cells x

section LiveTree

variable {σ : Type} {iterator : Leaf → σ → Bool × σ} {fails : Nat → Bool}
  {heap : Heap Object} {array : AssocArray} {data : σ}

/-- A call on an empty array returns at once. -/
theorem gc_of_empty (variant : Variant) (isEmpty : array.root = .null) :
    GcExits variant iterator fails heap array data
      (.returned 0 (gcCall heap array data)) := by
  refine ⟨_, Reaches.refl _, ?_⟩
  change (if array.root = .null then _ else if fails heap.next then _ else _) = _
  rw [if_pos isEmpty]

/-- How a call can end, and where it has written until then. -/
def SparesOld (heap : Heap Object) (array : AssocArray) : Exit σ → Prop
  | .returned value final =>
      (∀ x ∈ final.heap.written, heap.next ≤ x) ∧
        (value = -ENOMEM → final.array = array)
  | .bug _ after => ∀ x ∈ after.written, heap.next ≤ x
  | .fault => False

theorem gc_exits_spares
    (variant : Variant) (iterator : Leaf → σ → Bool × σ) (fails : Nat → Bool)
    (data : σ) (valid : ValidArray heap array) :
    ∃ exit,
      GcExits variant iterator fails heap array data exit ∧
        SparesOld heap array exit := by
  rcases valid with isEmpty | ⟨old, wellFormed⟩
  · exact
      ⟨_, gc_of_empty variant isEmpty, fun _ member => by simp [gcCall] at member,
        fun _ => rfl⟩
  cases refused : fails heap.next with
  | true =>
      exact
        ⟨_, gc_refused variant iterator fails wellFormed data refused,
          fun _ member => by simp [gcCall] at member, fun _ => rfl⟩
  | false =>
      have refines :=
        gc_refines variant iterator fails wellFormed data refused
      cases outcome :
          collect variant iterator fails old (callLedger heap data) with
      | done t after =>
          rw [outcome] at refines
          obtain ⟨last, final, run, _, stops, built, _⟩ := refines
          refine ⟨_, ⟨last, run, stops⟩, built.written, fun impossible => ?_⟩
          cases impossible
      | enomem t after =>
          rw [outcome] at refines
          obtain ⟨final, exits, built, arrayEq, _⟩ := refines
          exact ⟨_, exits, built.written, fun _ => arrayEq⟩
      | bug =>
          rw [outcome] at refines
          obtain ⟨check, after, exits, _, written⟩ := refines
          exact ⟨_, exits, written⟩

theorem untouched_of_records
    {after : Heap Object}
    (records : (gcCall heap array data).heap.Records after)
    (written : ∀ x ∈ after.written, heap.next ≤ x) :
    Untouched heap after where
  written := by
    intro x member
    refine ⟨written x member, ?_⟩
    obtain ⟨targets, writtenEq, allocated, _⟩ := records.written_eq
    rw [writtenEq] at member
    exact allocated x member
  cells_eq := by
    intro x below
    apply records.cells_eq rfl below
    intro member
    have young := written x member
    omega

/-- The exits of a call that leaves the objects from before it alone. A call
that gives up leaves the array too; a fault is not one of them. -/
def LeavesLiveTree (heap : Heap Object) (array : AssocArray) : Exit σ → Prop
  | .returned value final =>
      Untouched heap final.heap ∧ (value = -ENOMEM → final.array = array)
  | .bug _ after => Untouched heap after
  | .fault => False

/-- In every state of a call, and at its exit, everything stored to or freed is
an object of this call, and the objects from before are as they were. The array
is as it was until the new tree is published, and if memory runs out for
good. -/
theorem gc_spares_live_tree
    (iterator : Leaf → σ → Bool × σ) (fails : Nat → Bool) (data : σ)
    (valid : ValidArray heap array) :
    (∀ s, Reaches (gcStep .patched iterator fails) (gcCall heap array data) s →
      Untouched heap s.heap ∧ s.array = array) ∧
    ∀ exit, GcExits .patched iterator fails heap array data exit →
      LeavesLiveTree heap array exit := by
  obtain ⟨exit, exits, spares⟩ :=
    gc_exits_spares .patched iterator fails data valid
  have edited := gcCall_editAllocated heap array data
  constructor
  · intro s run
    have continues := reaches_continues edited run
    refine ⟨untouched_of_records continues.records ?_, continues.array_eq⟩
    obtain ⟨last, onward, stops⟩ := gcExits_stopsFrom run exits
    have early : s.heap.written <+: last.heap.written :=
      onward.records.written_startsWith
    intro x member
    cases exit with
    | returned value final =>
        exact spares.1 x
          ((early.trans stops.1.written_startsWith).subset member)
    | bug check after =>
        exact spares x ((early.trans stops.written_startsWith).subset member)
    | fault => exact False.elim spares
  · intro other otherExits
    cases Halts.unique exits otherExits
    obtain ⟨last, onward, stops⟩ :=
      gcExits_stopsFrom (Reaches.refl _) exits
    cases exit with
    | returned value final =>
        exact
          ⟨untouched_of_records (onward.records.trans stops.1) spares.1,
            spares.2⟩
    | bug check after =>
        exact untouched_of_records (onward.records.trans stops) spares
    | fault => exact spares

/-- When memory runs out in the middle of the new tree, the array and its objects
are as they were. -/
theorem gc_spares_live_tree_retry :
    ∃ final,
      GcExits .patched rejectTwo (fun address => address == 12) retryHeap
          retryArray 0 (.returned (-ENOMEM) final) ∧
        Untouched retryHeap final.heap ∧ final.array = retryArray := by
  obtain ⟨final, exits⟩ := retryArray_gives_up
  have valid : ValidArray retryHeap retryArray :=
    Or.inr ⟨retryTree, retryArray_wellFormed⟩
  obtain ⟨untouched, kept⟩ :=
    (gc_spares_live_tree rejectTwo _ 0 valid).2 _ exits
  exact ⟨final, exits, untouched, kept rfl⟩

end LiveTree

end KernelStuff.AssocArrayGc
