import KernelStuff.AssocArrayGc.Call

/-!
# Leaves and counters

The iterator is called on the leaves of the old tree in depth-first slot order,
and the leaves of the new tree are the ones it accepts.
-/

namespace KernelStuff.AssocArrayGc

open KernelStuff.Library

/-- The leaf an iterator call was made on. -/
def Event.object? : Event → Option Leaf
  | .iterated object => some object
  | .retried _ => none
  | .excisedShortcut _ => none

/-- The leaves the iterator was called on, in order. -/
def iteratorCalls (trace : List Event) : List Leaf :=
  trace.filterMap Event.object?

/-- The leaves of a list that the iterator accepts when it is called on them one
after the other, and the state it ends in. -/
def accepted {σ : Type} (iterator : Leaf → σ → Bool × σ) :
    List Leaf → σ → List Leaf × σ
  | [], data => ([], data)
  | object :: rest, data =>
      let rest := accepted iterator rest (iterator object data).2
      (if (iterator object data).1 then object :: rest.1 else rest.1, rest.2)

section Bookkeeping

variable {σ : Type} {variant : Variant} {iterator : Leaf → σ → Bool × σ}
  {fails : Nat → Bool}

theorem iteratorCalls_append (first second : List Event) :
    iteratorCalls (first ++ second) =
      iteratorCalls first ++ iteratorCalls second :=
  List.filterMap_append

theorem accepted_append :
    ∀ (first second : List Leaf) (data : σ),
      accepted iterator (first ++ second) data =
        ((accepted iterator first data).1 ++
            (accepted iterator second (accepted iterator first data).2).1,
          (accepted iterator second (accepted iterator first data).2).2)
  | [], second, data => rfl
  | object :: rest, second, data => by
      rw [List.cons_append, accepted, accepted,
        accepted_append rest second (iterator object data).2]
      simp only
      cases (iterator object data).1 <;> rfl

theorem mem_of_mem_accepted {object : Leaf} :
    ∀ {objects : List Leaf} {data : σ},
      object ∈ (accepted iterator objects data).1 → object ∈ objects
  | head :: rest, data, member => by
      rw [accepted] at member
      simp only at member
      split at member
      · rcases List.mem_cons.mp member with same | late
        · rw [same]
          exact List.mem_cons_self
        · exact List.mem_cons_of_mem head (mem_of_mem_accepted late)
      · exact List.mem_cons_of_mem head (mem_of_mem_accepted member)

/-- Filtering the parts of a list one after the other. -/
theorem accepted_flatMap {states : Nat → σ} :
    ∀ {n : Nat} {parts kept : Fin n → List Leaf},
      (∀ i : Fin n,
        accepted iterator (parts i) (states i.val) =
          (kept i, states (i.val + 1))) →
        accepted iterator ((List.finRange n).flatMap parts) (states 0) =
          ((List.finRange n).flatMap kept, states n)
  | 0, parts, kept, _ => by
      simp only [List.finRange_zero, List.flatMap_nil]
      rfl
  | n + 1, parts, kept, steps => by
      have earlier := accepted_flatMap (n := n) fun i => steps i.castSucc
      have last := steps (Fin.last n)
      rw [Fin.val_last] at last
      rw [List.finRange_succ_last, List.flatMap_append, List.flatMap_append,
        List.flatMap_map, List.flatMap_map, List.flatMap_singleton,
        List.flatMap_singleton, accepted_append, earlier]
      simp only [last]

/-- The survivors of a tree are the leaves the iterator accepts in depth-first
slot order. -/
theorem survivors_leaves (iterator : Leaf → σ → Bool × σ) :
    ∀ (old : Tree) (data : σ),
      accepted iterator old.leaves data =
        ((survivors iterator old data).1.leaves,
          (survivors iterator old data).2)
  | .empty, data => rfl
  | .leaf object, data => by
      rw [Tree.leaves, accepted, survivors]
      simp only [accepted]
      cases (iterator object data).1 <;> rfl
  | .node lead address nr slots, data => by
      obtain ⟨states, first, last, steps⟩ :=
        survivorSlots_spec iterator slots data
      rw [survivors_node, Tree.leaves, Tree.leaves]
      simp only
      rw [← last]
      nth_rewrite 1 [← first]
      apply accepted_flatMap
      intro i
      have step := steps i
      rw [survivors_leaves iterator (slots i) (states i.val), step]
  | .dangling lead next, data => rfl

/-- A collected subtree holds no leaf the old one did not hold. -/
theorem collect_leaves_subset
    {old t : Tree} {ledger after : Ledger σ} {object : Leaf}
    (run : collect variant iterator fails old ledger = .done t after)
    (member : object ∈ t.leaves) :
    object ∈ old.leaves := by
  have survives : object ∈ (↑t.leaves : Multiset Leaf) := member
  rw [(collect_leaves run).1] at survives
  have filtered := survivors_leaves iterator old ledger.iteratorData
  have kept :
      object ∈ (accepted iterator old.leaves ledger.iteratorData).1 := by
    rw [filtered]
    exact survives
  exact mem_of_mem_accepted kept

theorem exciseTree_iteratorCalls
    (lead : Option Lead) (address : Nat) (p : Pass) :
    iteratorCalls (exciseTree lead address p).2 = [] := by
  rw [exciseTree]
  split
  · rfl
  · split
    · cases lead <;> rfl
    · rfl

theorem finish_iteratorCalls
    {lead : Option Lead} {address : Nat}
    {slots : Fin assocArrayFanOut → Tree} {t : Tree} {events : List Event}
    (run : finish variant lead address slots = some (t, events)) :
    iteratorCalls events = [] := by
  obtain ⟨⟨p, retries⟩, compressed, result⟩ := Option.map_eq_some_iff.mp run
  have eventsEq : retries ++ (exciseTree lead address p).2 = events :=
    congrArg Prod.snd result
  rw [← eventsEq, iteratorCalls_append, exciseTree_iteratorCalls,
    List.append_nil]
  rcases compress_cases compressed with
    ⟨_, _, none⟩ | ⟨_, _, _, _, once⟩
  · rw [none]
    rfl
  · rw [once]
    rfl

/-- Collecting a tree calls the iterator once on each of its leaves, in
depth-first slot order. -/
theorem collect_iteratorCalls :
    ∀ {old t : Tree} {ledger after : Ledger σ},
      collect variant iterator fails old ledger = .done t after →
        iteratorCalls after.trace =
          iteratorCalls ledger.trace ++ old.leaves
  | .empty, t, ledger, after, run => by
      cases run
      exact (List.append_nil _).symm
  | .leaf object, t, ledger, after, run => by
      rw [collect, Outcome.done.injEq] at run
      rw [← run.2]
      exact iteratorCalls_append _ _
  | .node lead address nr slots, t, ledger, after, run => by
      obtain ⟨filtered, ledgers, events, _, _, first, steps, finished, last⟩ :=
        collect_node_done run
      have calls :=
        append_of_steps (fun k => iteratorCalls (ledgers k).trace)
          (fun i => (slots i).leaves) fun i => collect_iteratorCalls (steps i)
      rw [last, iteratorCalls_append, finish_iteratorCalls finished,
        List.append_nil]
      rw [first] at calls
      exact calls
  | .dangling lead next, t, ledger, after, run => by
      cases run

/-- A finished call has shown every leaf of the old tree to the iterator once,
in depth-first slot order, and published a well-formed tree that holds the
accepted leaves and counts them right. -/
theorem gc_bookkeeping
    {heap : Heap Object} {array : AssocArray} {old : Tree} {data : σ}
    {last : Gc σ}
    (wellFormed : WellFormed heap array old)
    (run : Reaches (gcStep .patched iterator fails) (gcCall heap array data)
      last)
    (complete : last.label = .gcComplete) :
    ∃ final new,
      GcExits .patched iterator fails heap array data (.returned 0 final) ∧
        iteratorCalls final.trace = old.leaves ∧
        final.iteratorData = (accepted iterator old.leaves data).2 ∧
        WellFormed final.heap final.array new ∧ new.Separated ∧
        (↑new.leaves : Multiset Leaf) =
          ↑(accepted iterator old.leaves data).1 ∧
        final.array.nrLeavesOnTree =
          (accepted iterator old.leaves data).1.length ∧
        new.Counted := by
  obtain ⟨final, exits⟩ :=
    gc_complete_returns .patched iterator fails wellFormed run complete
  obtain ⟨t, after, collected, built, arrayEq, dataEq, traceEq⟩ :=
    gc_returned_zero .patched iterator fails wellFormed exits
  have shape := collect_collected collected
  have isNode : t.isMeta = true := by
    rw [collect_isMeta collected]
    exact wellFormed.root_meta
  obtain ⟨leaves, lastData⟩ := collect_leaves collected
  have filtered := survivors_leaves iterator old data
  change (↑t.leaves : Multiset Leaf) =
    ↑(survivors iterator old data).1.leaves at leaves
  change after.iteratorData = (survivors iterator old data).2 at lastData
  refine
    ⟨final, t, exits, ?_, ?_, built.wellFormed arrayEq isNode shape.whole,
      built.separated, ?_, ?_, shape.counted⟩
  · rw [traceEq, collect_iteratorCalls collected]
    rfl
  · rw [dataEq, lastData, filtered]
  · rw [leaves, filtered]
  · have size := congrArg Multiset.card leaves
    rw [Multiset.coe_card, Multiset.coe_card] at size
    rw [arrayEq, filtered]
    exact size

end Bookkeeping

/-- Of twenty-one leaves below a shortcut and several nodes, shown to the iterator
in slot order, nineteen stay. -/
theorem gc_bookkeeping_retry :
    ∃ final new,
      GcExits .patched rejectTwo (fun _ => false) retryHeap retryArray 0
          (.returned 0 final) ∧
        iteratorCalls final.trace =
          (List.finRange 21).map (fun n => exampleLeaf (n.castLE (by decide))) ∧
        final.iteratorData = 21 ∧
        WellFormed final.heap final.array new ∧ new.Separated ∧
        (↑new.leaves : Multiset Leaf) =
          ↑(([0, 1, 2, 3, 4, 5, 6, 7, 8, 9, 10, 11, 12, 13, 14, 17, 18, 19,
            20] : List (Fin 32)).map exampleLeaf) ∧
        final.array.nrLeavesOnTree = 19 ∧ new.Counted := by
  obtain ⟨_, _, last, _, _, run, complete, _⟩ :=
    retryArray_returns .patched (fun _ _ => true) (by decide +kernel)
  obtain ⟨final, new, exits, calls, dataEq, wellFormed, separated, leaves,
    number, counted⟩ := gc_bookkeeping retryArray_wellFormed run complete
  have shown :
      retryTree.leaves =
        (List.finRange 21).map
          (fun n => exampleLeaf (n.castLE (by decide))) := by
    decide +kernel
  have kept :
      accepted rejectTwo retryTree.leaves 0 =
        (([0, 1, 2, 3, 4, 5, 6, 7, 8, 9, 10, 11, 12, 13, 14, 17, 18, 19,
            20] : List (Fin 32)).map exampleLeaf, 21) := by
    decide +kernel
  rw [kept] at dataEq leaves number
  exact
    ⟨final, new, exits, calls.trans shown, dataEq, wellFormed, separated,
      leaves, number, counted⟩

end KernelStuff.AssocArrayGc
