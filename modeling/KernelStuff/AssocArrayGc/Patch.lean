import KernelStuff.AssocArrayGc.Bookkeeping
import KernelStuff.AssocArrayGc.Stopping

/-!
# What the patch changes

The two collectors run side by side.  As long as the unpatched one goes on, the
patched one takes the same decisions, since they depend on leaf counts and on
the kind of pointer in a slot only, and flattening a node changes neither for
the node above.
-/

namespace KernelStuff.AssocArrayGc

open KernelStuff.Library

/-- The second tree is the first one with some nodes that have fewer leaves than
slots and hold sub-nodes replaced by nodes that hold the same leaves directly. -/
inductive Flattens : Tree → Tree → Prop
  | empty : Flattens .empty .empty
  | leaf (object : Leaf) : Flattens (.leaf object) (.leaf object)
  | node (lead : Option Lead) (address nr : Nat)
      {slots flat : Fin assocArrayFanOut → Tree}
      (below : ∀ i, Flattens (slots i) (flat i)) :
      Flattens (.node lead address nr slots) (.node lead address nr flat)
  | replaced (lead : Option Lead) (address nr : Nat)
      {slots flat : Fin assocArrayFanOut → Tree}
      (few : nr < assocArrayFanOut)
      (holdsNode : ∃ i, (slots i).isMeta = true)
      (plain : Plain flat)
      (bag_eq : bag flat = bag slots) :
      Flattens (.node lead address nr slots) (.node lead address nr flat)

namespace Flattens

theorem ptr_eq {t flat : Tree} (flattens : Flattens t flat) :
    flat.ptr = t.ptr := by
  cases flattens with
  | empty => rfl
  | leaf object => rfl
  | node lead address nr below => cases lead <;> rfl
  | replaced lead address nr few holdsNode plain bag_eq => cases lead <;> rfl

theorem isMeta_eq {t flat : Tree} (flattens : Flattens t flat) :
    flat.isMeta = t.isMeta := by
  rw [Tree.isMeta, Tree.isMeta, flattens.ptr_eq]

/-- No leaf is lost, invented or duplicated. -/
theorem leaves_eq {t flat : Tree} (flattens : Flattens t flat) :
    (↑flat.leaves : Multiset Leaf) = ↑t.leaves := by
  induction flattens with
  | empty => rfl
  | leaf object => rfl
  | node lead address nr below inductionHypothesis =>
      rw [Tree.leaves_node_eq_bag, Tree.leaves_node_eq_bag]
      exact Finset.sum_congr rfl fun i _ => inductionHypothesis i
  | replaced lead address nr few holdsNode plain bag_eq =>
      rw [Tree.leaves_node_eq_bag, Tree.leaves_node_eq_bag, bag_eq]

theorem eq_of_plain {t flat : Tree}
    (flattens : Flattens t flat) (plain : t.isMeta = false) : flat = t := by
  cases flattens with
  | empty => rfl
  | leaf object => rfl
  | node lead address nr below =>
      rw [Tree.isMeta_node] at plain
      cases plain
  | replaced lead address nr few holdsNode flatPlain bag_eq =>
      rw [Tree.isMeta_node] at plain
      cases plain

/-- A node of leaves only has not been flattened. -/
theorem slots_eq_of_plain
    {lead : Option Lead} {address nr : Nat}
    {slots : Fin assocArrayFanOut → Tree} {flat : Tree}
    (flattens : Flattens (.node lead address nr slots) flat)
    (plain : Plain slots) :
    flat = .node lead address nr slots := by
  cases flattens with
  | @node _ _ _ _ children below =>
      have same : children = slots := by
        funext i
        exact (below i).eq_of_plain (plain i)
      rw [same]
  | replaced _ _ _ few holdsNode flatPlain bag_eq =>
      obtain ⟨i, isNode⟩ := holdsNode
      rw [plain i] at isNode
      cases isNode

/-- The node below keeps its shortcut, its address and its leaf count. -/
theorem exists_node
    {lead : Option Lead} {address nr : Nat}
    {slots : Fin assocArrayFanOut → Tree} {flat : Tree}
    (flattens : Flattens (.node lead address nr slots) flat) :
    ∃ children, flat = .node lead address nr children := by
  cases flattens with
  | node _ _ _ below => exact ⟨_, rfl⟩
  | replaced _ _ _ few holdsNode plain bag_eq => exact ⟨_, rfl⟩

end Flattens

/-! ## One pass -/

/-- The two passes have taken the same decisions so far. -/
structure PassFlattens (p flat : Pass) : Prop where
  slots : ∀ i, Flattens (p.slots i) (flat.slots i)
  nr_eq : flat.nr = p.nr
  nrFree_eq : flat.nrFree = p.nrFree
  nextSlot_eq : flat.nextSlot = p.nextSlot
  retained_eq : flat.retained = p.retained

theorem PassFlattens.ptr_eq {p flat : Pass}
    (alike : PassFlattens p flat) :
    (fun i => (flat.slots i).ptr) = fun i => (p.slots i).ptr :=
  funext fun i => (alike.slots i).ptr_eq

theorem flattens_update
    {slots flat : Fin assocArrayFanOut → Tree} {t flatTree : Tree}
    (alike : ∀ i, Flattens (slots i) (flat i))
    (here : Flattens t flatTree) (slot : Fin assocArrayFanOut) :
    ∀ i, Flattens (Function.update slots slot t i)
      (Function.update flat slot flatTree i) := by
  intro i
  by_cases same : i = slot
  · subst same
    rw [Function.update_self, Function.update_self]
    exact here
  · rw [Function.update_of_ne same, Function.update_of_ne same]
    exact alike i

theorem PassFlattens.start
    {slots flat : Fin assocArrayFanOut → Tree}
    (alike : ∀ i, Flattens (slots i) (flat i)) :
    PassFlattens (Pass.start slots) (Pass.start flat) where
  slots := alike
  nr_eq := by simp only [Pass.start, (alike _).ptr_eq]
  nrFree_eq := by simp only [Pass.start, (alike _).ptr_eq]
  nextSlot_eq := rfl
  retained_eq := rfl

theorem PassFlattens.moveLeaf
    {p flat q : Pass} {t : Tree}
    (alike : PassFlattens p flat) (moved : p.moveLeaf t = some q) :
    ∃ flatNext, flat.moveLeaf t = some flatNext ∧ PassFlattens q flatNext := by
  cases t with
  | empty =>
      cases moved
      exact ⟨flat, rfl, alike⟩
  | node lead address nr slots => cases moved
  | dangling lead next => cases moved
  | leaf object =>
      rw [Pass.moveLeaf] at moved
      obtain ⟨free, found, filled⟩ := Option.map_eq_some_iff.mp moved
      rw [← filled]
      refine ⟨flat.fill object free, ?_, ?_⟩
      · rw [Pass.moveLeaf, alike.ptr_eq, alike.nextSlot_eq, found]
        rfl
      · constructor
        · exact flattens_update alike.slots (.leaf object) free
        · exact alike.nr_eq
        · exact congrArg (· - 1) alike.nrFree_eq
        · rfl
        · exact alike.retained_eq

/-- Both loops retain the child, or both fold it. -/
theorem PassFlattens.foldSlot
    {p flat q : Pass} {slot : Fin assocArrayFanOut}
    (alike : PassFlattens p flat) (step : p.foldSlot slot = some q) :
    ∃ flatNext,
      flat.foldSlot slot = some flatNext ∧ PassFlattens q flatNext := by
  have here := alike.slots slot
  rcases content : p.slots slot with
    _ | object | ⟨lead, address, nr, children⟩ | ⟨lead, next⟩
  · rw [content] at here
    rw [Pass.foldSlot, content] at step
    cases step
    exact ⟨flat, by rw [Pass.foldSlot, here.eq_of_plain rfl], alike⟩
  · rw [content] at here
    rw [Pass.foldSlot, content] at step
    cases step
    exact ⟨flat, by rw [Pass.foldSlot, here.eq_of_plain rfl], alike⟩
  · rw [content] at here
    by_cases fits : nr ≤ p.nrFree + 1
    · rw [Pass.foldSlot, content] at step
      simp only [if_pos fits] at step
      cases lead with
      | some front => cases step
      | none =>
          simp only [Option.isSome_none, Bool.false_eq_true, if_false] at step
          -- The leaves could be moved, so the child holds nothing else.
          have plain : Plain children := by
            intro i
            apply Bool.eq_false_iff.mpr
            intro isNode
            rw [Pass.moveLeaves_eq_none isNode _ _ (List.mem_finRange i)]
              at step
            cases step
          have opened :
              PassFlattens ({ p with nr := p.nr + nr }.openSlot slot)
                ({ flat with nr := flat.nr + nr }.openSlot slot) := by
            constructor
            · exact flattens_update alike.slots .empty slot
            · exact congrArg (· + nr) alike.nr_eq
            · exact congrArg (· + 1) alike.nrFree_eq
            · simp only [Pass.openSlot, alike.nextSlot_eq]
            · exact alike.retained_eq
          obtain ⟨flatNext, moved, alikeNext⟩ :=
            foldlM_follows
              (fun source other i next related moved =>
                related.moveLeaf moved) _ opened step
          refine ⟨flatNext, ?_, alikeNext⟩
          have flatFits : nr ≤ flat.nrFree + 1 := by
            rw [alike.nrFree_eq]
            exact fits
          rw [Pass.foldSlot, here.slots_eq_of_plain plain]
          simp only [if_pos flatFits, Option.isSome_none, Bool.false_eq_true,
            if_false]
          exact moved
    · obtain ⟨flatChildren, flatHere⟩ := here.exists_node
      have flatLarge : flat.nrFree + 1 < nr := by
        rw [alike.nrFree_eq]
        omega
      rw [Pass.foldSlot_retain content (by omega)] at step
      cases step
      refine ⟨_, Pass.foldSlot_retain flatHere flatLarge, ?_⟩
      exact
        ⟨alike.slots, congrArg (· + nr) alike.nr_eq, alike.nrFree_eq,
          alike.nextSlot_eq, rfl⟩
  · rw [content] at here
    cases here

theorem compressPass_flattens
    {slots flat : Fin assocArrayFanOut → Tree} {p : Pass}
    (alike : ∀ i, Flattens (slots i) (flat i))
    (run : compressPass slots = some p) :
    ∃ q, compressPass flat = some q ∧ PassFlattens p q :=
  foldlM_follows
    (fun _ _ _ _ related step => related.foldSlot step) _
    (PassFlattens.start alike) run

theorem PassFlattens.soleShortcut
    {p flat : Pass} (alike : PassFlattens p flat) :
    (p.soleShortcut = none ∧ flat.soleShortcut = none) ∨
      ∃ i, p.soleShortcut = some (p.slots i) ∧
        flat.soleShortcut = some (flat.slots i) := by
  simp only [Pass.soleShortcut, alike.nrFree_eq, (alike.slots _).ptr_eq]
  split
  · cases found :
        (List.finRange assocArrayFanOut).find? fun index =>
          decide ((p.slots index).ptr ≠ .null) with
    | none => exact Or.inl ⟨rfl, rfl⟩
    | some i =>
        simp only [Option.bind_some]
        split
        · exact Or.inr ⟨i, rfl, rfl⟩
        · exact Or.inl ⟨rfl, rfl⟩
  · exact Or.inl ⟨rfl, rfl⟩

/-- Without a second pass the same parts of the node are excised. -/
theorem PassFlattens.exciseTree
    {p flat : Pass} (alike : PassFlattens p flat) (lead : Option Lead)
    (address : Nat) :
    Flattens (exciseTree lead address p).1
      (AssocArrayGc.exciseTree lead address flat).1 := by
  rcases alike.soleShortcut with ⟨sole, flatSole⟩ | ⟨i, sole, flatSole⟩
  · simp only [AssocArrayGc.exciseTree, sole, flatSole, alike.nr_eq]
    split
    · exact .node none address p.nr alike.slots
    · exact .node lead address p.nr alike.slots
  · simp only [AssocArrayGc.exciseTree, sole, flatSole]
    exact alike.slots i

/-- If the unpatched collector gets past a node, so does the patched one, and
what differs afterwards is a flattened node. -/
theorem finish_flattens
    {lead : Option Lead} {address : Nat}
    {slots flat : Fin assocArrayFanOut → Tree} {t : Tree} {events : List Event}
    (alike : ∀ i, Flattens (slots i) (flat i))
    (collected : ∀ i, (slots i).Collected)
    (flatCollected : ∀ i, (flat i).Collected)
    (settled : ∀ i, (flat i).Settled)
    (run : finish .unpatched lead address slots = some (t, events)) :
    ∃ flatTree flatEvents,
      finish .patched lead address flat = some (flatTree, flatEvents) ∧
        Flattens t flatTree := by
  obtain ⟨⟨p, retries⟩, compressed, result⟩ := Option.map_eq_some_iff.mp run
  have shape : (exciseTree lead address p).1 = t := congrArg Prod.fst result
  have once : compressPass slots = some p := by
    rcases compress_cases compressed with
      ⟨once, _, _⟩ | ⟨first, _, again, _, _⟩
    · exact once
    · cases again
  obtain ⟨q, flatOnce, passes⟩ := compressPass_flattens alike once
  have counted := fun i => (flatCollected i).counted
  have whole := fun i => (flatCollected i).whole
  have done :=
    Compressed.of_pass (fun i => (collected i).counted)
      (fun i => (collected i).whole) once
  have flatDone := Compressed.of_pass counted whole flatOnce
  cases again : Variant.patched.retries q.retained q.nr with
  | false =>
      have ends : compress .patched address flat = some (q, []) := by
        rw [compress, flatOnce, Option.bind_some, again]
        rfl
      refine
        ⟨(exciseTree lead address q).1, [] ++ (exciseTree lead address q).2,
          ?_, ?_⟩
      · rw [finish, ends]
        rfl
      · rw [← shape]
        exact passes.exciseTree lead address
  | true =>
      -- The second pass folds what the first one retained.
      obtain ⟨_, retained, few⟩ := Variant.retries_nr_lt again
      have secondSettled : ∀ i, (q.slots i).Settled := by
        intro i isNode
        have same := (flatDone.nodes i isNode).1
        rw [same] at isNode ⊢
        exact settled i isNode
      have fewLeft : slotLeafCount q.slots < assocArrayFanOut := by
        rw [← card_bag, flatDone.bag_eq, card_bag, ← flatDone.nr_eq]
        exact few
      obtain ⟨second, secondRun⟩ :=
        compressPass_isSome flatDone.sound.counted flatDone.sound.whole
          secondSettled fewLeft
      have secondDone :=
        flatDone.trans
          (Compressed.of_pass flatDone.sound.counted flatDone.sound.whole
            secondRun)
      have plain : Plain second.slots := by
        intro i
        apply Bool.eq_false_iff.mpr
        intro isNode
        have stillRetained := secondDone.retained_iff.mpr ⟨i, isNode⟩
        rw [compressPass_second counted whole flatOnce few secondRun]
          at stillRetained
        cases stillRetained
      have flatSole : second.soleShortcut = none := by
        rw [Option.eq_none_iff_forall_ne_some]
        intro subtree sole
        obtain ⟨i, here, isNode, _⟩ :=
          Pass.soleShortcut_spec secondDone.sound sole
        rw [← here, plain i] at isNode
        cases isNode
      have fewHere : p.nr < assocArrayFanOut := by
        rw [← passes.nr_eq]
        exact few
      have sole : p.soleShortcut = none := by
        rw [Option.eq_none_iff_forall_ne_some]
        intro subtree found
        have large := (soleShortcut_large collected done found).1
        rw [← done.nr_eq] at large
        omega
      have nrEq : second.nr = p.nr := by
        rw [secondDone.nr_eq, ← flatDone.nr_eq, passes.nr_eq]
      have bagEq : bag second.slots = bag p.slots := by
        rw [secondDone.bag_eq, done.bag_eq]
        exact Finset.sum_congr rfl fun i _ => (alike i).leaves_eq
      have holdsNode : ∃ i, (p.slots i).isMeta = true := by
        apply done.retained_iff.mp
        rw [← passes.retained_eq]
        exact retained
      have ends :
          compress .patched address flat =
            some (second, [.retried address]) := by
        rw [compress, flatOnce, Option.bind_some, again, if_pos rfl, secondRun]
        rfl
      refine
        ⟨(exciseTree lead address second).1,
          [.retried address] ++ (exciseTree lead address second).2, ?_, ?_⟩
      · rw [finish, ends]
        rfl
      · rw [← shape]
        simp only [exciseTree, sole, flatSole, nrEq,
          if_pos (Nat.le_of_lt fewHere)]
        exact .replaced none address p.nr fewHere holdsNode plain bagEq

/-! ## The recursion -/

section Recursion

variable {σ : Type} {iterator : Leaf → σ → Bool × σ} {fails : Nat → Bool}

/-- The two runs have called the iterator on the same leaves and allocated the
same addresses. -/
structure LedgerFlattens (ledger flat : Ledger σ) : Prop where
  iteratorData_eq : flat.iteratorData = ledger.iteratorData
  next_eq : flat.next = ledger.next

/-- Collecting the slots of a node side by side. -/
theorem collectSlots_flattens
    {slots : Fin assocArrayFanOut → Tree}
    (visit : ∀ i {t : Tree} {ledger after flat : Ledger σ},
      LedgerFlattens ledger flat →
        collect .unpatched iterator fails (slots i) ledger = .done t after →
          ∃ flatTree flatAfter,
            collect .patched iterator fails (slots i) flat =
                .done flatTree flatAfter ∧
              Flattens t flatTree ∧ LedgerFlattens after flatAfter) :
    ∀ (items : List (Fin assocArrayFanOut))
      {start flatStart filtered : Fin assocArrayFanOut → Tree}
      {ledger after flat : Ledger σ},
      (∀ i, Flattens (start i) (flatStart i)) → LedgerFlattens ledger flat →
        collectSlots (fun i => collect .unpatched iterator fails (slots i))
            items start ledger = .done filtered after →
          ∃ flatFiltered flatAfter,
            collectSlots (fun i => collect .patched iterator fails (slots i))
                items flatStart flat = .done flatFiltered flatAfter ∧
              (∀ i, Flattens (filtered i) (flatFiltered i)) ∧
              LedgerFlattens after flatAfter
  | [], start, flatStart, filtered, ledger, after, flat, alike, ledgers,
      run => by
      cases run
      exact ⟨flatStart, flat, rfl, alike, ledgers⟩
  | i :: rest, start, flatStart, filtered, ledger, after, flat, alike, ledgers,
      run => by
      rw [collectSlots] at run
      cases here : collect .unpatched iterator fails (slots i) ledger with
      | enomem t middle =>
          rw [here] at run
          cases run
      | bug =>
          rw [here] at run
          cases run
      | done t middle =>
          rw [here] at run
          obtain ⟨flatTree, flatMiddle, flatHere, treesHere, ledgersHere⟩ :=
            visit i ledgers here
          rw [collectSlots, flatHere]
          exact
            collectSlots_flattens visit rest
              (flattens_update alike treesHere i) ledgersHere run

/-- If the unpatched collection of a tree goes through, so does the patched
one. -/
theorem collect_flattens :
    ∀ {old t : Tree} {ledger after flat : Ledger σ},
      LedgerFlattens ledger flat →
        collect .unpatched iterator fails old ledger = .done t after →
          ∃ flatTree flatAfter,
            collect .patched iterator fails old flat =
                .done flatTree flatAfter ∧
              Flattens t flatTree ∧ LedgerFlattens after flatAfter
  | .empty, t, ledger, after, flat, ledgers, run => by
      cases run
      exact ⟨.empty, flat, rfl, .empty, ledgers⟩
  | .leaf object, t, ledger, after, flat, ledgers, run => by
      rw [collect, Outcome.done.injEq] at run
      rw [← run.1, ← run.2, collect, ledgers.iteratorData_eq]
      refine ⟨_, _, rfl, ?_, ⟨rfl, ledgers.next_eq⟩⟩
      split
      · exact .leaf object
      · exact .empty
  | .dangling lead next, t, ledger, after, flat, ledgers, run => by
      cases run
  | .node lead address nr slots, t, ledger, after, flat, ledgers, run => by
      rw [collect] at run
      split at run
      · cases run
      next leadAllocated =>
        split at run
        · cases run
        next nodeAllocated =>
          obtain ⟨filtered, middle, events, slotsRun, finished, afterEq⟩ :=
            finishNode_done run
          have ledgersNow :
              LedgerFlattens
                { ledger with next := afterLead lead ledger.next + 1 }
                { flat with next := afterLead lead ledger.next + 1 } :=
            ⟨ledgers.iteratorData_eq, rfl⟩
          obtain ⟨flatFiltered, flatMiddle, flatRun, alike, ledgersLast⟩ :=
            collectSlots_flattens
              (fun i _ _ _ _ ledgers run => collect_flattens ledgers run) _
              (fun _ => .empty) ledgersNow slotsRun
          obtain ⟨_, _, _, steps⟩ := collectSlots_done slotsRun
          obtain ⟨_, _, _, flatSteps⟩ := collectSlots_done flatRun
          obtain ⟨flatTree, flatEvents, flatFinished, trees⟩ :=
            finish_flattens alike (fun i => collect_collected (steps i))
              (fun i => collect_collected (flatSteps i))
              (fun i => collect_settled (flatSteps i)) finished
          refine
            ⟨flatTree,
              { flatMiddle with trace := flatMiddle.trace ++ flatEvents }, ?_,
              trees, ?_⟩
          · rw [collect, ledgers.next_eq, if_neg leadAllocated,
              if_neg nodeAllocated, flatRun, finishNode, flatFinished]
          · rw [afterEq]
            exact ⟨ledgersLast.iteratorData_eq, ledgersLast.next_eq⟩

/-- Whenever the call of the unpatched collector returns 0, so does the call of
the patched one, after the same iterator calls, and the arrays differ in
flattened nodes only. -/
theorem gc_patch_conservative
    {heap : Heap Object} {array : AssocArray} {old : Tree} {data : σ}
    {final : Gc σ}
    (wellFormed : WellFormed heap array old)
    (exits : GcExits .unpatched iterator fails heap array data
      (.returned 0 final)) :
    ∃ patched t flat,
      GcExits .patched iterator fails heap array data (.returned 0 patched) ∧
        iteratorCalls patched.trace = iteratorCalls final.trace ∧
        patched.iteratorData = final.iteratorData ∧
        WellFormed final.heap final.array t ∧
        WellFormed patched.heap patched.array flat ∧
        Flattens t flat ∧
        patched.array.nrLeavesOnTree = final.array.nrLeavesOnTree ∧
        (↑flat.leaves : Multiset Leaf) = ↑t.leaves := by
  obtain ⟨t, after, collected, built, arrayEq, dataEq, traceEq⟩ :=
    gc_returned_zero .unpatched iterator fails wellFormed exits
  have together :
      LedgerFlattens (callLedger heap data) (callLedger heap data) :=
    ⟨rfl, rfl⟩
  obtain ⟨flat, flatAfter, flatCollected, trees, ledgers⟩ :=
    collect_flattens together collected
  have allocated : fails heap.next = false := by
    apply Bool.eq_false_iff.mpr
    intro refused
    cases Halts.unique exits
      (gc_refused .unpatched iterator fails wellFormed data refused)
  have refines :=
    gc_refines .patched iterator fails wellFormed data allocated
  rw [flatCollected] at refines
  obtain ⟨last, patched, run, _, stops, flatBuilt, flatArrayEq, flatDataEq,
    flatTraceEq⟩ := refines
  have isNode : t.isMeta = true := by
    rw [collect_isMeta collected]
    exact wellFormed.root_meta
  have leaves := trees.leaves_eq
  refine
    ⟨patched, t, flat, ⟨last, run, stops⟩, ?_, ?_,
      built.wellFormed arrayEq isNode (collect_collected collected).whole,
      flatBuilt.wellFormed flatArrayEq (by rw [trees.isMeta_eq, isNode])
        (collect_collected flatCollected).whole,
      trees, ?_, leaves⟩
  · rw [traceEq, flatTraceEq, collect_iteratorCalls collected,
      collect_iteratorCalls flatCollected]
  · rw [dataEq, flatDataEq, ledgers.iteratorData_eq]
  · have size := congrArg Multiset.card leaves
    rw [Multiset.coe_card, Multiset.coe_card] at size
    rw [arrayEq, flatArrayEq]
    exact size

end Recursion

/-- What a slot of the tree's root holds. -/
def Tree.inSlot (i : Fin assocArrayFanOut) : Tree → Tree
  | .node _ _ _ slots => slots i
  | .empty => .empty
  | .leaf _ => .empty
  | .dangling _ _ => .empty

/-- The unpatched collector leaves a child in slot 13 of a node of fifteen leaves;
the patched one has its leaves in that node. -/
theorem gc_patch_conservative_retry :
    ∃ final patched t flat,
      GcExits .unpatched rejectTwo (fun _ => false) retryHeap retryArray 0
          (.returned 0 final) ∧
        GcExits .patched rejectTwo (fun _ => false) retryHeap retryArray 0
          (.returned 0 patched) ∧
        WellFormed final.heap final.array t ∧
        WellFormed patched.heap patched.array flat ∧ Flattens t flat ∧
        ((t.inSlot 0).inSlot 13).isMeta = true ∧
        ((flat.inSlot 0).inSlot 13).isMeta = false ∧
        (↑flat.leaves : Multiset Leaf) = ↑t.leaves := by
  obtain ⟨_, _, _, final, keeps, _, _, exits, keptWellFormed, _⟩ :=
    retryArray_returns .unpatched
      (fun t _ => ((t.inSlot 0).inSlot 13).isMeta) (by decide +kernel)
  obtain ⟨_, _, _, patched, folds, _, _, patchedExits, foldedWellFormed, _⟩ :=
    retryArray_returns .patched
      (fun t _ => !((t.inSlot 0).inSlot 13).isMeta) (by decide +kernel)
  obtain ⟨other, t, flat, returns, _, _, wellFormed, flatWellFormed, trees, _,
    leaves⟩ := gc_patch_conservative retryArray_wellFormed exits
  cases Halts.unique patchedExits returns
  cases wellFormed.unique keptWellFormed
  cases flatWellFormed.unique foldedWellFormed
  exact
    ⟨final, patched, _, _, exits, returns, wellFormed, flatWellFormed,
      trees, keeps, (Bool.not_eq_true' _).mp folds, leaves⟩

end KernelStuff.AssocArrayGc
