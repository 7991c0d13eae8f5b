import KernelStuff.AssocArrayGc.Linking

/-!
# Excision on the heap

After the compress loop the machine frees what `exciseTree` leaves out, hangs
what is kept into the place, and gets ready to climb the old tree.
-/

namespace KernelStuff.AssocArrayGc

open KernelStuff.Library

section Excision

variable {σ : Type} {place : Place} {before s : Gc σ} {ledger : Ledger σ}

/-- The machine leaves the node: it is done at the root, and otherwise it is
about to climb to the old parent with the copy of the parent at hand. A shortcut
in front of the root's node sends it through `ascend_old_tree` first. -/
def Place.Departs (place : Place) (front : Option Lead) (s next : Gc σ) :
    Prop :=
  next.node = s.node ∧ next.nrLeavesOnTree = s.nrLeavesOnTree ∧
    match place with
    | .root =>
        next.label = .gcComplete ∨
          (next.label = .ascendOldTree ∧ front.isSome = true)
    | .slot _ newParent _ =>
        next.label = .ascendOldTree ∧ next.newN = some newParent ∧
          next.newParent = .node newParent

theorem storeSlot_eq
    {newParent : Nat} {i : Fin assocArrayFanOut}
    {heap : Heap Object} {content : AssocArrayNode}
    (oldParent : Nat) (value : Ptr)
    (live : heap.cells newParent = some (.node content)) :
    storeSlot (σ := σ) heap (some newParent) i.val value =
      .ok ((Place.slot oldParent newParent i).putHeap heap value) := by
  simp only [storeSlot, loadNode_some live, bind, Except.bind, i.isLt, dite_true,
    Place.putHeap, live]
  rfl

/-- Hanging the shortcut `inner` into the place. -/
theorem attach_spec
    {heap : Heap Object} {inner : Nat} {content : AssocArrayShortcut} {p : Ptr}
    (hangs : place.Hangs before p { s with heap := heap })
    (apart : ¬ place.Touched inner)
    (cell : heap.cells inner = some (.shortcut content)) :
    ∃ next,
      attach s heap (.shortcut inner) place.newBack place.index = .ok next ∧
        place.Departs none s next ∧
        next =
          { s with
            heap := place.putHeap
              (heap.store inner
                (.shortcut { content with
                  backPointer := place.newBack
                  parentSlot := place.index }))
              (.shortcut inner)
            newRoot := place.putRoot s.newRoot (.shortcut inner)
            newParent := next.newParent
            newN := next.newN
            slot := next.slot
            label := next.label } := by
  have load :
      loadShortcut (σ := σ) heap (some inner) = .ok (inner, content) :=
    loadShortcut_some cell
  cases place with
  | root =>
      refine
        ⟨{ s with
            heap := heap.store inner
              (.shortcut { content with backPointer := .null, parentSlot := 0 })
            newRoot := .shortcut inner
            label := .gcComplete }, ?_, ⟨rfl, rfl, Or.inl rfl⟩, rfl⟩
      simp only [attach, assocArrayPtrToMeta, load, bind, Except.bind,
        Place.newBack, if_true, Place.index]
      rfl
  | slot oldParent newParent i =>
      obtain ⟨_, parent, _, live⟩ := hangs
      have stillLive :
          (heap.store inner
            (.shortcut { content with
              backPointer := .node newParent
              parentSlot := i.val })).cells newParent =
            some (.node { parent with
              slots := Function.update parent.slots i p }) := by
        rw [Heap.store_cells_of_ne]
        · exact live
        · exact fun same => apart same.symm
      refine
        ⟨{ s with
            heap := (Place.slot oldParent newParent i).putHeap
              (heap.store inner
                (.shortcut { content with
                  backPointer := .node newParent
                  parentSlot := i.val }))
              (.shortcut inner)
            newParent := .node newParent
            newN := some newParent
            slot := i.val
            label := .ascendOldTree }, ?_, ⟨rfl, rfl, rfl, rfl, rfl⟩, rfl⟩
      simp only [attach, assocArrayPtrToMeta, load, bind, Except.bind,
        Place.newBack, Place.index, reduceCtorEq, if_false,
        storeSlot_eq oldParent _ stillLive]
      rfl

/-- The node is excised, and what it alone held is hung into its place. -/
theorem exciseNode_spec
    {front : Option Lead} {inner : Lead} {copy nr address innerNr : Nat}
    {slots children : Fin assocArrayFanOut → Tree} {i : Fin assocArrayFanOut}
    (linked : Linked place before (.node front copy nr slots) ledger s)
    (here : slots i = .node (some inner) address innerNr children) :
    ∃ next,
      exciseNode s copy
          ⟨leadBack front place.newBack, leadIndex front place.index,
            fun j => (slots j).ptr, nr⟩
          (.shortcut inner.address) = .ok next ∧
        place.Departs front s next ∧
        Linked place before (slots i) ledger next := by
  obtain ⟨leadHeld, cell, represented⟩ := linked.represented
  obtain ⟨leadApart, copyApart, _, separated⟩ := linked.separated
  have owned :
      ∀ x, (slots i).Owns x → (Tree.node front copy nr slots).Owns x :=
    fun x inside => Or.inr (Or.inr ⟨i, inside⟩)
  have innerOwned : (slots i).Owns inner.address := by
    rw [here]
    exact Or.inr (Or.inl ⟨inner, rfl, rfl⟩)
  -- What is freed: the node and the shortcut in front of it.
  obtain ⟨heap, freed, frame, nextEq, kept⟩ :
      ∃ heap : Heap Object,
        exciseNode s copy
            ⟨leadBack front place.newBack, leadIndex front place.index,
              fun j => (slots j).ptr, nr⟩
            (.shortcut inner.address) =
          attach s heap (.shortcut inner.address) place.newBack place.index ∧
        Heap.Touches (Tree.node front copy nr slots).Owns s.heap heap ∧
        heap.next = s.heap.next ∧
        ∀ x, (slots i).Owns x → heap.cells x = s.heap.cells x := by
    have copyFreed :
        ∀ x, (slots i).Owns x →
          (s.heap.free copy).cells x = s.heap.cells x := by
      intro x inside
      apply Heap.free_cells_of_ne
      rintro rfl
      exact copyApart i inside
    have copyFrame :
        Heap.Touches (Tree.node front copy nr slots).Owns s.heap
          (s.heap.free copy) :=
      (Heap.Touches.refl s.heap).andFree (Or.inl (Or.inl rfl))
    cases front with
    | none =>
        refine ⟨s.heap.free copy, ?_, copyFrame, rfl, copyFreed⟩
        cases place <;> rfl
    | some lead =>
        have leadCell :
            (s.heap.free copy).cells lead.address =
              some (.shortcut ⟨place.newBack, place.index, .node copy,
                lead.key⟩) := by
          rw [Heap.free_cells_of_ne _ (leadApart lead rfl).1]
          exact leadHeld
        refine
          ⟨(s.heap.free copy).free lead.address, ?_,
            copyFrame.andFree (Or.inl (Or.inr (Or.inl ⟨lead, rfl, rfl⟩))),
            rfl, ?_⟩
        · simp only [exciseNode, leadBack, assocArrayPtrIsShortcut, if_true,
            assocArrayPtrToMeta, loadShortcut_some leadCell, bind, Except.bind]
        · intro x inside
          rw [Heap.free_cells_of_ne, copyFreed x inside]
          rintro rfl
          exact (leadApart lead rfl).2 i inside
  have innerRepresented := represented i
  have innerSeparated := separated i
  rw [here] at innerRepresented innerSeparated
  obtain ⟨innerHeld, innerCell, grandchildren⟩ := innerRepresented
  have innerLive :
      heap.cells inner.address =
        some (.shortcut ⟨.node copy, i.val, .node address, inner.key⟩) := by
    rw [kept _ innerOwned]
    exact innerHeld
  have hangs :
      place.Hangs before (Tree.node front copy nr slots).ptr
        { s with heap := heap } := by
    have untouched :
        ∀ x, place.Touched x → heap.cells x = s.heap.cells x := by
      intro x touched
      have old := linked.hangs.touched_lt touched
      apply frame.cells_eq x (Nat.lt_of_lt_of_le old linked.frame.next_le)
      intro inside
      exact linked.not_touched inside touched
    exact linked.hangs.congr rfl untouched
  obtain ⟨next, run, departs, nextIs⟩ :=
    attach_spec hangs (linked.not_touched (owned _ innerOwned)) innerLive
  refine ⟨next, freed.trans run, ?_, ?_⟩
  · obtain ⟨nodeEq, leavesEq, label⟩ := departs
    refine ⟨nodeEq, leavesEq, ?_⟩
    cases place with
    | root =>
        rcases label with done | ⟨_, impossible⟩
        · exact Or.inl done
        · cases impossible
    | slot oldParent newParent index => exact label
  · have frame :=
      frame.andStore (Or.inl (owned _ innerOwned))
        (.shortcut ⟨place.newBack, place.index, .node address, inner.key⟩)
    have ptrEq : (slots i).ptr = .shortcut inner.address := by rw [here]; rfl
    apply
      linked.replace (fun x inside => linked.fresh x (owned x inside))
        (separated i) frame
    · rw [here]
      refine ⟨Heap.store_cells_self _ innerLive, ?_, ?_⟩
      · rw [Heap.store_cells_of_ne _ _ (Ne.symm (innerSeparated.1 inner rfl).1),
          kept address (by rw [here]; exact Or.inl rfl)]
        exact innerCell
      · intro j
        apply Tree.Represented.congr _ (grandchildren j)
        intro x inside
        rw [Heap.store_cells_of_ne]
        · apply kept x
          rw [here]
          exact Or.inr (Or.inr ⟨j, inside⟩)
        · rintro rfl
          exact (innerSeparated.1 inner rfl).2 j inside
    · rw [nextIs]
    · rw [nextIs]
    · rw [nextIs, ptrEq]
    · rw [nextIs, ptrEq]
    · rw [nextIs]
      exact linked.iteratorData_eq
    · rw [nextIs]
      exact linked.trace_eq
    · rw [Heap.store_next, nextEq, linked.next_eq]

/-- The node stays; the shortcut in front of it goes if the node has few
leaves. -/
theorem exciseShortcut_spec
    {front : Option Lead} {copy nr : Nat}
    {slots : Fin assocArrayFanOut → Tree}
    (linked : Linked place before (.node front copy nr slots) ledger s) :
    ∃ next,
      exciseShortcut s copy
          ⟨leadBack front place.newBack, leadIndex front place.index,
            fun j => (slots j).ptr, nr⟩ = .ok next ∧
        place.Departs front s next ∧
        Linked place before
          (.node (if nr ≤ assocArrayFanOut then none else front) copy nr slots)
          { ledger with
            trace := ledger.trace ++
              if nr ≤ assocArrayFanOut then
                (front.map fun _ => Event.excisedShortcut fun j =>
                  (slots j).ptr).toList
              else [] }
          next := by
  cases front with
  | none =>
      have unchanged :
          (Option.map (fun _ => Event.excisedShortcut fun j => (slots j).ptr)
            (none : Option Lead)).toList = [] := rfl
      simp only [unchanged, ite_self, List.append_nil, leadBack, leadIndex]
      cases place with
      | root =>
          exact
            ⟨_, rfl, ⟨rfl, rfl, Or.inl rfl⟩,
              linked.congr rfl rfl rfl rfl linked.iteratorData_eq
                linked.trace_eq rfl⟩
      | slot oldParent newParent i =>
          exact
            ⟨_, rfl, ⟨rfl, rfl, rfl, rfl, rfl⟩,
              linked.congr rfl rfl rfl rfl linked.iteratorData_eq
                linked.trace_eq rfl⟩
  | some lead =>
      obtain ⟨leadHeld, cell, represented⟩ := linked.represented
      obtain ⟨leadApart, copyApart, disjoint, separated⟩ := linked.separated
      have load :
          loadShortcut (σ := σ) s.heap (some lead.address) =
            .ok (lead.address, ⟨place.newBack, place.index, .node copy,
              lead.key⟩) :=
        loadShortcut_some leadHeld
      by_cases few : nr ≤ assocArrayFanOut
      · simp only [if_pos few, Option.map_some, Option.toList_some]
        have leadOwned :
            (Tree.node (some lead) copy nr slots).Owns lead.address :=
          Or.inr (Or.inl ⟨lead, rfl, rfl⟩)
        have moved :
            ((s.heap.store copy
              (.node ⟨place.newBack, place.index, fun j => (slots j).ptr,
                nr⟩)).free lead.address).cells copy =
              some (.node ⟨place.newBack, place.index,
                fun j => (slots j).ptr, nr⟩) := by
          rw [Heap.free_cells_of_ne _ (Ne.symm (leadApart lead rfl).1)]
          exact Heap.store_cells_self _ cell
        have frame :
            Heap.Touches (Tree.node (some lead) copy nr slots).Owns s.heap
              ((s.heap.store copy
                (.node ⟨place.newBack, place.index, fun j => (slots j).ptr,
                  nr⟩)).free lead.address) :=
          ((Heap.Touches.refl s.heap).andStore (Or.inl (Or.inl rfl)) _).andFree
            (Or.inl leadOwned)
        have replaced :
            ∀ next : Gc σ,
              next.array = s.array → next.edit = s.edit →
              next.newRoot = place.putRoot s.newRoot (.node copy) →
              next.heap =
                place.putHeap
                  ((s.heap.store copy
                    (.node ⟨place.newBack, place.index,
                      fun j => (slots j).ptr, nr⟩)).free lead.address)
                  (.node copy) →
              next.iteratorData = s.iteratorData →
              next.trace =
                s.trace ++ [.excisedShortcut fun j => (slots j).ptr] →
              Linked place before (.node none copy nr slots)
                { ledger with
                  trace := ledger.trace ++
                    [.excisedShortcut fun j => (slots j).ptr] }
                next := by
          intro next arrayEq editEq rootEq heapEq dataEq traceEq
          have owned :
              ∀ x, (Tree.node none copy nr slots).Owns x →
                (Tree.node (some lead) copy nr slots).Owns x := by
            rintro x (same | ⟨front, impossible, _⟩ | inSlot)
            · exact Or.inl same
            · cases impossible
            · exact Or.inr (Or.inr inSlot)
          apply
            linked.replace (fun x inside => linked.fresh x (owned x inside)) _
              frame _ arrayEq editEq rootEq heapEq
          · rw [dataEq, linked.iteratorData_eq]
          · rw [traceEq, linked.trace_eq]
          · exact linked.next_eq
          · refine ⟨?_, copyApart, disjoint, separated⟩
            intro front impossible
            cases impossible
          · refine ⟨trivial, moved, ?_⟩
            intro i
            apply Tree.Represented.congr _ (represented i)
            intro x inside
            rw [Heap.free_cells_of_ne, Heap.store_cells_of_ne]
            · rintro rfl
              exact copyApart i inside
            · rintro rfl
              exact (leadApart lead rfl).2 i inside
        simp only [exciseShortcut, leadBack, reduceCtorEq, if_false,
          assocArrayPtrIsShortcut, if_true, assocArrayPtrToMeta, load, bind,
          Except.bind, if_pos few]
        cases place with
        | root =>
            exact
              ⟨_, rfl, ⟨rfl, rfl, Or.inl rfl⟩,
                replaced _ rfl rfl rfl rfl rfl rfl⟩
        | slot oldParent newParent i =>
            obtain ⟨_, parent, _, live⟩ := linked.hangs
            have stillLive :
                ((s.heap.store copy
                  (.node ⟨.node newParent, i.val, fun j => (slots j).ptr,
                    nr⟩)).free lead.address).cells newParent =
                  s.heap.cells newParent := by
              rw [Heap.free_cells_of_ne, Heap.store_cells_of_ne]
              · exact fun same => linked.not_touched (Or.inl rfl) same.symm
              · exact fun same => linked.not_touched leadOwned same.symm
            rw [live] at stillLive
            simp only [Place.newBack, Place.index, reduceCtorEq, if_false,
              storeSlot_eq oldParent _ stillLive]
            exact
              ⟨_, rfl, ⟨rfl, rfl, rfl, rfl, rfl⟩,
                replaced _ rfl rfl rfl rfl rfl rfl⟩
      · simp only [if_neg few, List.append_nil]
        simp only [exciseShortcut, leadBack, reduceCtorEq, if_false,
          assocArrayPtrIsShortcut, if_true, assocArrayPtrToMeta, load, bind,
          Except.bind, if_neg few]
        refine
          ⟨_, rfl, ?_,
            linked.congr rfl rfl rfl rfl linked.iteratorData_eq
              linked.trace_eq rfl⟩
        cases place with
        | root => exact ⟨rfl, rfl, Or.inr ⟨rfl, rfl⟩⟩
        | slot oldParent newParent i => exact ⟨rfl, rfl, rfl, rfl, rfl⟩

/-- The code between the compress loop and `ascend_old_tree` leaves what
`exciseTree` returns. -/
theorem excise_spec
    {front : Option Lead} {copy : Nat} {p : Pass}
    (linked : Linked place before (.node front copy p.nr p.slots) ledger s)
    (sound : p.Sound)
    (atNode : s.newN = some copy)
    (nrFree : s.nrFree = p.nrFree) :
    ∃ next,
      excise s = .ok next ∧
        place.Departs front s next ∧
        Linked place before (exciseTree front copy p).1
          { ledger with
            trace := ledger.trace ++ (exciseTree front copy p).2 }
          next := by
  have load :
      loadNode (σ := σ) s.heap s.newN =
        .ok (copy, ⟨leadBack front place.newBack, leadIndex front place.index,
          fun j => (p.slots j).ptr, p.nr⟩) := by
    rw [atNode]
    exact loadNode_some linked.represented.2.1
  cases sole : p.soleShortcut with
  | some subtree =>
      obtain ⟨i, here, isNode, _, isShortcut⟩ :=
        Pass.soleShortcut_spec sound sole
      obtain ⟨lead, address, nr, children, shape⟩ :=
        Tree.exists_node_of_isMeta (sound.whole i) (by rw [here]; exact isNode)
      cases lead with
      | none =>
          rw [← here, shape] at isShortcut
          cases isShortcut
      | some inner =>
          obtain ⟨next, run, departs, after⟩ := exciseNode_spec linked shape
          refine ⟨next, ?_, departs, ?_⟩
          · rw [← run]
            rw [Pass.soleShortcut] at sole
            split at sole
            · next free =>
                obtain ⟨j, found, picked⟩ := Option.bind_eq_some_iff.mp sole
                split at picked
                · next tests =>
                    cases picked
                    have ptrEq : (p.slots j).ptr = .shortcut inner.address := by
                      rw [← here, shape]
                      rfl
                    simp only [excise, load, bind, Except.bind, nrFree,
                      if_pos free, found, Option.map_some, Option.getD_some,
                      if_pos tests]
                    rw [ptrEq]
                · cases picked
            · cases sole
          · simp only [exciseTree, sole, List.append_nil]
            rw [← here]
            exact after
  | none =>
      have toShortcut :
          excise s =
            exciseShortcut s copy
              ⟨leadBack front place.newBack, leadIndex front place.index,
                fun j => (p.slots j).ptr, p.nr⟩ := by
        rw [Pass.soleShortcut] at sole
        by_cases free : p.nrFree = assocArrayFanOut - 1
        · simp only [excise, load, bind, Except.bind, nrFree, if_pos free]
          rw [if_pos free] at sole
          cases found :
              (List.finRange assocArrayFanOut).find? fun index =>
                decide ((p.slots index).ptr ≠ .null) with
          | none => rfl
          | some j =>
              rw [found] at sole
              have tests :
                  ¬ (assocArrayPtrIsMeta (p.slots j).ptr &&
                    assocArrayPtrIsShortcut (p.slots j).ptr) = true := by
                intro tests
                simp only [Option.bind_some, if_pos tests] at sole
                cases sole
              simp only [Option.map_some, Option.getD_some, if_neg tests]
        · simp only [excise, load, bind, Except.bind, nrFree, if_neg free]
      obtain ⟨next, run, departs, after⟩ := exciseShortcut_spec linked
      refine ⟨next, toShortcut.trans run, departs, ?_⟩
      simp only [exciseTree, sole]
      by_cases few : p.nr ≤ assocArrayFanOut
      · simp only [if_pos few] at after ⊢
        exact after
      · simp only [if_neg few] at after ⊢
        exact after

end Excision

end KernelStuff.AssocArrayGc
