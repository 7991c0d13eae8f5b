import KernelStuff.AssocArrayGc.Collected

/-!
# The compress loop on the heap

The code at `retry_compress` works on objects: it reads the slots of `new_n`,
loads children, stores slots and frees what it folds.  `NodeHeld` says that the
heap holds a node whose slots lead to given trees; the loop on the heap then
follows the pass on those trees, iteration by iteration.
-/

namespace KernelStuff.AssocArrayGc

open KernelStuff.Library

/-- The heap holds the node `newN` and, apart from it and from each other, the
trees its slots lead to. -/
structure NodeHeld (heap : Heap Object) (newN : Nat) (back : Ptr)
    (index nr : Nat) (slots : Fin assocArrayFanOut → Tree) : Prop where
  cell : heap.cells newN =
    some (.node ⟨back, index, fun i => (slots i).ptr, nr⟩)
  children : ∀ i, (slots i).Represented heap.cells (.node newN) i.val
  apart : ∀ i, ¬ (slots i).Owns newN
  disjoint : ∀ i j, i ≠ j → ∀ x, (slots i).Owns x → ¬ (slots j).Owns x
  separated : ∀ i, (slots i).Separated

/-- The cells a node and its subtrees occupy. -/
def NodeCells (newN : Nat) (slots : Fin assocArrayFanOut → Tree) (x : Nat) :
    Prop :=
  x = newN ∨ ∃ i, (slots i).Owns x

@[simp]
theorem loadNode_some
    {σ : Type} {heap : Heap Object} {address : Nat} {content : AssocArrayNode}
    (live : heap.cells address = some (.node content)) :
    loadNode (σ := σ) heap (some address) = .ok (address, content) := by
  simp [loadNode, live]

@[simp]
theorem loadShortcut_some
    {σ : Type} {heap : Heap Object} {address : Nat}
    {content : AssocArrayShortcut}
    (live : heap.cells address = some (.shortcut content)) :
    loadShortcut (σ := σ) heap (some address) = .ok (address, content) := by
  simp [loadShortcut, live]

/-- Overwriting a slot of the trees overwrites the pointer in it. -/
theorem ptr_update
    (slots : Fin assocArrayFanOut → Tree) (i : Fin assocArrayFanOut)
    (t : Tree) :
    Function.update (fun j => (slots j).ptr) i t.ptr =
      fun j => (Function.update slots i t j).ptr := by
  funext j
  by_cases same : j = i
  · subst same
    simp
  · simp [same]

theorem Tree.not_owns_of_plain {t : Tree} (plain : t.isMeta = false) (x : Nat) :
    ¬ t.Owns x := by
  rcases Tree.cases_of_not_isMeta plain with isEmpty | ⟨object, isLeaf⟩
  · rw [isEmpty]
    exact fun impossible => impossible
  · rw [isLeaf]
    exact fun impossible => impossible

theorem Tree.represented_of_plain
    {t : Tree} (plain : t.isMeta = false)
    (cells : Nat → Option Object) (back : Ptr) (index : Nat) :
    t.Represented cells back index := by
  rcases Tree.cases_of_not_isMeta plain with isEmpty | ⟨object, isLeaf⟩
  · rw [isEmpty]
    trivial
  · rw [isLeaf]
    trivial

theorem Tree.separated_of_plain {t : Tree} (plain : t.isMeta = false) :
    t.Separated := by
  rcases Tree.cases_of_not_isMeta plain with isEmpty | ⟨object, isLeaf⟩
  · rw [isEmpty]
    trivial
  · rw [isLeaf]
    trivial

/-- Storing new slots that keep subtrees in place or drop them. -/
theorem NodeHeld.store
    {heap : Heap Object} {newN : Nat} {back : Ptr} {index nr : Nat}
    {slots : Fin assocArrayFanOut → Tree}
    (held : NodeHeld heap newN back index nr slots)
    (newNr : Nat) (newSlots : Fin assocArrayFanOut → Tree)
    (kept : ∀ i, newSlots i = slots i ∨ (newSlots i).isMeta = false) :
    NodeHeld
      (heap.store newN
        (.node ⟨back, index, fun i => (newSlots i).ptr, newNr⟩))
      newN back index newNr newSlots := by
  have owned : ∀ i x, (newSlots i).Owns x → (slots i).Owns x := by
    intro i x inside
    rcases kept i with same | plain
    · rw [← same]
      exact inside
    · exact absurd inside (Tree.not_owns_of_plain plain x)
  constructor
  · exact Heap.store_cells_self _ held.cell
  · intro i
    rcases kept i with same | plain
    · rw [same]
      apply Tree.Represented.congr _ (held.children i)
      intro x inside
      apply Heap.store_cells_of_ne
      rintro rfl
      exact held.apart i inside
    · exact Tree.represented_of_plain plain _ _ _
  · exact fun i inside => held.apart i (owned i newN inside)
  · exact fun i j different x left right =>
      held.disjoint i j different x (owned i x left) (owned j x right)
  · intro i
    rcases kept i with same | plain
    · rw [same]
      exact held.separated i
    · exact Tree.separated_of_plain plain

/-- Freeing a cell outside the node. -/
theorem NodeHeld.free
    {heap : Heap Object} {newN : Nat} {back : Ptr} {index nr : Nat}
    {slots : Fin assocArrayFanOut → Tree} {child : Nat}
    (held : NodeHeld heap newN back index nr slots)
    (different : child ≠ newN)
    (outside : ∀ i, ¬ (slots i).Owns child) :
    NodeHeld (heap.free child) newN back index nr slots := by
  constructor
  · rw [Heap.free_cells_of_ne heap (Ne.symm different)]
    exact held.cell
  · intro i
    apply Tree.Represented.congr _ (held.children i)
    intro x inside
    apply Heap.free_cells_of_ne
    rintro rfl
    exact outside i inside
  · exact held.apart
  · exact held.disjoint
  · exact held.separated

section Loops

variable {σ : Type} {newN : Nat} {back : Ptr} {index : Nat}

/-- The locals of the fold loop match a pass. -/
structure FoldMatches (newN : Nat) (back : Ptr) (index : Nat)
    (fold : Fold) (p : Pass) : Prop where
  held : NodeHeld fold.heap newN back index p.nr p.slots
  nrFree_eq : fold.nrFree = p.nrFree
  nextSlot_eq : fold.nextSlot = p.nextSlot
  retained_eq : fold.retained = p.retained

/-- A `BUG_ON` fired, and nothing outside the given cells was written before. -/
def Bugged (before : Heap Object) (cells : Nat → Prop) (exit : Exit σ) :
    Prop :=
  ∃ check heap, exit = .bug check heap ∧ Heap.Touches cells before heap

/-! ## Moving leaves -/

/-- What holds while the leaves of a folded child are moved: the child is intact
and outside what the node leads to. -/
structure MoveMatches (newN : Nat) (back : Ptr) (index child : Nat)
    (source : AssocArrayNode) (before : Heap Object)
    (fold : Fold) (p : Pass) : Prop where
  locals : FoldMatches newN back index fold p
  childCell : fold.heap.cells child = some (.node source)
  childOutside : ∀ i, ¬ (p.slots i).Owns child
  next_eq : fold.heap.next = before.next
  frame : Heap.Touches (fun x => x = newN) before fold.heap

theorem moveLeaf_simulates
    {child : Nat} {source : AssocArrayNode} {before : Heap Object}
    {children : Fin assocArrayFanOut → Tree}
    (different : child ≠ newN)
    (sourceSlots : source.slots = fun i => (children i).ptr)
    (fold : Fold) (p : Pass) (i : Fin assocArrayFanOut)
    (moves : MoveMatches newN back index child source before fold p) :
    Simulates (MoveMatches newN back index child source before)
      (Bugged (σ := σ) before fun x => x = newN)
      (moveLeaf newN child fold i)
      (p.moveLeaf (children i)) := by
  have loadChild := loadNode_some (σ := σ) moves.childCell
  have loadNewN := loadNode_some (σ := σ) moves.locals.held.cell
  have stopsAtMeta :
      assocArrayPtrIsMeta (children i).ptr = true →
        ∃ failure,
          moveLeaf (σ := σ) newN child fold i = .error failure ∧
            Bugged before (fun x => x = newN) failure := by
    intro isMeta
    have notNull : (children i).ptr ≠ .null := by
      intro null
      rw [null] at isMeta
      cases isMeta
    refine ⟨.bug .metaInFoldedChild fold.heap, ?_, _, _, rfl, moves.frame⟩
    simp only [moveLeaf, loadChild, bind, Except.bind, sourceSlots,
      if_neg notNull, isMeta, if_true]
  cases content : children i with
  | empty =>
      refine ⟨fold, ?_, moves⟩
      simp only [moveLeaf, loadChild, bind, Except.bind, sourceSlots, content,
        Tree.ptr_empty, if_true]
      rfl
  | leaf object =>
      rw [Pass.moveLeaf]
      cases found : seekFree (fun j => (p.slots j).ptr) p.nextSlot with
      | none =>
          refine ⟨.bug .noFreeSlot fold.heap, ?_, _, _, rfl, moves.frame⟩
          simp [moveLeaf, loadChild, loadNewN, bind, Except.bind,
            sourceSlots, content, assocArrayPtrIsMeta,
            moves.locals.nextSlot_eq, found]
      | some free =>
          have slotsEq :
              Function.update (fun j => (p.slots j).ptr) free (.leaf object) =
                fun j => ((p.fill object free).slots j).ptr :=
            ptr_update p.slots free (.leaf object)
          refine
            ⟨{ fold with
                heap := fold.heap.store newN
                  (.node ⟨back, index,
                    fun j => ((p.fill object free).slots j).ptr, p.nr⟩)
                nextSlot := free.val + 1
                nrFree := fold.nrFree - 1 }, ?_, ?_⟩
          · simp only [moveLeaf, loadChild, loadNewN, bind, Except.bind,
              sourceSlots, content, Tree.ptr_leaf, reduceCtorEq, if_false,
              assocArrayPtrIsMeta, Bool.false_eq_true,
              moves.locals.nextSlot_eq, found, slotsEq]
            rfl
          · have held :=
              moves.locals.held.store p.nr (p.fill object free).slots (by
                  intro j
                  rw [Pass.fill_slots]
                  by_cases same : j = free
                  · subst same
                    right
                    rw [Function.update_self]
                    rfl
                  · left
                    rw [Function.update_of_ne same])
            refine
              ⟨⟨held, ?_, rfl, moves.locals.retained_eq⟩, ?_, ?_,
                moves.next_eq, ?_⟩
            · change fold.nrFree - 1 = p.nrFree - 1
              rw [moves.locals.nrFree_eq]
            · rw [Heap.store_cells_of_ne _ _ different]
              exact moves.childCell
            · intro j
              rw [Pass.fill_slots]
              by_cases same : j = free
              · subst same
                rw [Function.update_self]
                exact fun impossible => impossible
              · rw [Function.update_of_ne same]
                exact moves.childOutside j
            · exact moves.frame.andStore (Or.inl rfl) _
  | node lead address nr slots =>
      exact stopsAtMeta (by
        rw [content]
        cases lead <;> rfl)
  | dangling lead next =>
      exact stopsAtMeta (by
        rw [content]
        rfl)

/-- Moving all slots of a folded child. -/
theorem moveChild_simulates
    {child : Nat} {source : AssocArrayNode} {before : Heap Object}
    {children : Fin assocArrayFanOut → Tree} {fold : Fold} {p : Pass}
    (different : child ≠ newN)
    (sourceSlots : source.slots = fun i => (children i).ptr)
    (start : MoveMatches newN back index child source before fold p) :
    Simulates (MoveMatches newN back index child source before)
      (Bugged (σ := σ) before fun x => x = newN)
      ((List.finRange assocArrayFanOut).foldlM (moveLeaf newN child) fold)
      ((List.finRange assocArrayFanOut).foldlM
        (fun moved i => moved.moveLeaf (children i)) p) :=
  foldlM_simulates (moveLeaf_simulates different sourceSlots) _ start

/-! ## The fold loop -/

/-- What holds between two iterations of the fold loop. -/
structure SlotsMatch (newN : Nat) (back : Ptr) (index : Nat)
    (before : Heap Object) (cells : Nat → Prop) (fold : Fold) (p : Pass) :
    Prop where
  locals : FoldMatches newN back index fold p
  sound : p.Sound
  next_eq : fold.heap.next = before.next
  frame : Heap.Touches cells before fold.heap
  within : ∀ x, NodeCells newN p.slots x → cells x

/-- The loop only drops subtrees. -/
theorem Visited.owns
    {p q : Pass} {visited : List (Fin assocArrayFanOut)}
    (run : Visited p q visited) {i : Fin assocArrayFanOut} {x : Nat}
    (owned : (q.slots i).Owns x) :
    (p.slots i).Owns x := by
  have isNode : (q.slots i).isMeta = true := by
    by_contra plain
    exact Tree.not_owns_of_plain (Bool.eq_false_iff.mpr plain) x owned
  have wasNode : (p.slots i).isMeta = true := by
    by_contra plain
    rw [run.filled i (Bool.eq_false_iff.mpr plain)] at isNode
    cases isNode
  by_cases member : i ∈ visited
  · rw [← (run.retains i member isNode).1]
    exact owned
  · rw [← run.kept i _ (Or.inl member)]
    · exact owned
    · intro isEmpty
      rw [isEmpty] at wasNode
      cases wasNode

theorem SlotsMatch.step
    {before : Heap Object} {cells : Nat → Prop} {fold next : Fold}
    {p q : Pass} {slot : Fin assocArrayFanOut}
    (here : SlotsMatch newN back index before cells fold p)
    (step : p.foldSlot slot = some q)
    (locals : FoldMatches newN back index next q)
    (nextEq : next.heap.next = before.next)
    (frame : Heap.Touches cells before next.heap) :
    SlotsMatch newN back index before cells next q := by
  have visited := Pass.foldSlot_visited here.sound step
  refine ⟨locals, visited.sound, nextEq, frame, ?_⟩
  rintro x (same | ⟨i, owned⟩)
  · exact here.within x (Or.inl same)
  · exact here.within x (Or.inr ⟨i, visited.owns owned⟩)

/-- The start of an iteration at a child: the shortcut and the child are found
through the slot, and the child's leaves are added to the node's. -/
theorem foldSlot_child
    {fold : Fold} {content : AssocArrayNode} {slot : Fin assocArrayFanOut}
    {lead : Option Lead} {address nr : Nat}
    {children : Fin assocArrayFanOut → Tree}
    (cell : fold.heap.cells newN = some (.node content))
    (here : content.slots slot = (Tree.node lead address nr children).ptr)
    (represented :
      (Tree.node lead address nr children).Represented fold.heap.cells
        (.node newN) slot.val) :
    foldSlot (σ := σ) newN fold slot =
      let counted : AssocArrayNode :=
        { content with nrLeavesOnBranch := content.nrLeavesOnBranch + nr }
      let heap := fold.heap.store newN (.node counted)
      if nr ≤ fold.nrFree + 1 then
        if lead.isSome then .error (.bug .shortcutBeforeFold heap)
        else
          ((List.finRange assocArrayFanOut).foldlM (moveLeaf newN address)
            { fold with
              heap := heap.store newN
                (.node { counted with
                  slots := Function.update counted.slots slot .null })
              nrFree := fold.nrFree + 1
              nextSlot :=
                if slot.val < fold.nextSlot then slot else fold.nextSlot }).map
            fun moved => { moved with heap := moved.heap.free address }
      else
        .ok { fold with heap := heap, retained := true } := by
  obtain ⟨leadHeld, childCell, _⟩ := represented
  have loadNewN := loadNode_some (σ := σ) cell
  have loadChild := loadNode_some (σ := σ) childCell
  cases lead with
  | none =>
      simp only [foldSlot, loadNewN, bind, Except.bind, here, Tree.ptr,
        reduceCtorEq, assocArrayPtrIsLeaf_node, Bool.false_eq_true, or_self,
        if_false, assocArrayPtrIsShortcut, pure, Except.pure,
        assocArrayPtrToMeta, loadChild, Option.isSome_none, Except.map]
  | some front =>
      have loadFront := loadShortcut_some (σ := σ) leadHeld
      simp only [foldSlot, loadNewN, bind, Except.bind, here, Tree.ptr,
        reduceCtorEq, assocArrayPtrIsLeaf_shortcut, Bool.false_eq_true,
        or_self, if_false, assocArrayPtrIsShortcut, if_true, pure,
        Except.pure, assocArrayPtrToMeta, loadFront, loadChild,
        Option.isSome_some]

theorem foldSlot_simulates
    {before : Heap Object} {cells : Nat → Prop}
    (fold : Fold) (p : Pass) (slot : Fin assocArrayFanOut)
    (here : SlotsMatch newN back index before cells fold p) :
    Simulates (SlotsMatch newN back index before cells)
      (Bugged (σ := σ) before cells)
      (foldSlot newN fold slot)
      (p.foldSlot slot) := by
  have held := here.locals.held
  have ownNode : cells newN := here.within newN (Or.inl rfl)
  cases isMeta : (p.slots slot).isMeta with
  | false =>
      rw [Pass.foldSlot_plain isMeta]
      refine ⟨fold, ?_, here⟩
      have skipped :
          (p.slots slot).ptr = .null ∨
            assocArrayPtrIsLeaf (p.slots slot).ptr = true := by
        rcases Tree.cases_of_not_isMeta isMeta with
          isEmpty | ⟨object, isLeaf⟩
        · exact Or.inl (by rw [isEmpty, Tree.ptr_empty])
        · exact Or.inr (by rw [isLeaf]; rfl)
      simp only [foldSlot, loadNode_some held.cell, bind, Except.bind,
        if_pos skipped]
      rfl
  | true =>
      obtain ⟨lead, address, nr, children, content⟩ :=
        Tree.exists_node_of_isMeta (here.sound.whole slot) isMeta
      have represented := held.children slot
      rw [content] at represented
      have owned : (p.slots slot).Owns address := by
        rw [content]
        exact Or.inl rfl
      have childCells : cells address :=
        here.within address (Or.inr ⟨slot, owned⟩)
      have sameSlot :
          (p.slots slot).ptr = (Tree.node lead address nr children).ptr := by
        rw [content]
      have iteration := foldSlot_child (σ := σ) held.cell sameSlot represented
      have countedHeld :=
        held.store (p.nr + nr) p.slots fun i => Or.inl rfl
      have countedFrame :=
        here.frame.andStore (Or.inl ownNode)
          (.node ⟨back, index, fun i => (p.slots i).ptr, p.nr + nr⟩)
      rw [iteration]
      by_cases fits : nr ≤ p.nrFree + 1
      · simp only [here.locals.nrFree_eq, if_pos fits]
        cases lead with
        | some front =>
            simp only [Pass.foldSlot, content, if_pos fits,
              Option.isSome_some, if_true]
            exact ⟨_, rfl, _, _, rfl, countedFrame⟩
        | none =>
            simp only [Option.isSome_none, Bool.false_eq_true, if_false]
            have different : address ≠ newN := by
              rintro rfl
              exact held.apart slot owned
            have childCell := represented.2.1
            have slotsEq :
                Function.update (fun j => (p.slots j).ptr) slot .null =
                  fun j => ((p.opened slot nr).slots j).ptr :=
              ptr_update p.slots slot .empty
            rw [slotsEq]
            have openedHeld :=
              countedHeld.store (p.nr + nr) (p.opened slot nr).slots (by
                intro j
                rw [Pass.opened_slots]
                by_cases same : j = slot
                · subst same
                  right
                  rw [Function.update_self]
                  rfl
                · left
                  rw [Function.update_of_ne same])
            have openedFrame :=
              countedFrame.andStore (Or.inl ownNode)
                (.node ⟨back, index,
                  fun i => ((p.opened slot nr).slots i).ptr, p.nr + nr⟩)
            have openedOutside :
                ∀ j, ¬ ((p.opened slot nr).slots j).Owns address := by
              intro j inside
              rw [Pass.opened_slots] at inside
              by_cases same : j = slot
              · subst same
                rw [Function.update_self] at inside
                exact inside
              · rw [Function.update_of_ne same] at inside
                exact held.disjoint j slot same address inside owned
            have openedCell :
                ((fold.heap.store newN
                    (.node ⟨back, index, fun i => (p.slots i).ptr,
                      p.nr + nr⟩)).store newN
                    (.node ⟨back, index,
                      fun i => ((p.opened slot nr).slots i).ptr,
                      p.nr + nr⟩)).cells address =
                  fold.heap.cells address := by
              rw [Heap.store_cells_of_ne _ _ different,
                Heap.store_cells_of_ne _ _ different]
            have openedNext :
                ((fold.heap.store newN
                    (.node ⟨back, index, fun i => (p.slots i).ptr,
                      p.nr + nr⟩)).store newN
                    (.node ⟨back, index,
                      fun i => ((p.opened slot nr).slots i).ptr,
                      p.nr + nr⟩)).next = before.next :=
              here.next_eq
            generalize
              (fold.heap.store newN
                (.node ⟨back, index, fun i => (p.slots i).ptr,
                  p.nr + nr⟩)).store newN
                (.node ⟨back, index,
                  fun i => ((p.opened slot nr).slots i).ptr, p.nr + nr⟩) =
                opened at openedHeld openedFrame openedCell openedNext ⊢
            rw [childCell] at openedCell
            have start :
                MoveMatches newN back index address
                  ⟨leadBack none (.node newN), leadIndex none slot.val,
                    fun i => (children i).ptr, nr⟩
                  opened
                  { fold with
                    heap := opened
                    nrFree := p.nrFree + 1
                    nextSlot :=
                      if slot.val < fold.nextSlot then slot
                      else fold.nextSlot }
                  (p.opened slot nr) := by
              refine
                ⟨⟨openedHeld, rfl, ?_, here.locals.retained_eq⟩, openedCell,
                  openedOutside, rfl, Heap.Touches.refl _⟩
              simp only [here.locals.nextSlot_eq]
              rfl
            have loop :=
              moveChild_simulates (σ := σ) different rfl start
            have folding :
                p.foldSlot slot =
                  (List.finRange assocArrayFanOut).foldlM
                    (fun moved i => moved.moveLeaf (children i))
                    (p.opened slot nr) := by
              rw [Pass.foldSlot, content]
              simp only [if_pos fits, Option.isSome_none, Bool.false_eq_true,
                if_false]
              rfl
            rw [← folding] at loop
            have onlyNode : ∀ x, x = newN → cells x ∨ before.next ≤ x := by
              rintro x rfl
              exact Or.inl ownNode
            cases folded : p.foldSlot slot with
            | none =>
                rw [folded] at loop
                obtain ⟨failure, stops, check, heap, isBug, frame⟩ := loop
                rw [stops]
                exact ⟨failure, rfl, check, heap, isBug,
                  openedFrame.trans frame onlyNode⟩
            | some q =>
                rw [folded] at loop
                obtain ⟨moved, moves, after⟩ := loop
                rw [moves]
                refine ⟨_, rfl, here.step folded ?_ ?_ ?_⟩
                · exact
                    ⟨after.locals.held.free different after.childOutside,
                      after.locals.nrFree_eq, after.locals.nextSlot_eq,
                      after.locals.retained_eq⟩
                · exact after.next_eq.trans openedNext
                · exact (openedFrame.trans after.frame onlyNode).andFree
                    (Or.inl childCells)
      · have large : p.nrFree + 1 < nr := by omega
        simp only [here.locals.nrFree_eq, if_neg fits]
        rw [Pass.foldSlot_retain content large]
        refine ⟨_, rfl, here.step (Pass.foldSlot_retain content large) ?_
          here.next_eq countedFrame⟩
        exact ⟨countedHeld, rfl, here.locals.nextSlot_eq, rfl⟩

/-! ## One pass -/

/-- The state after a pass that did not stop: the loop's effects, then the jump
back or the excision. -/
def afterPass (variant : Variant) (s : Gc σ) (newN : Nat) (heap : Heap Object)
    (p : Pass) : Gc σ :=
  if variant.retries p.retained p.nr then
    { s with heap := heap, trace := s.trace ++ [.retried newN] }
  else
    { s with
      heap := heap
      nrFree := p.nrFree
      nrLeavesOnTree := p.nr
      label := .excise }

/-- The code at `retry_compress` does what a pass does, and stops at a `BUG_ON`
exactly when the pass does. -/
theorem retryCompress_simulates
    {variant : Variant} {s : Gc σ} {nr : Nat}
    {slots : Fin assocArrayFanOut → Tree}
    (atNode : s.newN = some newN)
    (held : NodeHeld s.heap newN back index nr slots)
    (counted : ∀ i, (slots i).Counted)
    (whole : ∀ i, (slots i).Whole) :
    Simulates
      (fun next p => ∃ heap,
        next = afterPass variant s newN heap p ∧
          heap.next = s.heap.next ∧
          NodeHeld heap newN back index p.nr p.slots ∧
          Heap.Touches (NodeCells newN slots) s.heap heap)
      (Bugged s.heap (NodeCells newN slots))
      (retryCompress variant s)
      (compressPass slots) := by
  have load :
      loadNode (σ := σ) s.heap s.newN =
        .ok (newN, ⟨back, index, fun i => (slots i).ptr, nr⟩) := by
    rw [atNode]
    exact loadNode_some held.cell
  have startHeld := held.store (Pass.start slots).nr slots fun i => Or.inl rfl
  have start :
      SlotsMatch newN back index s.heap (NodeCells newN slots)
        { heap := s.heap.store newN
            (.node ⟨back, index, fun i => (slots i).ptr, (Pass.start slots).nr⟩)
          nrFree := (Pass.start slots).nrFree
          nextSlot := 0
          retained := false }
        (Pass.start slots) :=
    ⟨⟨startHeld, rfl, rfl, rfl⟩, Pass.start_sound counted whole, rfl,
      (Heap.Touches.refl _).andStore (Or.inl (Or.inl rfl)) _,
      fun _ inside => inside⟩
  have loop :=
    foldlM_simulates (foldSlot_simulates (σ := σ))
      (List.finRange assocArrayFanOut) start
  simp only [retryCompress, load, bind, Except.bind]
  change Simulates _ _ _ ((List.finRange assocArrayFanOut).foldlM
    Pass.foldSlot (Pass.start slots))
  cases run : (List.finRange assocArrayFanOut).foldlM
      Pass.foldSlot (Pass.start slots) with
  | none =>
      rw [run] at loop
      obtain ⟨failure, stops, why⟩ := loop
      refine ⟨failure, ?_, why⟩
      rw [Pass.start] at stops
      rw [stops]
  | some p =>
      rw [run] at loop
      obtain ⟨fold, moves, after⟩ := loop
      refine
        ⟨_, ?_, fold.heap, rfl, after.next_eq, after.locals.held, after.frame⟩
      rw [Pass.start] at moves
      rw [moves]
      simp only [loadNode_some after.locals.held.cell, afterPass,
        after.locals.retained_eq, after.locals.nrFree_eq]
      split <;> rfl

end Loops

end KernelStuff.AssocArrayGc
