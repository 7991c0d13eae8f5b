import KernelStuff.AssocArrayGc.PassRefinement

/-!
# Where a subtree hangs

A subtree is collected into a place: the root of the array, or one slot of the
copy of the old parent.  `Linked` says what has been built there since the
machine arrived, and that nothing older was written except the parent's copy.
-/

namespace KernelStuff.AssocArrayGc

open KernelStuff.Library

/-- A place in the new tree, with the old parent the traversal returns to. -/
inductive Place where
  | root
  | slot (oldParent newParent : Nat) (index : Fin assocArrayFanOut)

namespace Place

def oldBack : Place → Ptr
  | .root => .null
  | .slot oldParent _ _ => .node oldParent

def newBack : Place → Ptr
  | .root => .null
  | .slot _ newParent _ => .node newParent

def index : Place → Nat
  | .root => 0
  | .slot _ _ i => i.val

def location : Place → Location
  | .root => .newRoot
  | .slot _ newParent i => .slot newParent i

/-- The one older cell that is written when something is put into the place. -/
def Touched : Place → Nat → Prop
  | .root, _ => False
  | .slot _ newParent _, x => x = newParent

def putRoot (place : Place) (root p : Ptr) : Ptr :=
  match place with
  | .root => p
  | .slot _ _ _ => root

def putHeap (place : Place) (heap : Heap Object) (p : Ptr) : Heap Object :=
  match place with
  | .root => heap
  | .slot _ newParent i =>
      match heap.cells newParent with
      | some (.node content) =>
          heap.store newParent
            (.node { content with
              slots := Function.update content.slots i p })
      | _ => heap

theorem putHeap_touches
    (place : Place) (heap : Heap Object) (p : Ptr) :
    Heap.Touches place.Touched heap (place.putHeap heap p) := by
  cases place with
  | root => exact Heap.Touches.refl heap
  | slot oldParent newParent i =>
      rw [putHeap]
      split
      · apply Heap.Touches.andStore (Heap.Touches.refl heap)
        exact Or.inl rfl
      · exact Heap.Touches.refl heap

@[simp]
theorem putHeap_next (place : Place) (heap : Heap Object) (p : Ptr) :
    (place.putHeap heap p).next = heap.next := by
  cases place with
  | root => rfl
  | slot oldParent newParent i =>
      rw [putHeap]
      split <;> rfl

theorem putHeap_cells_of_untouched
    (place : Place) (heap : Heap Object) (p : Ptr) {x : Nat}
    (untouched : ¬ place.Touched x) :
    (place.putHeap heap p).cells x = heap.cells x := by
  cases place with
  | root => rfl
  | slot oldParent newParent i =>
      rw [putHeap]
      split
      · exact Heap.store_cells_of_ne heap _ untouched
      · rfl

section Hangs

variable {σ : Type}

/-- Compared with `before`, the place holds the pointer `p` and nothing else
about it has changed. -/
def Hangs (place : Place) (before : Gc σ) (p : Ptr) (after : Gc σ) : Prop :=
  match place with
  | .root => after.newRoot = p
  | .slot _ newParent i =>
      after.newRoot = before.newRoot ∧
        ∃ content,
          before.heap.cells newParent = some (.node content) ∧
            after.heap.cells newParent =
              some (.node { content with
                slots := Function.update content.slots i p })

/-- Putting another pointer into the place. -/
theorem Hangs.put
    {place : Place} {before middle after : Gc σ} {p q : Ptr}
    (hangs : place.Hangs before p middle)
    (root : after.newRoot = place.putRoot middle.newRoot q)
    (heap : ∀ x, place.Touched x →
      after.heap.cells x = (place.putHeap middle.heap q).cells x) :
    place.Hangs before q after := by
  cases place with
  | root => exact root
  | slot oldParent newParent i =>
      obtain ⟨sameRoot, content, first, second⟩ := hangs
      refine ⟨root.trans sameRoot, content, first, ?_⟩
      rw [heap newParent rfl]
      simp only [putHeap, second, Function.update_idem]
      exact Heap.store_cells_self _ second

/-- What hangs in the place stays while its cell and the root do. -/
theorem Hangs.congr
    {place : Place} {before middle after : Gc σ} {p : Ptr}
    (hangs : place.Hangs before p middle)
    (root : after.newRoot = middle.newRoot)
    (heap : ∀ x, place.Touched x →
      after.heap.cells x = middle.heap.cells x) :
    place.Hangs before p after := by
  cases place with
  | root => exact root.trans hangs
  | slot oldParent newParent i =>
      obtain ⟨sameRoot, content, first, second⟩ := hangs
      exact ⟨root.trans sameRoot, content, first, by rw [heap newParent rfl, second]⟩

/-- A touched cell is a live cell of the state the machine arrived in. -/
theorem Hangs.touched_lt
    {place : Place} {before after : Gc σ} {p : Ptr} {x : Nat}
    (hangs : place.Hangs before p after)
    (touched : place.Touched x) :
    x < before.heap.next := by
  cases place with
  | root => exact False.elim touched
  | slot oldParent newParent i =>
      obtain ⟨_, content, first, _⟩ := hangs
      cases touched
      exact Heap.lt_next_of_cells first

theorem storePtr_eq
    {place : Place} {before s : Gc σ} {p : Ptr} (value : Ptr)
    (hangs : place.Hangs before p s)
    (atPlace : s.newPtrPp = place.location) :
    storePtr s value =
      .ok { s with
        newRoot := place.putRoot s.newRoot value
        heap := place.putHeap s.heap value } := by
  cases place with
  | root =>
      rw [storePtr, atPlace]
      rfl
  | slot oldParent newParent i =>
      obtain ⟨_, content, _, live⟩ := hangs
      rw [storePtr, atPlace]
      simp only [location, loadNode_some live, bind, Except.bind, putHeap, live,
        putRoot]
      rfl

end Hangs

end Place

section Linked

variable {σ : Type}

/-- Since `before` the tree `t` has been built and hung into the place. -/
structure Linked (place : Place) (before : Gc σ) (t : Tree)
    (ledger : Ledger σ) (after : Gc σ) : Prop where
  array_eq : after.array = before.array
  edit_eq : after.edit = before.edit
  iteratorData_eq : after.iteratorData = ledger.iteratorData
  trace_eq : after.trace = ledger.trace
  next_eq : after.heap.next = ledger.next
  frame : Heap.Touches place.Touched before.heap after.heap
  hangs : place.Hangs before t.ptr after
  represented : t.Represented after.heap.cells place.newBack place.index
  separated : t.Separated
  fresh : ∀ x, t.Owns x → before.heap.next ≤ x

/-- What is threaded through a run, read off the machine's state. -/
def ledgerOf (s : Gc σ) : Ledger σ where
  iteratorData := s.iteratorData
  trace := s.trace
  next := s.heap.next

/-- Nothing has been built yet. -/
theorem Linked.start
    {place : Place} {s : Gc σ}
    (vacant : place.Hangs s .null s) :
    Linked place s .empty (ledgerOf s) s where
  array_eq := rfl
  edit_eq := rfl
  iteratorData_eq := rfl
  trace_eq := rfl
  next_eq := rfl
  frame := Heap.Touches.refl _
  hangs := vacant
  represented := trivial
  separated := trivial
  fresh := fun _ impossible => False.elim impossible

/-- An owned cell has been allocated. -/
theorem Linked.owned_lt
    {place : Place} {before s : Gc σ} {t : Tree} {ledger : Ledger σ} {x : Nat}
    (linked : Linked place before t ledger s)
    (owned : t.Owns x) :
    x < s.heap.next := by
  obtain ⟨content, live⟩ := linked.represented.live owned
  exact Heap.lt_next_of_cells live

/-- The tree does not own the cell its place lies in. -/
theorem Linked.not_touched
    {place : Place} {before s : Gc σ} {t : Tree} {ledger : Ledger σ} {x : Nat}
    (linked : Linked place before t ledger s)
    (owned : t.Owns x) :
    ¬ place.Touched x := by
  intro touched
  have old := linked.hangs.touched_lt touched
  have new := linked.fresh x owned
  omega

/-- Only the heap, the root and the threaded values of the state matter. -/
theorem Linked.congr
    {place : Place} {before after next : Gc σ} {ledger later : Ledger σ}
    {t : Tree}
    (linked : Linked place before t ledger after)
    (arrayEq : next.array = after.array)
    (editEq : next.edit = after.edit)
    (rootEq : next.newRoot = after.newRoot)
    (heapEq : next.heap = after.heap)
    (dataEq : next.iteratorData = later.iteratorData)
    (traceEq : next.trace = later.trace)
    (nextEq : later.next = ledger.next) :
    Linked place before t later next where
  array_eq := arrayEq.trans linked.array_eq
  edit_eq := editEq.trans linked.edit_eq
  iteratorData_eq := dataEq
  trace_eq := traceEq
  next_eq := by rw [heapEq, nextEq, linked.next_eq]
  frame := by
    rw [heapEq]
    exact linked.frame
  hangs := linked.hangs.congr rootEq fun x _ => by rw [heapEq]
  represented := by
    rw [heapEq]
    exact linked.represented
  separated := linked.separated
  fresh := linked.fresh

/-- Of the state the machine arrived in, too, only the array, the root and the
heap matter. -/
theorem Linked.source_congr
    {place : Place} {before source after : Gc σ} {ledger : Ledger σ} {t : Tree}
    (linked : Linked place before t ledger after)
    (arrayEq : before.array = source.array)
    (editEq : before.edit = source.edit)
    (rootEq : before.newRoot = source.newRoot)
    (heapEq : before.heap = source.heap) :
    Linked place source t ledger after where
  array_eq := linked.array_eq.trans arrayEq
  edit_eq := linked.edit_eq.trans editEq
  iteratorData_eq := linked.iteratorData_eq
  trace_eq := linked.trace_eq
  next_eq := linked.next_eq
  frame := by
    rw [← heapEq]
    exact linked.frame
  hangs := by
    have hangs := linked.hangs
    cases place with
    | root => exact hangs
    | slot oldParent newParent i =>
        rw [Place.Hangs, ← rootEq, ← heapEq]
        exact hangs
  represented := linked.represented
  separated := linked.separated
  fresh := by
    rw [← heapEq]
    exact linked.fresh

/-- Writing inside the tree leaves the place alone. -/
theorem Linked.frame_place
    {place : Place} {before after : Gc σ} {ledger : Ledger σ} {t : Tree}
    {heap : Heap Object} {x : Nat}
    (linked : Linked place before t ledger after)
    (frame : Heap.Touches t.Owns after.heap heap)
    (touched : place.Touched x) :
    heap.cells x = after.heap.cells x := by
  have old := linked.hangs.touched_lt touched
  apply frame.cells_eq x (Nat.lt_of_lt_of_le old linked.frame.next_le)
  exact fun inside => linked.not_touched inside touched

/-- The tree is rebuilt in place: the same pointer leads to another tree. -/
theorem Linked.rebuild
    {place : Place} {before after next : Gc σ} {ledger later : Ledger σ}
    {t u : Tree}
    (linked : Linked place before t ledger after)
    (ptrEq : u.ptr = t.ptr)
    (fresh : ∀ x, u.Owns x → before.heap.next ≤ x)
    (separated : u.Separated)
    (frame : Heap.Touches t.Owns after.heap next.heap)
    (represented :
      u.Represented next.heap.cells place.newBack place.index)
    (arrayEq : next.array = after.array)
    (editEq : next.edit = after.edit)
    (rootEq : next.newRoot = after.newRoot)
    (dataEq : next.iteratorData = later.iteratorData)
    (traceEq : next.trace = later.trace)
    (nextEq : next.heap.next = later.next) :
    Linked place before u later next where
  array_eq := arrayEq.trans linked.array_eq
  edit_eq := editEq.trans linked.edit_eq
  iteratorData_eq := dataEq
  trace_eq := traceEq
  next_eq := nextEq
  frame :=
    linked.frame.trans frame fun x inside => Or.inr (linked.fresh x inside)
  hangs := by
    rw [ptrEq]
    exact linked.hangs.congr rootEq fun x touched =>
      linked.frame_place frame touched
  represented := represented
  separated := separated
  fresh := fresh

/-- Something else is hung into the place. -/
theorem Linked.replace
    {place : Place} {before after next : Gc σ} {ledger later : Ledger σ}
    {t u : Tree} {heap : Heap Object}
    (linked : Linked place before t ledger after)
    (fresh : ∀ x, u.Owns x → before.heap.next ≤ x)
    (separated : u.Separated)
    (frame : Heap.Touches t.Owns after.heap heap)
    (represented : u.Represented heap.cells place.newBack place.index)
    (arrayEq : next.array = after.array)
    (editEq : next.edit = after.edit)
    (rootEq : next.newRoot = place.putRoot after.newRoot u.ptr)
    (heapEq : next.heap = place.putHeap heap u.ptr)
    (dataEq : next.iteratorData = later.iteratorData)
    (traceEq : next.trace = later.trace)
    (nextEq : heap.next = later.next) :
    Linked place before u later next := by
  have middle :
      place.Hangs before t.ptr { after with heap := heap } := by
    have kept :
        ∀ x, place.Touched x → heap.cells x = after.heap.cells x :=
      fun x touched => linked.frame_place frame touched
    exact linked.hangs.congr rfl kept
  constructor
  · exact arrayEq.trans linked.array_eq
  · exact editEq.trans linked.edit_eq
  · exact dataEq
  · exact traceEq
  · rw [heapEq, Place.putHeap_next, nextEq]
  · rw [heapEq]
    have rewritten :=
      linked.frame.trans frame fun x inside => Or.inr (linked.fresh x inside)
    exact rewritten.trans (place.putHeap_touches heap u.ptr) fun x => Or.inl
  · exact middle.put rootEq fun x _ => by rw [heapEq]
  · rw [heapEq]
    apply Tree.Represented.congr _ represented
    intro x inside
    apply place.putHeap_cells_of_untouched heap u.ptr
    intro touched
    have old := linked.hangs.touched_lt touched
    have new := fresh x inside
    omega
  · exact separated
  · exact fresh

theorem owns_update
    {slots : Fin assocArrayFanOut → Tree} {k i : Fin assocArrayFanOut}
    {t : Tree} {x : Nat}
    (owned : (Function.update slots k t i).Owns x) :
    (i = k ∧ t.Owns x) ∨ (i ≠ k ∧ (slots i).Owns x) := by
  by_cases same : i = k
  · subst same
    rw [Function.update_self] at owned
    exact Or.inl ⟨rfl, owned⟩
  · rw [Function.update_of_ne same] at owned
    exact Or.inr ⟨same, owned⟩

theorem Tree.ptr_node_congr
    (lead : Option Lead) (address nr other : Nat)
    (slots others : Fin assocArrayFanOut → Tree) :
    (Tree.node lead address nr slots).ptr =
      (Tree.node lead address other others).ptr := by
  cases lead <;> rfl

/-- A subtree collected into a free slot of a node that is itself linked. -/
theorem Linked.extend
    {place : Place} {before s after : Gc σ} {ledger later : Ledger σ}
    {front : Option Lead} {copy nr oldParent : Nat}
    {filtered : Fin assocArrayFanOut → Tree} {k : Fin assocArrayFanOut}
    {t : Tree}
    (parent : Linked place before (.node front copy nr filtered) ledger s)
    (child : Linked (.slot oldParent copy k) s t later after) :
    Linked place before (.node front copy nr (Function.update filtered k t))
      later after := by
  have copyOwned : (Tree.node front copy nr filtered).Owns copy := Or.inl rfl
  have copyFresh := parent.fresh copy copyOwned
  have earlier :
      ∀ x, (Tree.node front copy nr filtered).Owns x → x < s.heap.next :=
    fun x owned => parent.owned_lt owned
  have kept :
      ∀ x, x < s.heap.next → x ≠ copy →
        after.heap.cells x = s.heap.cells x := by
    intro x below different
    exact child.frame.cells_eq x below different
  obtain ⟨leadHeld, cell, children⟩ := parent.represented
  obtain ⟨leadApart, copyApart, disjoint, childrenSeparated⟩ := parent.separated
  obtain ⟨sameRoot, content, cellBefore, cellAfter⟩ := child.hangs
  have updated :
      after.heap.cells copy =
        some (.node ⟨leadBack front place.newBack,
          leadIndex front place.index,
          fun i => (Function.update filtered k t i).ptr, nr⟩) := by
    rw [cell] at cellBefore
    cases cellBefore
    rw [cellAfter, ← ptr_update]
  constructor
  · exact child.array_eq.trans parent.array_eq
  · exact child.edit_eq.trans parent.edit_eq
  · exact child.iteratorData_eq
  · exact child.trace_eq
  · exact child.next_eq
  · apply parent.frame.trans child.frame
    rintro x rfl
    exact Or.inr copyFresh
  · rw [Tree.ptr_node_congr front copy nr nr _ filtered]
    apply parent.hangs.congr sameRoot
    intro x touched
    have old := parent.hangs.touched_lt touched
    apply kept x (Nat.lt_of_lt_of_le old parent.frame.next_le)
    omega
  · refine ⟨?_, updated, ?_⟩
    · cases front with
      | none => trivial
      | some lead =>
          change after.heap.cells lead.address = _
          rw [kept lead.address
            (earlier _ (Or.inr (Or.inl ⟨lead, rfl, rfl⟩)))
            (leadApart lead rfl).1]
          exact leadHeld
    · intro i
      by_cases same : i = k
      · subst same
        rw [Function.update_self]
        exact child.represented
      · rw [Function.update_of_ne same]
        apply Tree.Represented.congr _ (children i)
        intro x owned
        apply kept x (earlier x (Or.inr (Or.inr ⟨i, owned⟩)))
        rintro rfl
        exact copyApart i owned
  · refine ⟨?_, ?_, ?_, ?_⟩
    · intro lead isLead
      refine ⟨(leadApart lead isLead).1, ?_⟩
      intro i owned
      rcases owns_update owned with ⟨_, new⟩ | ⟨_, old⟩
      · have late := child.fresh _ new
        have early := earlier _ (Or.inr (Or.inl ⟨lead, isLead, rfl⟩))
        omega
      · exact (leadApart lead isLead).2 i old
    · intro i owned
      rcases owns_update owned with ⟨_, new⟩ | ⟨_, old⟩
      · have late := child.fresh _ new
        have early := earlier _ copyOwned
        omega
      · exact copyApart i old
    · intro i j different x left right
      rcases owns_update left with ⟨atK, new⟩ | ⟨_, old⟩ <;>
        rcases owns_update right with ⟨alsoAtK, alsoNew⟩ | ⟨_, alsoOld⟩
      · exact different (atK.trans alsoAtK.symm)
      · have late := child.fresh _ new
        have early := earlier _ (Or.inr (Or.inr ⟨j, alsoOld⟩))
        omega
      · have late := child.fresh _ alsoNew
        have early := earlier _ (Or.inr (Or.inr ⟨i, old⟩))
        omega
      · exact disjoint i j different x old alsoOld
    · intro i
      by_cases same : i = k
      · subst same
        rw [Function.update_self]
        exact child.separated
      · rw [Function.update_of_ne same]
        exact childrenSeparated i
  · rintro x (same | ⟨lead, isLead, same⟩ | ⟨i, owned⟩)
    · exact parent.fresh x (Or.inl same)
    · exact parent.fresh x (Or.inr (Or.inl ⟨lead, isLead, same⟩))
    · rcases owns_update owned with ⟨_, new⟩ | ⟨_, old⟩
      · exact Nat.le_trans parent.frame.next_le (child.fresh x new)
      · exact parent.fresh x (Or.inr (Or.inr ⟨i, old⟩))

/-! ## A linked node under compression -/

theorem Linked.nodeHeld
    {place : Place} {before s : Gc σ} {ledger : Ledger σ}
    {front : Option Lead} {copy nr : Nat}
    {slots : Fin assocArrayFanOut → Tree}
    (linked : Linked place before (.node front copy nr slots) ledger s) :
    NodeHeld s.heap copy (leadBack front place.newBack)
      (leadIndex front place.index) nr slots where
  cell := linked.represented.2.1
  children := linked.represented.2.2
  apart := linked.separated.2.1
  disjoint := linked.separated.2.2.1
  separated := linked.separated.2.2.2

/-- The shortcut in front of the node is out of reach of the compress loop. -/
theorem Linked.compressed
    {place : Place} {before s after : Gc σ} {ledger later : Ledger σ}
    {front : Option Lead} {copy nr newNr : Nat}
    {slots newSlots : Fin assocArrayFanOut → Tree}
    (linked : Linked place before (.node front copy nr slots) ledger s)
    (held : NodeHeld after.heap copy (leadBack front place.newBack)
      (leadIndex front place.index) newNr newSlots)
    (owned : ∀ i x, (newSlots i).Owns x → (slots i).Owns x)
    (frame : Heap.Touches (NodeCells copy slots) s.heap after.heap)
    (arrayEq : after.array = s.array)
    (editEq : after.edit = s.edit)
    (rootEq : after.newRoot = s.newRoot)
    (dataEq : after.iteratorData = later.iteratorData)
    (traceEq : after.trace = later.trace)
    (nextEq : after.heap.next = later.next) :
    Linked place before (.node front copy newNr newSlots) later after := by
  obtain ⟨leadHeld, cell, children⟩ := linked.represented
  obtain ⟨leadApart, _, _, _⟩ := linked.separated
  have inside :
      ∀ x, NodeCells copy slots x → (Tree.node front copy nr slots).Owns x := by
    rintro x (same | inSlot)
    · exact Or.inl same
    · exact Or.inr (Or.inr inSlot)
  refine
    linked.rebuild (Tree.ptr_node_congr front copy newNr nr newSlots slots) ?_
      ?_ (frame.mono fun x within => Or.inl (inside x within)) ?_ arrayEq
      editEq rootEq dataEq traceEq nextEq
  · rintro x (same | ⟨lead, isLead, same⟩ | ⟨i, inSlot⟩)
    · exact linked.fresh x (Or.inl same)
    · exact linked.fresh x (Or.inr (Or.inl ⟨lead, isLead, same⟩))
    · exact linked.fresh x (Or.inr (Or.inr ⟨i, owned i x inSlot⟩))
  · refine ⟨?_, held.apart, held.disjoint, held.separated⟩
    intro lead isLead
    exact
      ⟨(leadApart lead isLead).1,
        fun i inSlot => (leadApart lead isLead).2 i (owned i _ inSlot)⟩
  · refine ⟨?_, held.cell, held.children⟩
    cases front with
    | none => trivial
    | some lead =>
        change after.heap.cells lead.address = _
        rw [frame.cells_eq lead.address
          (linked.owned_lt (Or.inr (Or.inl ⟨lead, rfl, rfl⟩)))]
        · exact leadHeld
        · rintro (same | ⟨i, inSlot⟩)
          · exact (leadApart lead rfl).1 same
          · exact (leadApart lead rfl).2 i inSlot

end Linked

end KernelStuff.AssocArrayGc
