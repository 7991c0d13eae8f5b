import KernelStuff.AssocArrayGc.Machine
import KernelStuff.Library.Slots

/-!
# Trees

`Tree` is the finite tree a pointer of the array leads to: nothing, a leaf, or a
node with an optional shortcut in front of it.  Nodes and shortcuts keep their
heap address and the node its `nr_leaves_on_branch`, so a tree determines every
object it stands for; `Represented` says that the heap holds those objects.

A `dangling` tree is a shortcut whose `next_node` has not been redirected yet.
It occurs only when an allocation fails.
-/

namespace KernelStuff.AssocArrayGc

open KernelStuff.Library

/-- A shortcut in front of a node. -/
structure Lead where
  address : Nat
  key : SkipKey
  deriving DecidableEq

inductive Tree where
  | empty
  | leaf (object : Leaf)
  | node (lead : Option Lead) (address nrLeavesOnBranch : Nat)
      (slots : Fin assocArrayFanOut → Tree)
  | dangling (lead : Lead) (nextNode : Ptr)

namespace Tree

/-- The pointer a slot holding this tree contains. -/
def ptr : Tree → Ptr
  | .empty => .null
  | .leaf object => .leaf object
  | .node none address _ _ => .node address
  | .node (some lead) _ _ _ => .shortcut lead.address
  | .dangling lead _ => .shortcut lead.address

/-- The slot holds a node or a shortcut. -/
def isMeta (t : Tree) : Bool :=
  assocArrayPtrIsMeta t.ptr

/-- The leaves in depth-first slot order. -/
def leaves : Tree → List Leaf
  | .empty => []
  | .leaf object => [object]
  | .node _ _ _ slots =>
      (List.finRange assocArrayFanOut).flatMap fun i => (slots i).leaves
  | .dangling _ _ => []

def leafCount (t : Tree) : Nat :=
  t.leaves.length

/-- The heap addresses of the nodes and shortcuts of the tree. -/
def Owns : Tree → Nat → Prop
  | .empty, _ => False
  | .leaf _, _ => False
  | .node lead address _ slots, x =>
      x = address ∨ (∃ front, lead = some front ∧ x = front.address) ∨
        ∃ i, (slots i).Owns x
  | .dangling lead _, x => x = lead.address

/-- No shortcut of the tree dangles. -/
def Whole : Tree → Prop
  | .empty => True
  | .leaf _ => True
  | .node _ _ _ slots => ∀ i, (slots i).Whole
  | .dangling _ _ => False

/-- Every node records the number of leaves in its subtree. -/
def Counted : Tree → Prop
  | .empty => True
  | .leaf _ => True
  | .node _ _ nrLeavesOnBranch slots =>
      nrLeavesOnBranch =
          ((List.finRange assocArrayFanOut).flatMap
            fun i => (slots i).leaves).length ∧
        ∀ i, (slots i).Counted
  | .dangling _ _ => True

/-- All objects of the tree are different objects. -/
def Separated : Tree → Prop
  | .empty => True
  | .leaf _ => True
  | .node lead address _ slots =>
      (∀ front, lead = some front →
        front.address ≠ address ∧ ∀ i, ¬ (slots i).Owns front.address) ∧
      (∀ i, ¬ (slots i).Owns address) ∧
      (∀ i j, i ≠ j → ∀ x, (slots i).Owns x → ¬ (slots j).Owns x) ∧
      ∀ i, (slots i).Separated
  | .dangling _ _ => True

end Tree

/-- The back pointer of a node: the shortcut in front of it, or the place the
subtree hangs in. -/
def leadBack : Option Lead → Ptr → Ptr
  | none, back => back
  | some front, _ => .shortcut front.address

def leadIndex : Option Lead → Nat → Nat
  | none, index => index
  | some _, _ => 0

/-- The heap holds the shortcut in front of the node at `address`. -/
def LeadRepresented (cells : Nat → Option Object) (back : Ptr) (index : Nat)
    (address : Nat) : Option Lead → Prop
  | none => True
  | some front =>
      cells front.address =
        some (.shortcut ⟨back, index, .node address, front.key⟩)

/-- The heap holds the objects of the tree, hung into slot `index` of the object
`back` points to. -/
def Tree.Represented (cells : Nat → Option Object) :
    Ptr → Nat → Tree → Prop
  | _, _, .empty => True
  | _, _, .leaf _ => True
  | back, index, .node lead address nrLeavesOnBranch slots =>
      LeadRepresented cells back index address lead ∧
      cells address =
        some (.node ⟨leadBack lead back, leadIndex lead index,
          fun i => (slots i).ptr, nrLeavesOnBranch⟩) ∧
      ∀ i, (slots i).Represented cells (.node address) i.val
  | back, index, .dangling lead nextNode =>
      cells lead.address =
        some (.shortcut ⟨back, index, nextNode, lead.key⟩)

/-- A well-formed non-empty array: its root leads to a finite tree whose every
node and shortcut carries the back pointer and parent slot of the place that
points to it. -/
structure WellFormed (heap : Heap Object) (array : AssocArray) (t : Tree) :
    Prop where
  root_meta : t.isMeta = true
  root_ptr : array.root = t.ptr
  whole : t.Whole
  represented : t.Represented heap.cells .null 0

namespace Tree

@[simp]
theorem ptr_empty : Tree.empty.ptr = .null := rfl

@[simp]
theorem ptr_leaf (object : Leaf) : (Tree.leaf object).ptr = .leaf object := rfl

@[simp]
theorem isMeta_empty : Tree.empty.isMeta = false := rfl

@[simp]
theorem isMeta_leaf (object : Leaf) : (Tree.leaf object).isMeta = false := rfl

@[simp]
theorem isMeta_node
    (lead : Option Lead) (address nr : Nat)
    (slots : Fin assocArrayFanOut → Tree) :
    (Tree.node lead address nr slots).isMeta = true := by
  cases lead <;> rfl

theorem ptr_eq_null_iff (t : Tree) : t.ptr = .null ↔ t = .empty := by
  rcases t with _ | object | ⟨_ | front, address, nr, slots⟩ | ⟨lead, next⟩ <;>
    simp [ptr]

/-- A tree is nothing, a leaf, or something a meta pointer leads to. -/
theorem cases_of_not_isMeta {t : Tree} (plain : t.isMeta = false) :
    t = .empty ∨ ∃ object, t = .leaf object := by
  rcases t with _ | object | ⟨_ | front, address, nr, slots⟩ | ⟨lead, next⟩
  · exact Or.inl rfl
  · exact Or.inr ⟨object, rfl⟩
  all_goals cases plain

theorem exists_node_of_isMeta {t : Tree}
    (whole : t.Whole) (isNode : t.isMeta = true) :
    ∃ lead address nr slots, t = .node lead address nr slots := by
  rcases t with _ | object | ⟨lead, address, nr, slots⟩ | ⟨lead, next⟩
  · cases isNode
  · cases isNode
  · exact ⟨lead, address, nr, slots, rfl⟩
  · exact False.elim whole

theorem leafCount_node
    (lead : Option Lead) (address nr : Nat)
    (slots : Fin assocArrayFanOut → Tree) :
    (Tree.node lead address nr slots).leafCount =
      ∑ i, (slots i).leafCount := by
  simp only [leafCount, leaves, List.length_flatMap, Fin.sum_univ_def]

theorem Counted.nr_eq
    {lead : Option Lead} {address nr : Nat}
    {slots : Fin assocArrayFanOut → Tree}
    (counted : (Tree.node lead address nr slots).Counted) :
    nr = ∑ i, (slots i).leafCount := by
  rw [← leafCount_node lead address nr slots]
  exact counted.1

/-- Only the owned cells matter. -/
theorem Represented.congr {cells other : Nat → Option Object} :
    ∀ {t : Tree} {back : Ptr} {index : Nat},
      (∀ x, t.Owns x → other x = cells x) →
        t.Represented cells back index → t.Represented other back index
  | .empty, _, _, _, _ => trivial
  | .leaf _, _, _, _, _ => trivial
  | .node lead address nr slots, back, index, agree, represented => by
      obtain ⟨leadHeld, nodeHeld, children⟩ := represented
      refine ⟨?_, ?_, ?_⟩
      · cases lead with
        | none => trivial
        | some front =>
            change other front.address = _
            rw [agree front.address (Or.inr (Or.inl ⟨front, rfl, rfl⟩))]
            exact leadHeld
      · rw [agree address (Or.inl rfl)]
        exact nodeHeld
      · intro i
        exact Represented.congr
          (fun x owned => agree x (Or.inr (Or.inr ⟨i, owned⟩))) (children i)
  | .dangling lead nextNode, _, _, agree, represented => by
      change other lead.address = _
      rw [agree lead.address rfl]
      exact represented

/-- Every owned cell is live. -/
theorem Represented.live {cells : Nat → Option Object} :
    ∀ {t : Tree} {back : Ptr} {index x : Nat},
      t.Represented cells back index → t.Owns x → ∃ content,
        cells x = some content
  | .node lead address nr slots, back, index, x, represented, owned => by
      obtain ⟨leadHeld, nodeHeld, children⟩ := represented
      rcases owned with same | ⟨front, isLead, same⟩ | ⟨i, inside⟩
      · subst same
        exact ⟨_, nodeHeld⟩
      · subst isLead
        subst same
        exact ⟨_, leadHeld⟩
      · exact Represented.live (children i) inside
  | .dangling lead nextNode, _, _, x, represented, owned => by
      cases owned
      exact ⟨_, represented⟩

/-- The heap determines what a meta pointer leads to. -/
theorem lead_unique
    {cells : Nat → Option Object} {back : Ptr} {index : Nat}
    {lead other : Option Lead} {address x nr nr' : Nat}
    {slots children : Fin assocArrayFanOut → Tree}
    (held : LeadRepresented cells back index address lead)
    (otherHeld : LeadRepresented cells back index x other)
    (same : (Tree.node lead address nr slots).ptr =
      (Tree.node other x nr' children).ptr) :
    lead = other ∧ address = x := by
  rcases lead with _ | ⟨front, key⟩ <;> rcases other with _ | ⟨ahead, skip⟩
  · exact ⟨rfl, Ptr.node.inj same⟩
  · cases same
  · cases same
  · have sameFront : front = ahead := Ptr.shortcut.inj same
    subst sameFront
    have content := (Eq.symm held).trans otherHeld
    simp only [Option.some.injEq, Object.shortcut.injEq,
      AssocArrayShortcut.mk.injEq, true_and, Ptr.node.injEq] at content
    obtain ⟨sameAddress, sameKey⟩ := content
    rw [sameAddress, sameKey]
    exact ⟨rfl, rfl⟩

/-- The heap holds at most one tree under a pointer. -/
theorem Represented.unique {cells : Nat → Option Object} :
    ∀ {t u : Tree} {back : Ptr} {index : Nat},
      t.Whole → u.Whole → t.Represented cells back index →
        u.Represented cells back index → t.ptr = u.ptr → t = u
  | .empty, u, _, _, _, _, _, _, same =>
      ((u.ptr_eq_null_iff).mp same.symm).symm
  | .leaf object, u, _, _, _, whole, _, _, same => by
      rcases u with _ | other | ⟨_ | front, address, nr, slots⟩ | ⟨lead, next⟩
      · cases same
      · exact congrArg Tree.leaf (Ptr.leaf.inj same)
      all_goals cases same
  | .node lead address nr slots, u, _, _, whole, otherWhole, represented,
      otherRepresented, same => by
      have isNode : u.isMeta = true := by
        rw [Tree.isMeta, ← same]
        exact Tree.isMeta_node lead address nr slots
      obtain ⟨other, x, nr', children, shape⟩ :=
        Tree.exists_node_of_isMeta otherWhole isNode
      subst shape
      obtain ⟨sameLead, sameAddress⟩ :=
        lead_unique represented.1 otherRepresented.1 same
      subst sameLead
      subst sameAddress
      have held := represented.2.1.symm.trans otherRepresented.2.1
      simp only [Option.some.injEq, Object.node.injEq,
        AssocArrayNode.mk.injEq, true_and] at held
      obtain ⟨slotPtrs, sameNr⟩ := held
      have sameSlots : slots = children := by
        funext i
        exact
          Represented.unique (whole i) (otherWhole i) (represented.2.2 i)
            (otherRepresented.2.2 i) (congrFun slotPtrs i)
      rw [sameNr, sameSlots]
  | .dangling lead next, _, _, _, whole, _, _, _, _ => False.elim whole

end Tree

/-- The heap and the array determine the tree. -/
theorem WellFormed.unique
    {heap : Heap Object} {array : AssocArray} {t u : Tree}
    (left : WellFormed heap array t) (right : WellFormed heap array u) :
    t = u := by
  apply Tree.Represented.unique left.whole right.whole left.represented
    right.represented
  rw [← left.root_ptr, right.root_ptr]

end KernelStuff.AssocArrayGc
