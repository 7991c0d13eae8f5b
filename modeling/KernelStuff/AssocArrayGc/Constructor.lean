import KernelStuff.AssocArrayGc.Tree

/-!
# The constructor of the reproducer

`assoc_array_constructor.py` walks an array in a core dump and prints C
statements; `repro.c` includes them in `make_array`, between its helpers and one
variable `node`.  A statement here is the line that is printed, so running the
list is running `make_array`.

The script calls itself, and so takes fuel.
-/

namespace KernelStuff.AssocArrayGc

open KernelStuff.Library

/-! ## The script -/

/-- A line of `construct_array.c`. -/
inductive Statement where
  /-- `array->nr_leaves_on_tree = nt;` -/
  | setTotal (nt : Nat)
  /-- `node = mknode();` -/
  | makeNode
  /-- `array->root = assoc_array_node_to_ptr(node);` -/
  | setRoot
  /-- `set_data(node, ps, nb);` -/
  | setData (ps nb : Nat)
  /-- `set_node(node, i);` -/
  | setNode (i : Fin assocArrayFanOut)
  /-- `node = get_node(node, i);` -/
  | getNode (i : Fin assocArrayFanOut)
  /-- `node = get_parent(node);` -/
  | getParent
  /-- `set_leaf(node, i, ptr_long);` -/
  | setLeaf (i : Fin assocArrayFanOut) (object : Leaf)
  deriving DecidableEq

/-- `(ptr_long & 0x3) == 0x3`. -/
def scriptPtrIsShortcut : Ptr → Bool
  | .shortcut _ => true
  | _ => false

/-- `ptr_long & 0x1 and not (ptr_long & 0x2)`. -/
def scriptPtrIsNode : Ptr → Bool
  | .node _ => true
  | _ => false

/-- `assoc_array_ptr_to_node` with its assertion. -/
def scriptPtrToNode : Ptr → Option Nat
  | .node address => some address
  | _ => none

section Words

variable (location : Nat → BitVec 64)
variable
  (aligned :
    ∀ address,
      location address &&& assocArrayPtrTypeMask = 0#64 ∧
        location address &&& assocArrayPtrSubtypeMask = 0#64)

include aligned

/-- Unlike the C function, the test of the script looks at both tag bits. -/
theorem scriptPtrIsShortcut_toWord (x : Ptr) :
    scriptPtrIsShortcut x =
      (x.toWord location &&& assocArrayPtrTypeMask != 0#64 &&
        x.toWord location &&& assocArrayPtrSubtypeMask != 0#64) := by
  rw [← assocArrayPtrIsMeta_toWord location aligned,
    ← assocArrayPtrIsShortcut_toWord location aligned]
  cases x with
  | leaf object => rfl
  | null => rfl
  | node address => rfl
  | shortcut address => rfl

theorem scriptPtrIsNode_toWord (x : Ptr) :
    scriptPtrIsNode x =
      (x.toWord location &&& assocArrayPtrTypeMask != 0#64 &&
        !(x.toWord location &&& assocArrayPtrSubtypeMask != 0#64)) := by
  rw [← assocArrayPtrIsMeta_toWord location aligned,
    ← assocArrayPtrIsShortcut_toWord location aligned]
  cases x with
  | leaf object => rfl
  | null => rfl
  | node address => rfl
  | shortcut address => rfl

end Words

/-- One round of the loop of `construct_node`. -/
def constructSlot (constructChild : Nat → Option (List Statement))
    (i : Fin assocArrayFanOut) (ptr : Ptr) : Option (List Statement) :=
  if scriptPtrIsShortcut ptr then none
  else if scriptPtrIsNode ptr then do
    let child ← scriptPtrToNode ptr
    let stmts ← constructChild child
    return .setNode i :: .getNode i :: stmts ++ [.getParent]
  else
    match ptr with
    | .leaf object => some [.setLeaf i object]
    | _ => some []

/-- `construct_node`. -/
def constructNode (heap : Heap Object) :
    Nat → Nat → Option (List Statement)
  | 0, _ => none
  | fuel + 1, address =>
      match heap.cells address with
      | some (.node node) => do
          let stmts ← (List.finRange assocArrayFanOut).mapM fun i =>
            constructSlot (constructNode heap fuel) i (node.slots i)
          return .setData node.parentSlot node.nrLeavesOnBranch ::
            stmts.flatten
      | _ => none

/-- `construct_array`. -/
def constructArray (heap : Heap Object) (fuel : Nat) (array : AssocArray) :
    Option (List Statement) := do
  let node ← scriptPtrToNode array.root
  let stmts ← constructNode heap fuel node
  return .setTotal array.nrLeavesOnTree :: .makeNode :: .setRoot :: stmts

/-! ## The helpers -/

/-- `make_array` while it runs. -/
structure Builder where
  heap : Heap Object
  array : AssocArray
  node : Option Nat

inductive BuildFault where
  | getNodeAssertion
  | getParentAssertion
  | wildPointer
  deriving DecidableEq

/-- What a pointer to a node points to. -/
def nodeAt (heap : Heap Object) (target : Option Nat) :
    Except BuildFault (Nat × AssocArrayNode) :=
  match target with
  | none => .error .wildPointer
  | some address =>
      match heap.cells address with
      | some (.node content) => .ok (address, content)
      | _ => .error .wildPointer

/-- `calloc` of a node. -/
def zeroNode : AssocArrayNode where
  backPointer := .null
  parentSlot := 0
  slots := fun _ => .null
  nrLeavesOnBranch := 0

/-- The address of the new node, and the heap. -/
def mknode (heap : Heap Object) : Nat × Heap Object :=
  (heap.next, heap.alloc (.node zeroNode))

def setData (heap : Heap Object) (node : Option Nat)
    (parentSlot nrLeavesOnBranch : Nat) : Except BuildFault (Heap Object) := do
  let (address, content) ← nodeAt heap node
  return heap.store address
    (.node { content with
      parentSlot := parentSlot
      nrLeavesOnBranch := nrLeavesOnBranch })

def setNode (heap : Heap Object) (parent : Option Nat)
    (index : Fin assocArrayFanOut) : Except BuildFault (Heap Object) := do
  let (child, heap) := mknode heap
  let (address, content) ← nodeAt heap parent
  let heap := heap.store address
    (.node { content with
      slots := Function.update content.slots index (.node child) })
  let (address, content) ← nodeAt heap (some child)
  return heap.store address
    (.node { content with
      backPointer := parent.elim .null fun address => .node address })

def setLeaf (heap : Heap Object) (parent : Option Nat)
    (index : Fin assocArrayFanOut) (data : Leaf) :
    Except BuildFault (Heap Object) := do
  let (address, content) ← nodeAt heap parent
  return heap.store address
    (.node { content with
      slots := Function.update content.slots index (.leaf data) })

def getNode (heap : Heap Object) (parent : Option Nat)
    (index : Fin assocArrayFanOut) : Except BuildFault (Option Nat) := do
  let (_, content) ← nodeAt heap parent
  let ptr := content.slots index
  if assocArrayPtrIsNode ptr then return assocArrayPtrToMeta ptr
  else throw .getNodeAssertion

def getParent (heap : Heap Object) (node : Option Nat) :
    Except BuildFault (Option Nat) := do
  let (_, content) ← nodeAt heap node
  let ptr := content.backPointer
  if assocArrayPtrIsNode ptr then return assocArrayPtrToMeta ptr
  else throw .getParentAssertion

/-! ## Running the statements -/

def runStatement (s : Builder) : Statement → Except BuildFault Builder
  | .setTotal nt => return { s with array.nrLeavesOnTree := nt }
  | .makeNode =>
      return { s with heap := (mknode s.heap).2, node := (mknode s.heap).1 }
  | .setRoot =>
      return { s with
        array.root := s.node.elim .null fun address => .node address }
  | .setData ps nb => return { s with heap := ← setData s.heap s.node ps nb }
  | .setNode i => return { s with heap := ← setNode s.heap s.node i }
  | .getNode i => return { s with node := ← getNode s.heap s.node i }
  | .getParent => return { s with node := ← getParent s.heap s.node }
  | .setLeaf i object =>
      return { s with heap := ← setLeaf s.heap s.node i object }

def runStatements : List Statement → Builder → Except BuildFault Builder
  | [], s => .ok s
  | statement :: rest, s => do
      let s ← runStatement s statement
      runStatements rest s

/-- `make_array` when it has allocated the array. -/
def Builder.start (heap : Heap Object) : Builder where
  heap := heap
  array := ⟨.null, 0⟩
  node := none

end KernelStuff.AssocArrayGc
