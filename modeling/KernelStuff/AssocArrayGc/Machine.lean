import KernelStuff.AssocArrayGc.Ptr
import KernelStuff.Library.Heap
import KernelStuff.Library.TransitionSystem

/-!
# `assoc_array_gc` as a machine

`assoc_array_gc` is written with labels and gotos and keeps no stack: it climbs
the old tree by `back_pointer` and `parent_slot`.  The model keeps that shape.
Every label of the C function is a label here, the C locals are the fields of
`Gc`, and one machine step runs the straight-line code from one label to the
next jump (one slot at a time in `continue_node`).

`repro.c` and `repro_fixed.c` differ in one place, the jump back to
`retry_compress`; `Variant` selects it.
-/

namespace KernelStuff.AssocArrayGc

open KernelStuff.Library

/-- `round_up(x, y)` for `y` a power of two: `((x - 1) | (y - 1)) + 1` in signed
arithmetic, where `x = 0` gives `-1 + 1`. -/
def roundUp (x y : Nat) : Nat :=
  if x = 0 then 0 else ((x - 1) ||| (y - 1)) + 1

/-- Words of `index_key` a shortcut to `skipToLevel` is allocated with. -/
def keylen (skipToLevel : Nat) : Nat :=
  roundUp skipToLevel assocArrayKeyChunkSize >>> assocArrayKeyChunkShift

/-- `skip_to_level` together with the flexible array `index_key` whose length it
determines. -/
structure SkipKey where
  skipToLevel : Nat
  indexKey : List (BitVec 64)
  allocated : indexKey.length = keylen skipToLevel
  deriving DecidableEq

structure AssocArrayNode where
  backPointer : Ptr
  parentSlot : Nat
  slots : Fin assocArrayFanOut → Ptr
  nrLeavesOnBranch : Nat
  deriving DecidableEq

structure AssocArrayShortcut where
  backPointer : Ptr
  parentSlot : Nat
  nextNode : Ptr
  key : SkipKey
  deriving DecidableEq

structure AssocArray where
  root : Ptr
  nrLeavesOnTree : Nat
  deriving DecidableEq

/-- The fields of the edit script the collector sets: `set[0].to` and
`excised_subtree`. -/
structure AssocArrayEdit where
  setTo : Ptr
  excisedSubtree : Ptr
  deriving DecidableEq

inductive Object where
  | node (content : AssocArrayNode)
  | shortcut (content : AssocArrayShortcut)
  | edit (content : AssocArrayEdit)
  deriving DecidableEq

/-- The two versions of the collector in the repository. -/
inductive Variant where
  | unpatched
  | patched
  deriving DecidableEq, Repr

/-- The test in front of `goto retry_compress`. -/
def Variant.retries : Variant → Bool → Nat → Bool
  | .unpatched, _, _ => false
  | .patched, retained, nrLeavesOnBranch =>
      retained && decide (nrLeavesOnBranch < assocArrayFanOut)

inductive Label where
  | entry
  | descend
  | duplicateNode
  | continueNode
  | retryCompress
  | excise
  | ascendOldTree
  | gcComplete
  | enomem
  deriving DecidableEq, Repr

/-- What `new_ptr_pp` can point to. -/
inductive Location where
  | null
  | newRoot
  | nextNode (shortcut : Nat)
  | slot (node : Nat) (index : Fin assocArrayFanOut)
  deriving DecidableEq

/-- The `BUG_ON` checks of the function. -/
inductive BugOn where
  | shortcutBeforeFold
  | metaInFoldedChild
  | noFreeSlot
  | noCursor
  deriving DecidableEq, Repr

/-- What a run does besides touching the heap, in order: iterator calls, jumps
back to `retry_compress`, and shortcuts excised (with the slots of the node that
stood behind the shortcut). -/
inductive Event where
  | iterated (object : Leaf)
  | retried (node : Nat)
  | excisedShortcut (slots : Fin assocArrayFanOut → Ptr)
  deriving DecidableEq

/-- The locals of `assoc_array_gc`, the array and the heap. `none` in `node` or
`newN` is the null pointer. -/
structure Gc (σ : Type) where
  label : Label
  array : AssocArray
  heap : Heap Object
  edit : Nat
  newRoot : Ptr
  newParent : Ptr
  newPtrPp : Location
  cursor : Ptr
  node : Option Nat
  newN : Option Nat
  slot : Nat
  nrFree : Nat
  nrLeavesOnTree : Nat
  iteratorData : σ
  trace : List Event

/-- How the function ends. `fault` is a dereference of something that is not a
live object of the right type, or an index outside the slots. -/
inductive Exit (σ : Type) where
  | returned (value : Int) (final : Gc σ)
  | bug (check : BugOn) (heap : Heap Object)
  | fault

def ENOMEM : Int := 12

section Accesses

variable {σ : Type}

def loadNode (heap : Heap Object) (target : Option Nat) :
    Except (Exit σ) (Nat × AssocArrayNode) :=
  match target with
  | none => .error .fault
  | some address =>
      match heap.cells address with
      | some (.node content) => .ok (address, content)
      | _ => .error .fault

def loadShortcut (heap : Heap Object) (target : Option Nat) :
    Except (Exit σ) (Nat × AssocArrayShortcut) :=
  match target with
  | none => .error .fault
  | some address =>
      match heap.cells address with
      | some (.shortcut content) => .ok (address, content)
      | _ => .error .fault

/-- `*new_ptr_pp = value`. -/
def storePtr (s : Gc σ) (value : Ptr) : Except (Exit σ) (Gc σ) :=
  match s.newPtrPp with
  | .null => .error .fault
  | .newRoot => .ok { s with newRoot := value }
  | .nextNode shortcut => do
      let (address, content) ← loadShortcut s.heap (some shortcut)
      return { s with
        heap := s.heap.store address
          (.shortcut { content with nextNode := value }) }
  | .slot node index => do
      let (address, content) ← loadNode s.heap (some node)
      return { s with
        heap := s.heap.store address
          (.node { content with
            slots := Function.update content.slots index value }) }

/-- `new_n->slots[slot] = value` with `slot` a run-time index. -/
def storeSlot (heap : Heap Object) (target : Option Nat) (slot : Nat)
    (value : Ptr) : Except (Exit σ) (Heap Object) := do
  let (address, content) ← loadNode heap target
  if bound : slot < assocArrayFanOut then
    return heap.store address
      (.node { content with
        slots := Function.update content.slots ⟨slot, bound⟩ value })
  else
    .error .fault

end Accesses

section Compress

variable {σ : Type}

/-- The locals of one compress pass. `nr_leaves_on_branch` lives in the node. -/
structure Fold where
  heap : Heap Object
  nrFree : Nat
  nextSlot : Nat
  retained : Bool

/-- `while (slots[next_slot]) next_slot++`. `none` when the scan leaves the
array, which the `BUG_ON` after it reports. -/
def seekFree (slots : Fin assocArrayFanOut → Ptr) (nextSlot : Nat) :
    Option (Fin assocArrayFanOut) :=
  (List.finRange assocArrayFanOut).find? fun index =>
    decide (nextSlot ≤ index.val) && decide (slots index = .null)

/-- Move one slot of a folded child into the node. -/
def moveLeaf (newN child : Nat) (fold : Fold) (i : Fin assocArrayFanOut) :
    Except (Exit σ) Fold := do
  let (_, source) ← loadNode fold.heap (some child)
  let p := source.slots i
  if p = .null then
    return fold
  if assocArrayPtrIsMeta p then
    .error (.bug .metaInFoldedChild fold.heap)
  else do
    let (address, content) ← loadNode fold.heap (some newN)
    match seekFree content.slots fold.nextSlot with
    | none => .error (.bug .noFreeSlot fold.heap)
    | some free =>
        return { fold with
          heap := fold.heap.store address
            (.node { content with
              slots := Function.update content.slots free p })
          nextSlot := free.val + 1
          nrFree := fold.nrFree - 1 }

/-- One iteration of the fold loop. -/
def foldSlot (newN : Nat) (fold : Fold) (slot : Fin assocArrayFanOut) :
    Except (Exit σ) Fold := do
  let (address, content) ← loadNode fold.heap (some newN)
  let ptr := content.slots slot
  if ptr = .null ∨ assocArrayPtrIsLeaf ptr = true then
    return fold
  let (behindShortcut, ptr) ←
    if assocArrayPtrIsShortcut ptr then do
      let (_, s) ← loadShortcut fold.heap (assocArrayPtrToMeta ptr)
      pure (true, s.nextNode)
    else
      pure (false, ptr)
  let (child, childContent) ← loadNode fold.heap (assocArrayPtrToMeta ptr)
  let counted : AssocArrayNode :=
    { content with
      nrLeavesOnBranch :=
        content.nrLeavesOnBranch + childContent.nrLeavesOnBranch }
  if childContent.nrLeavesOnBranch ≤ fold.nrFree + 1 then
    -- An intervening shortcut should have been reaped on the way up.
    if behindShortcut then
      .error (.bug .shortcutBeforeFold (fold.heap.store address (.node counted)))
    else do
      let opened : Fold :=
        { fold with
          heap := (fold.heap.store address (.node counted)).store address
            (.node { counted with
              slots := Function.update counted.slots slot .null })
          nrFree := fold.nrFree + 1
          nextSlot := if slot.val < fold.nextSlot then slot else fold.nextSlot }
      let moved ←
        (List.finRange assocArrayFanOut).foldlM (moveLeaf newN child) opened
      return { moved with heap := moved.heap.free child }
  else
    return { fold with
      heap := fold.heap.store address (.node counted)
      retained := true }

/-- The code at `retry_compress`, up to the jump back or the excision. -/
def retryCompress (variant : Variant) (s : Gc σ) : Except (Exit σ) (Gc σ) := do
  let (newN, content) ← loadNode s.heap s.newN
  let counted : AssocArrayNode :=
    { content with
      nrLeavesOnBranch :=
        (List.finRange assocArrayFanOut).countP fun index =>
          decide (content.slots index ≠ .null) &&
            assocArrayPtrIsLeaf (content.slots index) }
  let start : Fold :=
    { heap := s.heap.store newN (.node counted)
      nrFree :=
        (List.finRange assocArrayFanOut).countP fun index =>
          decide (content.slots index = .null)
      nextSlot := 0
      retained := false }
  let fold ← (List.finRange assocArrayFanOut).foldlM (foldSlot newN) start
  let (_, folded) ← loadNode fold.heap (some newN)
  if variant.retries fold.retained folded.nrLeavesOnBranch then
    return { s with
      heap := fold.heap
      trace := s.trace ++ [.retried newN] }
  else
    return { s with
      heap := fold.heap
      nrFree := fold.nrFree
      nrLeavesOnTree := folded.nrLeavesOnBranch
      label := .excise }

end Compress

section Blocks

variable {σ : Type}

/-- Entry of the function, up to `descend`. -/
def entry (fails : Nat → Bool) (s : Gc σ) : Except (Exit σ) (Gc σ) :=
  if s.array.root = .null then
    .error (.returned 0 s)
  else if fails s.heap.next then
    .error (.returned (-ENOMEM) s)
  else
    .ok { s with
      edit := s.heap.next
      heap := s.heap.alloc (.edit ⟨.null, s.array.root⟩)
      newRoot := .null
      newParent := .null
      newPtrPp := .newRoot
      cursor := s.array.root
      label := .descend }

/-- If this point is a shortcut, duplicate it and advance the target cursor. -/
def descend (fails : Nat → Bool) (s : Gc σ) : Except (Exit σ) (Gc σ) :=
  if assocArrayPtrIsShortcut s.cursor then do
    let (_, shortcut) ← loadShortcut s.heap (assocArrayPtrToMeta s.cursor)
    let newS := s.heap.next
    if fails newS then
      return { s with label := .enomem }
    -- The copy keeps the old `next_node` until the node behind it is linked.
    let linked ← storePtr
      { s with
        heap := s.heap.alloc
          (.shortcut { shortcut with backPointer := s.newParent }) }
      (.shortcut newS)
    return { linked with
      newParent := .shortcut newS
      newPtrPp := .nextNode newS
      cursor := shortcut.nextNode
      label := .duplicateNode }
  else
    .ok { s with label := .duplicateNode }

/-- Duplicate the node at this position. -/
def duplicateNode (fails : Nat → Bool) (s : Gc σ) :
    Except (Exit σ) (Gc σ) := do
  let newN := s.heap.next
  if fails newN then
    return { s with node := assocArrayPtrToMeta s.cursor, label := .enomem }
  let (node, content) ← loadNode s.heap (assocArrayPtrToMeta s.cursor)
  let linked ← storePtr
    { s with
      heap := s.heap.alloc
        (.node ⟨s.newParent, content.parentSlot, fun _ => .null, 0⟩) }
    (.node newN)
  return { linked with
    node := some node
    newN := some newN
    newParent := .node newN
    newPtrPp := .null
    slot := 0
    label := .continueNode }

/-- One slot of the loop that filters leaves and collects subtrees. -/
def continueNode (iterator : Leaf → σ → Bool × σ) (s : Gc σ) :
    Except (Exit σ) (Gc σ) :=
  if bound : s.slot < assocArrayFanOut then do
    let (_, content) ← loadNode s.heap s.node
    match content.slots ⟨s.slot, bound⟩ with
    | .null => return { s with slot := s.slot + 1 }
    | .leaf object =>
        let (keep, data) := iterator object s.iteratorData
        let heap ←
          if keep then storeSlot s.heap s.newN s.slot (.leaf object)
          else pure s.heap
        return { s with
          heap := heap
          iteratorData := data
          trace := s.trace ++ [.iterated object]
          slot := s.slot + 1 }
    | ptr => do
        let (newN, _) ← loadNode s.heap s.newN
        return { s with
          newPtrPp := .slot newN ⟨s.slot, bound⟩
          cursor := ptr
          label := .descend }
  else
    .ok { s with label := .retryCompress }

/-- Hang the shortcut `newS` (pointer `ptr`) into the place `newParent`, `slot`
of the excised node. -/
def attach (s : Gc σ) (heap : Heap Object) (ptr newParent : Ptr)
    (slot : Nat) : Except (Exit σ) (Gc σ) := do
  let (newS, content) ← loadShortcut heap (assocArrayPtrToMeta ptr)
  if newParent = .null then
    return { s with
      heap := heap.store newS
        (.shortcut { content with backPointer := .null, parentSlot := 0 })
      newRoot := ptr
      label := .gcComplete }
  else do
    let heap := heap.store newS
      (.shortcut { content with backPointer := newParent, parentSlot := slot })
    let newN := assocArrayPtrToMeta newParent
    let heap ← storeSlot heap newN slot ptr
    return { s with
      heap := heap
      newParent := newParent
      newN := newN
      slot := slot
      label := .ascendOldTree }

/-- Excise a node that is singly occupied by the shortcut `ptr`, and with it the
shortcut in front of the node if there is one. -/
def exciseNode (s : Gc σ) (newN : Nat) (content : AssocArrayNode)
    (ptr : Ptr) : Except (Exit σ) (Gc σ) := do
  let newParent := content.backPointer
  let heap := s.heap.free newN
  if assocArrayPtrIsShortcut newParent then do
    let (preceding, shortcut) ←
      loadShortcut heap (assocArrayPtrToMeta newParent)
    attach s (heap.free preceding) ptr shortcut.backPointer shortcut.parentSlot
  else
    attach s heap ptr newParent content.parentSlot

/-- Excise a shortcut in front of a node with few leaves, then leave the node. -/
def exciseShortcut (s : Gc σ) (newN : Nat) (content : AssocArrayNode) :
    Except (Exit σ) (Gc σ) := do
  let ptr := content.backPointer
  if ptr = .null then
    return { s with label := .gcComplete }
  if assocArrayPtrIsShortcut ptr then do
    let (newS, shortcut) ← loadShortcut s.heap (assocArrayPtrToMeta ptr)
    let newParent := shortcut.backPointer
    let slot := shortcut.parentSlot
    if content.nrLeavesOnBranch ≤ assocArrayFanOut then do
      let heap :=
        (s.heap.store newN
          (.node { content with
            backPointer := newParent
            parentSlot := slot })).free newS
      let trace := s.trace ++ [.excisedShortcut content.slots]
      if newParent = .null then
        return { s with
          heap := heap
          trace := trace
          newRoot := .node newN
          label := .gcComplete }
      else do
        let heap ←
          storeSlot heap (assocArrayPtrToMeta newParent) slot (.node newN)
        return { s with
          heap := heap
          trace := trace
          newParent := newParent
          newN := assocArrayPtrToMeta newParent
          label := .ascendOldTree }
    else
      return { s with
        newParent := newParent
        newN := assocArrayPtrToMeta newParent
        label := .ascendOldTree }
  else
    return { s with
      newParent := ptr
      newN := assocArrayPtrToMeta ptr
      label := .ascendOldTree }

/-- The code between the compress loop and `ascend_old_tree`. -/
def excise (s : Gc σ) : Except (Exit σ) (Gc σ) := do
  let (newN, content) ← loadNode s.heap s.newN
  if s.nrFree = assocArrayFanOut - 1 then
    let occupied :=
      (List.finRange assocArrayFanOut).find? fun index =>
        decide (content.slots index ≠ .null)
    let ptr := (occupied.map content.slots).getD .null
    if assocArrayPtrIsMeta ptr && assocArrayPtrIsShortcut ptr then
      exciseNode s newN content ptr
    else
      exciseShortcut s newN content
  else
    exciseShortcut s newN content

def ascendOldTree (s : Gc σ) : Except (Exit σ) (Gc σ) := do
  let (_, content) ← loadNode s.heap s.node
  let ptr := content.backPointer
  if assocArrayPtrIsShortcut ptr then do
    let (_, shortcut) ← loadShortcut s.heap (assocArrayPtrToMeta ptr)
    if shortcut.backPointer = .null then
      return { s with label := .gcComplete }
    else
      return { s with
        cursor := shortcut.backPointer
        node := assocArrayPtrToMeta shortcut.backPointer
        slot := shortcut.parentSlot + 1
        label := .continueNode }
  else if ptr = .null then
    .error (.bug .noCursor s.heap)
  else
    return { s with
      cursor := ptr
      node := assocArrayPtrToMeta ptr
      slot := content.parentSlot + 1
      label := .continueNode }

/-- Publish the new tree. `assoc_array_apply_edit` writes `set[0].to` to
`array->root`. -/
def gcComplete (s : Gc σ) : Except (Exit σ) (Gc σ) :=
  match s.heap.cells s.edit with
  | some (.edit script) =>
      .error (.returned 0
        { s with
          heap := s.heap.store s.edit (.edit { script with setTo := s.newRoot })
          array := ⟨s.newRoot, s.nrLeavesOnTree⟩ })
  | _ => .error .fault

/-- Hand the partial tree to `assoc_array_destroy_subtree` and give up. -/
def enomem (s : Gc σ) : Except (Exit σ) (Gc σ) :=
  .error (.returned (-ENOMEM) { s with heap := s.heap.free s.edit })

end Blocks

/-- One step of `assoc_array_gc`. `fails` says which allocations return null,
by the address they would have had. -/
def gcStep {σ : Type} (variant : Variant) (iterator : Leaf → σ → Bool × σ)
    (fails : Nat → Bool) (s : Gc σ) : Except (Exit σ) (Gc σ) :=
  match s.label with
  | .entry => entry fails s
  | .descend => descend fails s
  | .duplicateNode => duplicateNode fails s
  | .continueNode => continueNode iterator s
  | .retryCompress => retryCompress variant s
  | .excise => excise s
  | .ascendOldTree => ascendOldTree s
  | .gcComplete => gcComplete s
  | .enomem => enomem s

/-- The call `assoc_array_gc(array, ops, iterator, iterator_data)`. The locals
are given values only the assignments of the function ever replace. -/
def gcCall {σ : Type} (heap : Heap Object) (array : AssocArray) (data : σ) :
    Gc σ where
  label := .entry
  array := array
  heap := { heap with written := [] }
  edit := 0
  newRoot := .null
  newParent := .null
  newPtrPp := .null
  cursor := .null
  node := none
  newN := none
  slot := 0
  nrFree := 0
  nrLeavesOnTree := 0
  iteratorData := data
  trace := []

/-- The call ends with `exit`. -/
def GcExits {σ : Type} (variant : Variant)
    (iterator : Leaf → σ → Bool × σ) (fails : Nat → Bool)
    (heap : Heap Object) (array : AssocArray) (data : σ)
    (exit : Exit σ) : Prop :=
  Halts (gcStep variant iterator fails) (gcCall heap array data) exit

end KernelStuff.AssocArrayGc
