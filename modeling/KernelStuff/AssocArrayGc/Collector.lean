import KernelStuff.AssocArrayGc.Tree

/-!
# The collector as a function on trees

What the machine does to a subtree, written as a recursion: filter the slots in
order, compress the node, then excise what can be excised.  Addresses are handed
out in the order of the machine's allocations, so the recursion predicts the
objects of the new tree and not only their shape.
-/

namespace KernelStuff.AssocArrayGc

open KernelStuff.Library

/-! ## One compress pass -/

/-- The node under compression with the locals of the pass. -/
structure Pass where
  slots : Fin assocArrayFanOut → Tree
  nr : Nat
  nrFree : Nat
  nextSlot : Nat
  retained : Bool

namespace Pass

/-- Counters and flags as they stand when the fold loop starts. -/
def start (slots : Fin assocArrayFanOut → Tree) : Pass where
  slots := slots
  nr :=
    (List.finRange assocArrayFanOut).countP fun index =>
      decide ((slots index).ptr ≠ .null) &&
        assocArrayPtrIsLeaf (slots index).ptr
  nrFree :=
    (List.finRange assocArrayFanOut).countP fun index =>
      decide ((slots index).ptr = .null)
  nextSlot := 0
  retained := false

/-- Fill the free slot the scan found. -/
def fill (p : Pass) (object : Leaf) (free : Fin assocArrayFanOut) : Pass :=
  { p with
    slots := Function.update p.slots free (.leaf object)
    nextSlot := free.val + 1
    nrFree := p.nrFree - 1 }

/-- Put one slot of a folded child into the first free slot. -/
def moveLeaf (p : Pass) : Tree → Option Pass
  | .empty => some p
  | .leaf object =>
      (seekFree (fun i => (p.slots i).ptr) p.nextSlot).map (p.fill object)
  | .node _ _ _ _ => none
  | .dangling _ _ => none

/-- Give up the slot of a child that is about to be folded. -/
def openSlot (p : Pass) (slot : Fin assocArrayFanOut) : Pass :=
  { p with
    slots := Function.update p.slots slot .empty
    nrFree := p.nrFree + 1
    nextSlot := if slot.val < p.nextSlot then slot else p.nextSlot }

def foldSlot (p : Pass) (slot : Fin assocArrayFanOut) : Option Pass :=
  match p.slots slot with
  | .node lead _ nrLeavesOnBranch children =>
      if nrLeavesOnBranch ≤ p.nrFree + 1 then
        if lead.isSome then none
        else
          (List.finRange assocArrayFanOut).foldlM
            (fun moved i => moved.moveLeaf (children i))
            ({ p with nr := p.nr + nrLeavesOnBranch }.openSlot slot)
      else
        some { p with nr := p.nr + nrLeavesOnBranch, retained := true }
  | _ => some p

end Pass

/-- `none` when a `BUG_ON` of the pass fires. -/
def compressPass (slots : Fin assocArrayFanOut → Tree) : Option Pass :=
  (List.finRange assocArrayFanOut).foldlM Pass.foldSlot (Pass.start slots)

/-- Compress the node at `address`: one pass, and a second one if the first
jumps back. -/
def compress (variant : Variant) (address : Nat)
    (slots : Fin assocArrayFanOut → Tree) : Option (Pass × List Event) :=
  (compressPass slots).bind fun first =>
    if variant.retries first.retained first.nr then
      (compressPass first.slots).map fun second =>
        (second, [.retried address])
    else
      some (first, [])

/-! ## Excision -/

/-- The only occupied slot, if it holds a shortcut. -/
def Pass.soleShortcut (p : Pass) : Option Tree :=
  if p.nrFree = assocArrayFanOut - 1 then
    ((List.finRange assocArrayFanOut).find? fun index =>
      decide ((p.slots index).ptr ≠ .null)).bind fun index =>
        if assocArrayPtrIsMeta (p.slots index).ptr &&
            assocArrayPtrIsShortcut (p.slots index).ptr then
          some (p.slots index)
        else
          none
  else
    none

/-- What a compressed node becomes, with the shortcut in front of it. -/
def exciseTree (lead : Option Lead) (address : Nat) (p : Pass) :
    Tree × List Event :=
  match p.soleShortcut with
  | some subtree => (subtree, [])
  | none =>
      if p.nr ≤ assocArrayFanOut then
        (.node none address p.nr p.slots,
          (lead.map fun _ => Event.excisedShortcut fun i =>
            (p.slots i).ptr).toList)
      else
        (.node lead address p.nr p.slots, [])

/-- Compress a filtered node and excise what can be excised. -/
def finish (variant : Variant) (lead : Option Lead) (address : Nat)
    (slots : Fin assocArrayFanOut → Tree) : Option (Tree × List Event) :=
  (compress variant address slots).map fun (p, retries) =>
    let (t, excisions) := exciseTree lead address p
    (t, retries ++ excisions)

/-! ## The recursion -/

/-- What is threaded through a run: the iterator's state, the events so far and
the next address. -/
structure Ledger (σ : Type) where
  iteratorData : σ
  trace : List Event
  next : Nat

/-- A subtree is collected, or an allocation in it failed and left a partial
subtree, or a `BUG_ON` fired. -/
inductive Outcome (State Result : Type) where
  | done (result : Result) (after : State)
  | enomem (result : Result) (after : State)
  | bug

/-- The duplicate of the shortcut in front of a node. -/
def duplicateLead (lead : Option Lead) (next : Nat) : Option Lead :=
  lead.map fun front => ⟨next, front.key⟩

def afterLead (lead : Option Lead) (next : Nat) : Nat :=
  match lead with
  | none => next
  | some _ => next + 1

/-- What hangs in the place when the node cannot be allocated. -/
def unlinked (lead : Option Lead) (nextNode : Ptr) : Tree :=
  match lead with
  | none => .empty
  | some front => .dangling front nextNode

section Collect

/-- Collect the given slots in order into `filtered`. -/
def collectSlots {State : Type}
    (visit : Fin assocArrayFanOut → State → Outcome State Tree) :
    List (Fin assocArrayFanOut) → (Fin assocArrayFanOut → Tree) →
      State → Outcome State (Fin assocArrayFanOut → Tree)
  | [], filtered, state => .done filtered state
  | i :: rest, filtered, state =>
      match visit i state with
      | .done t after =>
          collectSlots visit rest (Function.update filtered i t) after
      | .enomem t after => .enomem (Function.update filtered i t) after
      | .bug => .bug

variable {σ : Type}

/-- What becomes of a node once its slots have been collected. -/
def finishNode (variant : Variant) (front : Option Lead) (copy : Nat) :
    Outcome (Ledger σ) (Fin assocArrayFanOut → Tree) →
      Outcome (Ledger σ) Tree
  | .done filtered after =>
      match finish variant front copy filtered with
      | some (t, events) =>
          .done t { after with trace := after.trace ++ events }
      | none => .bug
  | .enomem filtered after => .enomem (.node front copy 0 filtered) after
  | .bug => .bug

def collect (variant : Variant) (iterator : Leaf → σ → Bool × σ)
    (fails : Nat → Bool) : Tree → Ledger σ → Outcome (Ledger σ) Tree
  | .empty, ledger => .done .empty ledger
  | .leaf object, ledger =>
      let (keep, data) := iterator object ledger.iteratorData
      .done (if keep then .leaf object else .empty)
        { ledger with
          iteratorData := data
          trace := ledger.trace ++ [.iterated object] }
  | .node lead address _ slots, ledger =>
      let front := duplicateLead lead ledger.next
      let copy := afterLead lead ledger.next
      if lead.isSome && fails ledger.next then
        .enomem .empty ledger
      else if fails copy then
        .enomem (unlinked front (.node address)) { ledger with next := copy }
      else
        finishNode variant front copy
          (collectSlots (fun i => collect variant iterator fails (slots i))
            (List.finRange assocArrayFanOut) (fun _ => .empty)
            { ledger with next := copy + 1 })
  | .dangling _ _, _ => .bug

end Collect

/-! ## The survivors -/

section Survivors

variable {σ : Type}

/-- Filter the given slots in order. -/
def filterSlots (visit : Fin assocArrayFanOut → σ → Tree × σ) :
    List (Fin assocArrayFanOut) → (Fin assocArrayFanOut → Tree) →
      σ → (Fin assocArrayFanOut → Tree) × σ
  | [], filtered, data => (filtered, data)
  | i :: rest, filtered, data =>
      filterSlots visit rest
        (Function.update filtered i (visit i data).1) (visit i data).2

/-- The old tree with every leaf the iterator rejects taken out of its slot and
nothing else changed. -/
def survivors (iterator : Leaf → σ → Bool × σ) : Tree → σ → Tree × σ
  | .empty, data => (.empty, data)
  | .leaf object, data =>
      (if (iterator object data).1 then .leaf object else .empty,
        (iterator object data).2)
  | .node lead address nr slots, data =>
      let (filtered, after) :=
        filterSlots (fun i => survivors iterator (slots i))
          (List.finRange assocArrayFanOut) (fun _ => .empty) data
      (.node lead address nr filtered, after)
  | .dangling lead nextNode, data => (.dangling lead nextNode, data)

/-- The survivors below the slots of a node. -/
def survivorSlots (iterator : Leaf → σ → Bool × σ)
    (slots : Fin assocArrayFanOut → Tree) (data : σ) :
    (Fin assocArrayFanOut → Tree) × σ :=
  filterSlots (fun i => survivors iterator (slots i))
    (List.finRange assocArrayFanOut) (fun _ => .empty) data

theorem survivors_node
    (iterator : Leaf → σ → Bool × σ) (lead : Option Lead) (address nr : Nat)
    (slots : Fin assocArrayFanOut → Tree) (data : σ) :
    survivors iterator (.node lead address nr slots) data =
      (.node lead address nr (survivorSlots iterator slots data).1,
        (survivorSlots iterator slots data).2) := by
  rw [survivors]
  rfl

end Survivors

end KernelStuff.AssocArrayGc
