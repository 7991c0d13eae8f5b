import KernelStuff.AssocArrayGc.Call
import KernelStuff.AssocArrayGc.Constructor

/-!
# The constructor program rebuilds the array

The script turns a tree into statements and the helpers turn the statements into
a heap.  The statements of a slot leave the cursor on the node they were run at,
write that slot of it, and otherwise only nodes allocated on the way, so the
slots of a node can be taken one after another.
-/

namespace KernelStuff.AssocArrayGc

open KernelStuff.Library

namespace Tree

/-- No shortcut anywhere. -/
def Leadless : Tree → Prop
  | .empty => True
  | .leaf _ => True
  | .node lead _ _ slots => lead = none ∧ ∀ i, (slots i).Leadless
  | .dangling _ _ => False

/-- The same shape with the same leaves and counts, at other addresses. -/
def Isomorphic : Tree → Tree → Prop
  | .empty, other => other = .empty
  | .leaf object, other => other = .leaf object
  | .node lead _ nr slots, other =>
      ∃ address children, other = .node lead address nr children ∧
        ∀ i, (slots i).Isomorphic (children i)
  | .dangling lead next, other => other = .dangling lead next

/-- What the script emits for slot `i`. -/
def emitSlot : Tree → Fin assocArrayFanOut → List Statement
  | .empty, _ => []
  | .leaf object, i => [.setLeaf i object]
  | .node _ _ nr slots, i =>
      .setNode i :: .getNode i ::
        (.setData i nr :: (List.finRange assocArrayFanOut).flatMap
          fun j => (slots j).emitSlot j) ++ [.getParent]
  | .dangling _ _, _ => []

theorem Leadless.whole : ∀ {t : Tree}, t.Leadless → t.Whole
  | .empty, _ => trivial
  | .leaf _, _ => trivial
  | .node _ _ _ _, leadless => fun i => Leadless.whole (leadless.2 i)
  | .dangling _ _, leadless => leadless

theorem Isomorphic.leadless :
    ∀ {t u : Tree}, t.Isomorphic u → t.Leadless → u.Leadless
  | .empty, _, same, leadless => by
      rw [show _ = Tree.empty from same]
      exact leadless
  | .leaf object, _, same, leadless => by
      rw [show _ = Tree.leaf object from same]
      exact leadless
  | .node _ _ _ _, _, same, leadless => by
      obtain ⟨address, children, rfl, alike⟩ := same
      exact ⟨leadless.1, fun i => (alike i).leadless (leadless.2 i)⟩
  | .dangling _ _, _, _, leadless => False.elim leadless

end Tree

/-- What the script emits at a node. -/
def emitNode (parentSlot nr : Nat) (slots : Fin assocArrayFanOut → Tree) :
    List Statement :=
  .setData parentSlot nr ::
    (List.finRange assocArrayFanOut).flatMap fun j => (slots j).emitSlot j

/-! ## The script -/

theorem mapM_eq_some {Source Target : Type} {step : Source → Option Target}
    {image : Source → Target} :
    ∀ {items : List Source}, (∀ item ∈ items, step item = some (image item)) →
      items.mapM step = some (items.map image)
  | [], _ => rfl
  | head :: tail, every => by
      rw [List.mapM_cons, every head List.mem_cons_self,
        mapM_eq_some fun item member => every item (List.mem_cons_of_mem _ member)]
      rfl

/-- Enough fuel for every slot is enough for the node. -/
theorem constructNode_of_slots
    {heap : Heap Object} {address parentSlot nr : Nat} {back : Ptr}
    {slots : Fin assocArrayFanOut → Tree}
    (held :
      heap.cells address =
        some (.node ⟨back, parentSlot, fun i => (slots i).ptr, nr⟩))
    (emitted :
      ∀ i, ∃ depth, ∀ fuel, depth ≤ fuel →
        constructSlot (constructNode heap fuel) i (slots i).ptr =
          some ((slots i).emitSlot i)) :
    ∃ depth, ∀ fuel, depth ≤ fuel →
      constructNode heap fuel address = some (emitNode parentSlot nr slots) := by
  choose depth enough using emitted
  refine ⟨Finset.univ.sup depth + 1, fun fuel deep => ?_⟩
  cases fuel with
  | zero => omega
  | succ fuel =>
      have every :
          ∀ i ∈ List.finRange assocArrayFanOut,
            constructSlot (constructNode heap fuel) i (slots i).ptr =
              some ((slots i).emitSlot i) := by
        intro i _
        apply enough i fuel
        have within := Finset.le_sup (f := depth) (Finset.mem_univ i)
        omega
      simp only [constructNode, held, mapM_eq_some every]
      rfl

theorem constructSlot_of_represented {heap : Heap Object} :
    ∀ {t : Tree} {back : Ptr} (i : Fin assocArrayFanOut),
      t.Leadless → t.Represented heap.cells back i →
        ∃ depth, ∀ fuel, depth ≤ fuel →
          constructSlot (constructNode heap fuel) i t.ptr =
            some (t.emitSlot i)
  | .empty, _, _, _, _ => ⟨0, fun _ _ => rfl⟩
  | .leaf _, _, _, _, _ => ⟨0, fun _ _ => rfl⟩
  | .node lead address nr slots, back, i, leadless, represented => by
      obtain ⟨rfl, plain⟩ := leadless
      obtain ⟨-, held, children⟩ := represented
      obtain ⟨depth, enough⟩ :=
        constructNode_of_slots held fun j =>
          constructSlot_of_represented j (plain j) (children j)
      refine ⟨depth, fun fuel deep => ?_⟩
      simp only [constructSlot, scriptPtrIsShortcut, scriptPtrIsNode,
        scriptPtrToNode, Tree.ptr, Option.bind_eq_bind, Option.bind_some,
        enough fuel deep]
      rfl
  | .dangling _ _, _, _, leadless, _ => False.elim leadless

/-! ## The helpers -/

theorem runStatements_append (first second : List Statement) (s : Builder) :
    runStatements (first ++ second) s =
      (runStatements first s).bind (runStatements second) := by
  induction first generalizing s with
  | nil => rfl
  | cons statement rest inductionHypothesis =>
      rw [List.cons_append, runStatements, runStatements]
      cases runStatement s statement with
      | error fault => rfl
      | ok next => exact inductionHypothesis next

theorem nodeAt_of_held
    {heap : Heap Object} {address : Nat} {content : AssocArrayNode}
    (held : heap.cells address = some (.node content)) :
    nodeAt heap (some address) = .ok (address, content) := by
  simp only [nodeAt, held]

section Helpers

variable {heap : Heap Object} {address : Nat} {content : AssocArrayNode}
variable (held : heap.cells address = some (.node content))

include held

theorem getNode_of_held
    {i : Fin assocArrayFanOut} {child : Nat}
    (ptr : content.slots i = .node child) :
    getNode heap (some address) i = .ok (some child) := by
  rw [getNode, nodeAt_of_held held]
  change (if assocArrayPtrIsNode (content.slots i) then _ else _) = _
  rw [ptr]
  rfl

theorem getParent_of_held
    {parent : Nat} (back : content.backPointer = .node parent) :
    getParent heap (some address) = .ok (some parent) := by
  rw [getParent, nodeAt_of_held held]
  change (if assocArrayPtrIsNode content.backPointer then _ else _) = _
  rw [back]
  rfl

/-- `set_node` hangs a zeroed node into the slot. -/
theorem setNode_of_held (i : Fin assocArrayFanOut) :
    ∃ after : Heap Object,
      setNode heap (some address) i = .ok after ∧
        after.next = heap.next + 1 ∧
        Heap.Touches (· = address) heap after ∧
        after.cells heap.next =
          some (.node { zeroNode with backPointer := .node address }) ∧
        after.cells address =
          some (.node { content with
            slots := Function.update content.slots i (.node heap.next) }) := by
  have different : heap.next ≠ address :=
    Nat.ne_of_gt (Heap.lt_next_of_cells held)
  have parentHeld :
      (heap.alloc (.node zeroNode)).cells address = some (.node content) := by
    rw [Heap.alloc_cells_of_lt _ _ (Heap.lt_next_of_cells held), held]
  have childHeld (hung : Object) :
      ((heap.alloc (.node zeroNode)).store address hung).cells heap.next =
        some (.node zeroNode) := by
    rw [Heap.store_cells_of_ne _ _ different, Heap.alloc_cells_next]
  have frame :
      Heap.Touches (· = address) heap (heap.alloc (.node zeroNode)) :=
    (Heap.Touches.refl heap).andAlloc _
  let hung : Object :=
    .node { content with
      slots := Function.update content.slots i (.node heap.next) }
  let child : Object := .node { zeroNode with backPointer := .node address }
  refine
    ⟨((heap.alloc (.node zeroNode)).store address hung).store heap.next child,
      ?_, rfl,
      (frame.andStore (Or.inl rfl) _).andStore (Or.inr (Nat.le_refl _)) _,
      Heap.store_cells_self _ (childHeld _), ?_⟩
  · rw [setNode]
    change (nodeAt (heap.alloc (.node zeroNode)) (some address)).bind _ = _
    rw [nodeAt_of_held parentHeld]
    change
      (nodeAt ((heap.alloc (.node zeroNode)).store address hung)
        (some heap.next)).bind _ = _
    rw [nodeAt_of_held (childHeld _)]
    rfl
  · rw [Heap.store_cells_of_ne _ _ (Ne.symm different),
      Heap.store_cells_self _ parentHeld]

end Helpers

section Statements

variable {s : Builder} {address : Nat} {content : AssocArrayNode}
variable (cursor : s.node = some address)
variable (held : s.heap.cells address = some (.node content))

include cursor held

theorem runStatement_setData (parentSlot nr : Nat) :
    runStatement s (.setData parentSlot nr) =
      .ok { s with
        heap := s.heap.store address
          (.node ⟨content.backPointer, parentSlot, content.slots, nr⟩) } := by
  simp only [runStatement, setData, cursor, nodeAt_of_held held]
  rfl

theorem runStatement_setLeaf (i : Fin assocArrayFanOut) (object : Leaf) :
    runStatement s (.setLeaf i object) =
      .ok { s with
        heap := s.heap.store address
          (.node { content with
            slots := Function.update content.slots i (.leaf object) }) } := by
  simp only [runStatement, setLeaf, cursor, nodeAt_of_held held]
  rfl

/-- `set_node` and `get_node` leave the cursor on a new node that hangs in the
slot. -/
theorem runStatements_setNode_getNode
    (i : Fin assocArrayFanOut) (rest : List Statement) :
    ∃ entered : Builder,
      runStatements (.setNode i :: .getNode i :: rest) s =
          runStatements rest entered ∧
        entered.array = s.array ∧
        entered.node = some s.heap.next ∧
        entered.heap.next = s.heap.next + 1 ∧
        Heap.Touches (· = address) s.heap entered.heap ∧
        entered.heap.cells s.heap.next =
          some (.node { zeroNode with backPointer := .node address }) ∧
        entered.heap.cells address =
          some (.node { content with
            slots :=
              Function.update content.slots i (.node s.heap.next) }) := by
  obtain ⟨after, set, next, frame, childHeld, parentHeld⟩ :=
    setNode_of_held held i
  have get : getNode after (some address) i = .ok (some s.heap.next) :=
    getNode_of_held parentHeld (Function.update_self _ _ _)
  refine ⟨{ s with heap := after, node := some s.heap.next }, ?_, rfl, rfl,
    next, frame, childHeld, parentHeld⟩
  rw [runStatements, runStatement, cursor, set]
  change
    runStatements (.getNode i :: rest)
      { s with heap := after, node := some address } = _
  rw [runStatements, runStatement]
  change ((getNode after (some address) i).bind _).bind _ = _
  rw [get]
  rfl

theorem runStatement_getParent
    {parent : Nat} (back : content.backPointer = .node parent) :
    runStatement s .getParent = .ok { s with node := some parent } := by
  rw [runStatement, cursor, getParent_of_held held back]
  rfl

end Statements

/-! ## Building slots -/

/-- From `before` to `after` the slots of `items` of the node at `address` have
been filled with copies of the trees in `slots`. -/
structure SlotsBuilt
    (slots : Fin assocArrayFanOut → Tree) (items : List (Fin assocArrayFanOut))
    (address : Nat) (content : AssocArrayNode) (before after : Builder)
    (children : Fin assocArrayFanOut → Tree) : Prop where
  node_eq : after.node = some address
  array_eq : after.array = before.array
  frame : Heap.Touches (· = address) before.heap after.heap
  held :
    after.heap.cells address =
      some (.node { content with
        slots := fun j =>
          if j ∈ items then (children j).ptr else content.slots j })
  alike : ∀ j ∈ items, (slots j).Isomorphic (children j)
  represented :
    ∀ j ∈ items,
      (children j).Represented after.heap.cells (.node address) j.val
  recent :
    ∀ j ∈ items, ∀ x, (children j).Owns x → before.heap.next ≤ x
  separated : ∀ j ∈ items, (children j).Separated
  apart :
    ∀ j ∈ items, ∀ k ∈ items, j ≠ k →
      ∀ x, (children j).Owns x → ¬ (children k).Owns x

namespace SlotsBuilt

variable {slots children later : Fin assocArrayFanOut → Tree}
variable {items more : List (Fin assocArrayFanOut)}
variable {address : Nat} {content : AssocArrayNode}
variable {before middle after : Builder}

theorem nil
    (cursor : before.node = some address)
    (held : before.heap.cells address = some (.node content)) :
    SlotsBuilt slots [] address content before before children where
  node_eq := cursor
  array_eq := rfl
  frame := Heap.Touches.refl _
  held := held
  alike := fun _ member => absurd member List.not_mem_nil
  represented := fun _ member => absurd member List.not_mem_nil
  recent := fun _ member => absurd member List.not_mem_nil
  separated := fun _ member => absurd member List.not_mem_nil
  apart := fun _ member => absurd member List.not_mem_nil

theorem singleton
    {i : Fin assocArrayFanOut} {u : Tree}
    (cursor : after.node = some address)
    (arrayEq : after.array = before.array)
    (frame : Heap.Touches (· = address) before.heap after.heap)
    (held :
      after.heap.cells address =
        some (.node { content with
          slots := Function.update content.slots i u.ptr }))
    (alike : (slots i).Isomorphic u)
    (represented : u.Represented after.heap.cells (.node address) i.val)
    (recent : ∀ x, u.Owns x → before.heap.next ≤ x)
    (separated : u.Separated) :
    SlotsBuilt slots [i] address content before after fun _ => u := by
  constructor
  case node_eq => exact cursor
  case array_eq => exact arrayEq
  case frame => exact frame
  case held =>
    rw [held]
    congr 3
    funext j
    rw [Function.update_apply]
    exact if_congr List.mem_singleton.symm rfl rfl
  case alike =>
    intro j member
    rw [List.mem_singleton.mp member]
    exact alike
  case represented =>
    intro j member
    rw [List.mem_singleton.mp member]
    exact represented
  case recent => exact fun _ _ => recent
  case separated => exact fun _ _ => separated
  case apart =>
    intro j member k member' different
    exact absurd ((List.mem_singleton.mp member).trans
      (List.mem_singleton.mp member').symm) different

/-- What has been built is below what is built later. -/
theorem below
    (built : SlotsBuilt slots items address content before after children)
    {j : Fin assocArrayFanOut} (member : j ∈ items) {x : Nat}
    (owned : (children j).Owns x) : x < after.heap.next := by
  obtain ⟨object, live⟩ := (built.represented j member).live owned
  exact Heap.lt_next_of_cells live

theorem cons
    {i : Fin assocArrayFanOut} {content' : AssocArrayNode} {u : Tree}
    (first :
      SlotsBuilt slots [i] address content before middle fun _ => u)
    (second : SlotsBuilt slots items address content' middle after later)
    (live : address < before.heap.next)
    (middleHeld : middle.heap.cells address = some (.node content'))
    (absent : i ∉ items) :
    SlotsBuilt slots (i :: items) address content before after
      (Function.update later i u) := by
  have head := List.mem_singleton_self i
  have same : (Function.update later i u) i = u := Function.update_self _ _ _
  have other {j : Fin assocArrayFanOut} (member : j ∈ items) :
      (Function.update later i u) j = later j :=
    Function.update_of_ne (ne_of_mem_of_not_mem member absent) _ _
  have early {x : Nat} (owned : u.Owns x) :
      before.heap.next ≤ x ∧ x < middle.heap.next :=
    ⟨first.recent i head x owned, first.below head owned⟩
  have late {j : Fin assocArrayFanOut} (member : j ∈ items) {x : Nat}
      (owned : (later j).Owns x) : middle.heap.next ≤ x :=
    second.recent j member x owned
  have contentEq :
      content' =
        { content with
          slots := fun j => if j ∈ [i] then u.ptr else content.slots j } :=
    Object.node.inj (Option.some.inj (middleHeld.symm.trans first.held))
  constructor
  case node_eq => exact second.node_eq
  case array_eq => rw [second.array_eq, first.array_eq]
  case frame => exact first.frame.trans second.frame fun _ same => Or.inl same
  case held =>
    rw [second.held, contentEq]
    congr 3
    funext j
    change
      (if j ∈ items then (later j).ptr
        else if j ∈ [i] then u.ptr else content.slots j) = _
    by_cases member : j ∈ items
    · rw [if_pos member, if_pos (List.mem_cons_of_mem _ member), other member]
    · by_cases isHead : j = i
      · subst isHead
        rw [if_neg absent, if_pos head, if_pos List.mem_cons_self, same]
      · rw [if_neg member, if_neg (List.mem_singleton.not.mpr isHead),
          if_neg (List.not_mem_cons_of_ne_of_not_mem isHead member)]
  case alike =>
    intro j member
    rcases List.mem_cons.mp member with rfl | rest
    · rw [same]
      exact first.alike j head
    · rw [other rest]
      exact second.alike j rest
  case represented =>
    intro j member
    rcases List.mem_cons.mp member with rfl | rest
    · rw [same]
      refine (first.represented j head).congr fun x owned => ?_
      obtain ⟨lower, upper⟩ := early owned
      exact second.frame.cells_eq x upper (by omega)
    · rw [other rest]
      exact second.represented j rest
  case recent =>
    intro j member x owned
    rcases List.mem_cons.mp member with rfl | rest
    · rw [same] at owned
      exact (early owned).1
    · rw [other rest] at owned
      exact Nat.le_trans first.frame.next_le (late rest owned)
  case separated =>
    intro j member
    rcases List.mem_cons.mp member with rfl | rest
    · rw [same]
      exact first.separated j head
    · rw [other rest]
      exact second.separated j rest
  case apart =>
    intro j member k member' different x owned owned'
    rcases List.mem_cons.mp member with rfl | rest <;>
      rcases List.mem_cons.mp member' with rfl | rest'
    · exact different rfl
    · rw [same] at owned
      rw [other rest'] at owned'
      have upper := (early owned).2
      have lower := late rest' owned'
      omega
    · rw [other rest] at owned
      rw [same] at owned'
      have upper := (early owned').2
      have lower := late rest owned
      omega
    · rw [other rest] at owned
      rw [other rest'] at owned'
      exact second.apart j rest k rest' different x owned owned'

end SlotsBuilt

/-- Running the statements of slot `i` builds it, whatever node the cursor is
on. -/
def SlotBuilds (slots : Fin assocArrayFanOut → Tree)
    (i : Fin assocArrayFanOut) : Prop :=
  ∀ (address : Nat) (content : AssocArrayNode) (s : Builder),
    s.node = some address →
      s.heap.cells address = some (.node content) →
        content.slots i = .null →
          ∃ final u,
            runStatements ((slots i).emitSlot i) s = .ok final ∧
              SlotsBuilt slots [i] address content s final fun _ => u

/-- One slot after another. -/
theorem runStatements_slots
    {slots : Fin assocArrayFanOut → Tree} (each : ∀ i, SlotBuilds slots i)
    (address : Nat) :
    ∀ (items : List (Fin assocArrayFanOut)) (content : AssocArrayNode)
      (s : Builder),
      items.Nodup → s.node = some address →
        s.heap.cells address = some (.node content) →
          (∀ i ∈ items, content.slots i = .null) →
            ∃ final children,
              runStatements
                  (items.flatMap fun j => (slots j).emitSlot j) s =
                .ok final ∧
              SlotsBuilt slots items address content s final children
  | [], content, s, _, cursor, held, _ =>
      ⟨s, fun _ => .empty, rfl, SlotsBuilt.nil cursor held⟩
  | i :: items, content, s, nodup, cursor, held, clear => by
      obtain ⟨absent, nodup⟩ := List.nodup_cons.mp nodup
      obtain ⟨middle, u, ran, first⟩ :=
        each i address content s cursor held (clear i List.mem_cons_self)
      have stillClear :
          ∀ j ∈ items,
            (if j ∈ [i] then u.ptr else content.slots j) = .null := by
        intro j member
        rw [if_neg (List.mem_singleton.not.mpr
          (ne_of_mem_of_not_mem member absent))]
        exact clear j (List.mem_cons_of_mem _ member)
      obtain ⟨final, children, rest, second⟩ :=
        runStatements_slots each address items _ middle nodup first.node_eq
          first.held stillClear
      refine ⟨final, _, ?_,
        first.cons second (Heap.lt_next_of_cells held) first.held absent⟩
      rw [List.flatMap_cons, runStatements_append, ran]
      exact rest

/-- The statements of a node fill the empty node at the cursor and leave the
cursor there. -/
theorem runStatements_emitNode
    {slots : Fin assocArrayFanOut → Tree} (each : ∀ i, SlotBuilds slots i)
    {address : Nat} {content : AssocArrayNode} {s : Builder}
    (cursor : s.node = some address)
    (held : s.heap.cells address = some (.node content))
    (clear : ∀ i, content.slots i = .null) (parentSlot nr : Nat) :
    ∃ final children,
      runStatements (emitNode parentSlot nr slots) s = .ok final ∧
        final.node = some address ∧
        final.array = s.array ∧
        Heap.Touches (· = address) s.heap final.heap ∧
        final.heap.cells address =
          some (.node ⟨content.backPointer, parentSlot,
            fun i => (children i).ptr, nr⟩) ∧
        (∀ i, (slots i).Isomorphic (children i)) ∧
        (∀ i, (children i).Represented final.heap.cells (.node address) i) ∧
        (∀ i x, (children i).Owns x → s.heap.next ≤ x) ∧
        (Tree.node none address nr children).Separated := by
  let entered : Builder :=
    { s with
      heap := s.heap.store address
        (.node ⟨content.backPointer, parentSlot, content.slots, nr⟩) }
  obtain ⟨final, children, ran, built⟩ :=
    runStatements_slots each address (List.finRange assocArrayFanOut) _ entered
      (List.nodup_finRange _) cursor (Heap.store_cells_self _ held)
      fun i _ => clear i
  have every := List.mem_finRange (n := assocArrayFanOut)
  have live := Heap.lt_next_of_cells held
  have marked : Heap.Touches (· = address) s.heap entered.heap :=
    Heap.Touches.ofStore _ _ _
  refine ⟨final, children, ?_, built.node_eq, built.array_eq,
    marked.trans built.frame fun _ same => Or.inl same, ?_, fun i => built.alike i (every i),
    fun i => built.represented i (every i), fun i => built.recent i (every i),
    ?_⟩
  · rw [emitNode, runStatements, runStatement_setData cursor held]
    exact ran
  · rw [built.held]
    congr 3
    funext i
    rw [if_pos (every i)]
  · refine ⟨fun _ isLead => ?_, fun i owned => ?_,
      fun i j different => built.apart i (every i) j (every j) different,
      fun i => built.separated i (every i)⟩
    · cases isLead
    · have recent := built.recent i (every i) address owned
      exact absurd recent (Nat.not_le.mpr live)

theorem slotBuilds_of_leadless :
    ∀ {t : Tree}, t.Leadless →
      ∀ {slots : Fin assocArrayFanOut → Tree} {i : Fin assocArrayFanOut},
        slots i = t → SlotBuilds slots i
  | .empty, _, slots, i, shape => by
      intro address content s cursor held clear
      refine ⟨s, .empty, ?_, ?_⟩
      · rw [shape]
        rfl
      · have same : Function.update content.slots i .null = content.slots := by
          rw [← clear, Function.update_eq_self]
        refine SlotsBuilt.singleton cursor rfl (Heap.Touches.refl _) ?_ ?_
          trivial (fun _ owned => False.elim owned) trivial
        · rw [Tree.ptr_empty, same]
          exact held
        · rw [shape]
          rfl
  | .leaf object, _, slots, i, shape => by
      intro address content s cursor held clear
      let final : Builder :=
        { s with
          heap := s.heap.store address
            (.node { content with
              slots := Function.update content.slots i (.leaf object) }) }
      refine ⟨final, .leaf object, ?_,
        SlotsBuilt.singleton cursor rfl (Heap.Touches.ofStore _ _ _)
          (Heap.store_cells_self _ held) ?_ trivial
          (fun _ owned => False.elim owned) trivial⟩
      · rw [shape, Tree.emitSlot, runStatements,
          runStatement_setLeaf cursor held]
        rfl
      · rw [shape]
        rfl
  | .node lead _ nr trees, leadless, slots, i, shape => by
      obtain ⟨rfl, plain⟩ := leadless
      intro address content s cursor held clear
      obtain ⟨entered, entering, enteredArray, enteredNode, enteredNext,
        hanging, childHeld, parentHeld⟩ :=
        runStatements_setNode_getNode cursor held i
          (emitNode i nr trees ++ [.getParent])
      obtain ⟨left, children, ran, leftNode, leftArray, filling, filled, alike,
        represented, recent, separated⟩ :=
        runStatements_emitNode
          (fun j => slotBuilds_of_leadless (plain j) (i := j) rfl) enteredNode
          childHeld (fun _ => rfl) i nr
      have live := Heap.lt_next_of_cells held
      have keptParent :
          left.heap.cells address = entered.heap.cells address :=
        filling.cells_eq address (by omega) (by omega)
      refine ⟨{ left with node := some address },
        .node none s.heap.next nr children, ?_,
        SlotsBuilt.singleton rfl (leftArray.trans enteredArray)
          (hanging.trans filling fun x same => Or.inr (by omega)) ?_ ?_
          ⟨trivial, filled, represented⟩ ?_ separated⟩
      · rw [shape]
        change
          runStatements
            (.setNode i :: .getNode i :: (emitNode i nr trees ++ [.getParent]))
            s = _
        rw [entering, runStatements_append, ran]
        change (runStatement left .getParent).bind _ = _
        rw [runStatement_getParent leftNode filled rfl]
        rfl
      · exact keptParent.trans parentHeld
      · rw [shape]
        exact ⟨_, children, rfl, alike⟩
      · intro x owned
        rcases owned with rfl | ⟨front, isLead, -⟩ | ⟨j, inside⟩
        · exact Nat.le_refl _
        · cases isLead
        · have later := recent j x inside
          omega
  | .dangling _ _, leadless, _, _, _ => False.elim leadless

/-! ## The whole program -/

/-- The script terminates, no assertion of its own or of the helpers fails, and
what it has built is a well-formed array of the same shape with the same leaves
and counts.  The back pointers and parent slots of both arrays are those
`WellFormed` prescribes. -/
theorem constructArray_rebuilds
    {heap : Heap Object} {array : AssocArray} {t : Tree}
    (wellFormed : WellFormed heap array t) (leadless : t.Leadless)
    (target : Heap Object) :
    ∃ depth stmts,
      (∀ fuel, depth ≤ fuel →
        constructArray heap fuel array = some stmts) ∧
      ∃ final u,
        runStatements stmts (Builder.start target) = .ok final ∧
          WellFormed final.heap final.array u ∧
          t.Isomorphic u ∧
          u.Separated ∧
          final.array.nrLeavesOnTree = array.nrLeavesOnTree := by
  obtain ⟨lead, address, nr, slots, rfl⟩ :=
    Tree.exists_node_of_isMeta wellFormed.whole wellFormed.root_meta
  obtain ⟨rfl, plain⟩ := leadless
  obtain ⟨-, held, children⟩ := wellFormed.represented
  obtain ⟨depth, enough⟩ :=
    constructNode_of_slots held fun i =>
      constructSlot_of_represented i (plain i) (children i)
  let entered : Builder :=
    ⟨target.alloc (.node zeroNode), ⟨.node target.next, array.nrLeavesOnTree⟩,
      some target.next⟩
  obtain ⟨final, built, ran, -, sameArray, -, filled, alike, represented, -,
      separated⟩ :=
    runStatements_emitNode (fun i => slotBuilds_of_leadless (plain i) rfl)
      (s := entered) rfl (Heap.alloc_cells_next _ _) (fun _ => rfl)
      (leadIndex none 0) nr
  have program :
      runStatements
          (.setTotal array.nrLeavesOnTree :: .makeNode :: .setRoot ::
            emitNode (leadIndex none 0) nr slots)
          (Builder.start target) =
        .ok final :=
    ran
  have isomorphic :
      (Tree.node none address nr slots).Isomorphic
        (.node none target.next nr built) :=
    ⟨_, built, rfl, alike⟩
  refine ⟨depth, _, fun fuel deep => ?_, final, .node none target.next nr built,
    program, ?_, isomorphic, separated, ?_⟩
  · rw [constructArray, wellFormed.root_ptr]
    simp only [scriptPtrToNode, Tree.ptr, Option.bind_eq_bind,
      Option.bind_some, enough fuel deep]
    rfl
  · constructor
    case root_meta => rfl
    case root_ptr =>
      rw [sameArray]
      rfl
    case whole =>
      exact (isomorphic.leadless ⟨rfl, plain⟩).whole
    case represented => exact ⟨trivial, filled, represented⟩
  · rw [sameArray]

/-- A leaf and the node of `pairTree`, at this address, below a node. -/
def towerSlots (child : Nat) (i : Fin assocArrayFanOut) : Tree :=
  if i = 2 then .leaf (exampleLeaf 2)
  else if i = 4 then .node none child 2 pairSlots
  else .empty

theorem tower_wellFormed
    {heap : Heap Object} {root child : Nat}
    (rootHeld : heap.cells root =
      some (.node ⟨.null, 0, fun i => (towerSlots child i).ptr, 3⟩))
    (childHeld : heap.cells child =
      some (.node ⟨.node root, 4, fun i => (pairSlots i).ptr, 2⟩)) :
    WellFormed heap ⟨.node root, 3⟩ (.node none root 3 (towerSlots child))
    where
  root_meta := rfl
  root_ptr := rfl
  whole := by
    intro i
    rw [towerSlots]
    split
    · trivial
    · split
      · exact pairArray_wellFormed.whole
      · trivial
  represented := by
    refine ⟨trivial, rootHeld, fun i => ?_⟩
    rw [towerSlots]
    split
    · trivial
    · split
      · next isFour =>
          subst isFour
          exact
            ⟨trivial, childHeld,
              fun j => Tree.represented_of_plain (pairSlots_plain j) _ _ _⟩
      · trivial

def towerHeap : Heap Object :=
  Heap.ofList
    [.node ⟨.null, 0, fun i => (towerSlots 1 i).ptr, 3⟩,
      .node ⟨.node 0, 4, fun i => (pairSlots i).ptr, 2⟩]

theorem towerArray_wellFormed :
    WellFormed towerHeap ⟨.node 0, 3⟩ (.node none 0 3 (towerSlots 1)) :=
  tower_wellFormed rfl rfl

theorem leadless_of_plain {t : Tree} (plain : t.isMeta = false) :
    t.Leadless := by
  rcases Tree.cases_of_not_isMeta plain with rfl | ⟨object, rfl⟩
  · trivial
  · trivial

theorem towerArray_rebuilds :
    ∃ depth stmts,
      (∀ fuel, depth ≤ fuel →
        constructArray towerHeap fuel ⟨.node 0, 3⟩ = some stmts) ∧
      ∃ final u,
        runStatements stmts (Builder.start towerHeap) = .ok final ∧
          WellFormed final.heap final.array u ∧
          (Tree.node none 0 3 (towerSlots 1)).Isomorphic u ∧
          u.Separated ∧
          final.array.nrLeavesOnTree = 3 := by
  apply constructArray_rebuilds towerArray_wellFormed
  refine ⟨rfl, fun i => ?_⟩
  rw [towerSlots]
  split
  · trivial
  · split
    · exact ⟨rfl, fun j => leadless_of_plain (pairSlots_plain j)⟩
    · trivial

end KernelStuff.AssocArrayGc
