import KernelStuff.AssocArrayGc.Refinement

/-!
# The whole call

The edit script is allocated first, so every object of the new tree is younger
than it.  A call on a well-formed array ends the way `collect` ends.
-/

namespace KernelStuff.AssocArrayGc

open KernelStuff.Library

section Call

variable {σ : Type}

/-- What the call has built when it returns: `newRoot` leads to the tree `t`,
whose objects are all younger than the edit script at `heap.next`, and no object
of the old heap has been written. -/
structure Built (heap : Heap Object) (t : Tree) (final : Gc σ) : Prop where
  newRoot_eq : final.newRoot = t.ptr
  represented : t.Represented final.heap.cells .null 0
  separated : t.Separated
  fresh : ∀ x, t.Owns x → heap.next < x
  cells_eq : ∀ x, x < heap.next → final.heap.cells x = heap.cells x
  written : ∀ x ∈ final.heap.written, heap.next ≤ x

/-- The ledger the traversal starts from. -/
def callLedger (heap : Heap Object) (data : σ) : Ledger σ where
  iteratorData := data
  trace := []
  next := heap.next + 1

variable (variant : Variant) (iterator : Leaf → σ → Bool × σ)
  (fails : Nat → Bool)

/-- The call ends as the outcome says. -/
def CallRefines (heap : Heap Object) (array : AssocArray) (data : σ) :
    Outcome (Ledger σ) Tree → Prop
  | .done t after =>
      ∃ last final,
        Reaches (gcStep variant iterator fails) (gcCall heap array data) last ∧
          last.label = .gcComplete ∧
          gcStep variant iterator fails last = .error (.returned 0 final) ∧
          Built heap t final ∧ final.array = ⟨t.ptr, t.leafCount⟩ ∧
          final.iteratorData = after.iteratorData ∧ final.trace = after.trace
  | .enomem t after =>
      ∃ final,
        GcExits variant iterator fails heap array data
            (.returned (-ENOMEM) final) ∧
          Built heap t final ∧ final.array = array ∧
          final.iteratorData = after.iteratorData ∧ final.trace = after.trace
  | .bug =>
      ∃ check after,
        GcExits variant iterator fails heap array data (.bug check after) ∧
          (∀ x, x < heap.next → after.cells x = heap.cells x) ∧
          ∀ x ∈ after.written, heap.next ≤ x

/-- The state after the edit script is allocated. -/
def editAllocated (heap : Heap Object) (array : AssocArray) (data : σ) :
    Gc σ :=
  { gcCall heap array data with
    edit := heap.next
    heap :=
      (gcCall heap array data).heap.alloc (.edit ⟨.null, array.root⟩)
    newPtrPp := .newRoot
    cursor := array.root
    label := .descend }

theorem editAllocated_arrives
    {heap : Heap Object} {array : AssocArray} {old : Tree}
    (wellFormed : WellFormed heap array old) (data : σ) :
    Arrives .root old (editAllocated heap array data) where
  label_eq := rfl
  cursor_eq := wellFormed.root_ptr
  newParent_eq := rfl
  location_eq := rfl
  vacant := rfl
  represented := by
    apply Tree.Represented.congr _ wellFormed.represented
    intro x owned
    obtain ⟨content, live⟩ := wellFormed.represented.live owned
    exact Heap.alloc_cells_of_lt _ _ (Heap.lt_next_of_cells live)
  apart := fun _ _ impossible => impossible

theorem entry_reaches
    {heap : Heap Object} {array : AssocArray} {old : Tree}
    (wellFormed : WellFormed heap array old) (data : σ)
    (allocated : fails heap.next = false) :
    Reaches (gcStep variant iterator fails) (gcCall heap array data)
      (editAllocated heap array data) := by
  have notNull : array.root ≠ .null := by
    intro null
    have isNode := wellFormed.root_meta
    rw [Tree.isMeta, ← wellFormed.root_ptr, null] at isNode
    cases isNode
  apply Reaches.single
  change entry fails (gcCall heap array data) = _
  change (if array.root = .null then _ else if fails heap.next then _ else _) = _
  rw [if_neg notNull, if_neg (Bool.eq_false_iff.mp allocated)]
  rfl

/-- From the edit script on nothing older than it is written. -/
theorem Linked.edit_frame
    {heap : Heap Object} {array : AssocArray} {data : σ} {t : Tree}
    {ledger : Ledger σ} {next : Gc σ}
    (linked : Linked .root (editAllocated heap array data) t ledger next) :
    next.heap.cells heap.next = some (.edit ⟨.null, array.root⟩) ∧
      (∀ x, x < heap.next → next.heap.cells x = heap.cells x) ∧
      ∀ x ∈ next.heap.written, heap.next ≤ x := by
  have frame := linked.frame
  refine ⟨?_, ?_, ?_⟩
  · rw [frame.cells_eq heap.next (Nat.lt_succ_self _) fun impossible => impossible]
    exact Heap.alloc_cells_next _ _
  · intro x below
    rw [frame.cells_eq x (Nat.lt_succ_of_lt below) fun impossible => impossible]
    exact Heap.alloc_cells_of_lt _ _ below
  · obtain ⟨targets, writtenEq, within⟩ := frame.written_eq
    intro x member
    rw [writtenEq] at member
    rcases within x member with impossible | beyond
    · exact False.elim impossible
    · exact Nat.le_of_succ_le beyond

/-- The last write of the call, to the edit script, leaves the tree alone. -/
theorem Linked.built
    {heap last : Heap Object} {array : AssocArray} {data : σ} {t : Tree}
    {ledger : Ledger σ} {next final : Gc σ}
    (linked : Linked .root (editAllocated heap array data) t ledger next)
    (rootEq : final.newRoot = next.newRoot)
    (heapEq : final.heap = last)
    (cellsEq : ∀ x, x ≠ heap.next → last.cells x = next.heap.cells x)
    (writtenEq : last.written = next.heap.written ++ [heap.next]) :
    Built heap t final := by
  obtain ⟨_, kept, written⟩ := linked.edit_frame
  constructor
  · exact rootEq.trans linked.hangs
  · rw [heapEq]
    apply Tree.Represented.congr _ linked.represented
    intro x owned
    have young := linked.fresh x owned
    change heap.next + 1 ≤ x at young
    exact cellsEq x (by omega)
  · exact linked.separated
  · intro x owned
    exact linked.fresh x owned
  · intro x below
    rw [heapEq, cellsEq x (Nat.ne_of_lt below)]
    exact kept x below
  · intro x member
    rw [heapEq, writtenEq, List.mem_append, List.mem_singleton] at member
    rcases member with early | same
    · exact written x early
    · exact Nat.le_of_eq same.symm

/-- A call on a well-formed array whose edit script can be allocated. -/
theorem gc_refines
    {heap : Heap Object} {array : AssocArray} {old : Tree}
    (wellFormed : WellFormed heap array old) (data : σ)
    (allocated : fails heap.next = false) :
    CallRefines variant iterator fails heap array data
      (collect variant iterator fails old (callLedger heap data)) := by
  have toDescend :=
    entry_reaches variant iterator fails wellFormed data allocated
  have collecting :=
    collect_refines variant iterator fails old .root
      (editAllocated heap array data) wellFormed.root_meta wellFormed.whole
      (editAllocated_arrives wellFormed data)
  change Refines _ _ _ _ _
    (collect variant iterator fails old (callLedger heap data)) at collecting
  cases outcome :
      collect variant iterator fails old (callLedger heap data) with
  | done t after =>
      rw [outcome] at collecting
      obtain ⟨next, run, linked, atRoot, leaves⟩ := collecting
      have editLive := linked.edit_frame.1
      have editEq : next.edit = heap.next := linked.edit_eq
      have rootEq : next.newRoot = t.ptr := linked.hangs
      refine
        ⟨next, { next with
            heap := next.heap.store heap.next (.edit ⟨next.newRoot, array.root⟩)
            array := ⟨next.newRoot, next.nrLeavesOnTree⟩ },
          toDescend.trans run, atRoot, ?_,
          linked.built rfl rfl
            (fun x different => Heap.store_cells_of_ne _ _ different) rfl,
          ?_, linked.iteratorData_eq, linked.trace_eq⟩
      · have step :
            gcStep variant iterator fails next = gcComplete next := by
          rw [gcStep, atRoot]
        rw [step]
        simp only [gcComplete, editEq, editLive]
      · rw [rootEq, leaves]
  | enomem t after =>
      rw [outcome] at collecting
      obtain ⟨next, run, linked, label⟩ := collecting
      have editEq : next.edit = heap.next := linked.edit_eq
      refine
        ⟨{ next with heap := next.heap.free heap.next },
          Halts.of_reaches (toDescend.trans run)
            ⟨next, Reaches.refl next, ?_⟩,
          linked.built rfl rfl
            (fun x different => Heap.free_cells_of_ne _ different) rfl,
          linked.array_eq, linked.iteratorData_eq, linked.trace_eq⟩
      have step :
          gcStep variant iterator fails next = AssocArrayGc.enomem next := by
        rw [gcStep, label]
      rw [step]
      simp only [AssocArrayGc.enomem, editEq]
  | bug =>
      rw [outcome] at collecting
      obtain ⟨last, exit, run, stops, check, after, isBug, frame⟩ := collecting
      subst isBug
      refine
        ⟨check, after,
          Halts.of_reaches (toDescend.trans run) ⟨last, Reaches.refl last, stops⟩,
          ?_, ?_⟩
      · intro x below
        rw [frame.cells_eq x (Nat.lt_succ_of_lt below)
          fun impossible => impossible]
        exact Heap.alloc_cells_of_lt _ _ below
      · obtain ⟨targets, writtenEq, within⟩ := frame.written_eq
        intro x member
        rw [writtenEq] at member
        rcases within x member with impossible | beyond
        · exact False.elim impossible
        · exact Nat.le_of_succ_le beyond

/-- Without memory for the edit script the call gives up at once. -/
theorem gc_refused
    {heap : Heap Object} {array : AssocArray} {old : Tree}
    (wellFormed : WellFormed heap array old) (data : σ)
    (refused : fails heap.next = true) :
    GcExits variant iterator fails heap array data
      (.returned (-ENOMEM) (gcCall heap array data)) := by
  have notNull : array.root ≠ .null := by
    intro null
    have isNode := wellFormed.root_meta
    rw [Tree.isMeta, ← wellFormed.root_ptr, null] at isNode
    cases isNode
  refine ⟨_, Reaches.refl _, ?_⟩
  change (if array.root = .null then _ else if fails heap.next then _ else _) = _
  rw [if_neg notNull, if_pos refused]

/-- A call that returns 0 has collected the whole tree. -/
theorem gc_returned_zero
    {heap : Heap Object} {array : AssocArray} {old : Tree} {data : σ}
    {final : Gc σ}
    (wellFormed : WellFormed heap array old)
    (exits : GcExits variant iterator fails heap array data
      (.returned 0 final)) :
    ∃ t after,
      collect variant iterator fails old (callLedger heap data) =
          .done t after ∧
        Built heap t final ∧ final.array = ⟨t.ptr, t.leafCount⟩ ∧
        final.iteratorData = after.iteratorData ∧
        final.trace = after.trace := by
  cases refused : fails heap.next with
  | true =>
      have other :=
        gc_refused variant iterator fails wellFormed data refused
      cases Halts.unique exits other
  | false =>
      have refines :=
        gc_refines variant iterator fails wellFormed data refused
      cases outcome :
          collect variant iterator fails old (callLedger heap data) with
      | done t after =>
          rw [outcome] at refines
          obtain ⟨last, result, run, _, stops, facts⟩ := refines
          cases Halts.unique exits ⟨last, run, stops⟩
          exact ⟨t, after, rfl, facts⟩
      | enomem t after =>
          rw [outcome] at refines
          obtain ⟨last, other, _⟩ := refines
          cases Halts.unique exits other
      | bug =>
          rw [outcome] at refines
          obtain ⟨check, last, other, _⟩ := refines
          cases Halts.unique exits other

/-- The tree a call that returned 0 has published is a well-formed array. -/
theorem Built.wellFormed
    {heap : Heap Object} {t : Tree} {final : Gc σ}
    (built : Built heap t final)
    (arrayEq : final.array = ⟨t.ptr, t.leafCount⟩)
    (isNode : t.isMeta = true) (whole : t.Whole) :
    WellFormed final.heap final.array t where
  root_meta := isNode
  root_ptr := by rw [arrayEq]
  whole := whole
  represented := built.represented

/-- A call whose collection goes through returns 0 and publishes its tree. -/
theorem gc_collected_returns
    {heap : Heap Object} {array : AssocArray} {old t : Tree} {data : σ}
    {after : Ledger σ}
    (wellFormed : WellFormed heap array old)
    (allocated : fails heap.next = false)
    (collected : collect variant iterator fails old (callLedger heap data) =
      .done t after) :
    ∃ final,
      GcExits variant iterator fails heap array data (.returned 0 final) ∧
        WellFormed final.heap final.array t := by
  have refines :=
    gc_refines variant iterator fails wellFormed data allocated
  rw [collected] at refines
  obtain ⟨last, final, run, _, stops, built, arrayEq, _⟩ := refines
  refine ⟨final, ⟨last, run, stops⟩, built.wellFormed arrayEq ?_ ?_⟩
  · rw [collect_isMeta collected]
    exact wellFormed.root_meta
  · exact (collect_collected collected).whole

/-- A run that comes to `gc_complete` ends there, and the call returns 0. -/
theorem gc_complete_returns
    {heap : Heap Object} {array : AssocArray} {old : Tree} {data : σ}
    {last : Gc σ}
    (wellFormed : WellFormed heap array old)
    (run : Reaches (gcStep variant iterator fails) (gcCall heap array data)
      last)
    (complete : last.label = .gcComplete) :
    ∃ final,
      GcExits variant iterator fails heap array data (.returned 0 final) := by
  have stops :
      ∃ exit, gcStep variant iterator fails last = .error exit ∧
        (exit = .fault ∨ ∃ final, exit = .returned 0 final) := by
    rw [gcStep, complete]
    simp only [gcComplete]
    split
    · exact ⟨_, rfl, Or.inr ⟨_, rfl⟩⟩
    · exact ⟨_, rfl, Or.inl rfl⟩
  obtain ⟨exit, stops, isFault | ⟨final, isReturn⟩⟩ := stops
  · subst isFault
    have faults :
        GcExits variant iterator fails heap array data .fault :=
      ⟨last, run, stops⟩
    cases refused : fails heap.next with
    | true =>
        have other :=
          gc_refused variant iterator fails wellFormed data refused
        cases Halts.unique faults other
    | false =>
        have refines :=
          gc_refines variant iterator fails wellFormed data refused
        cases outcome :
            collect variant iterator fails old (callLedger heap data) with
        | done t after =>
            rw [outcome] at refines
            obtain ⟨other, _, otherRun, _, otherStops, _⟩ := refines
            cases Halts.unique faults ⟨other, otherRun, otherStops⟩
        | enomem t after =>
            rw [outcome] at refines
            obtain ⟨_, other, _⟩ := refines
            cases Halts.unique faults other
        | bug =>
            rw [outcome] at refines
            obtain ⟨_, _, other, _⟩ := refines
            cases Halts.unique faults other
  · subst isReturn
    exact ⟨final, last, run, stops⟩

end Call

/-! ## A small array -/

scoped instance neZero_leaves : NeZero 32 := ⟨by decide⟩

/-- Some leaf pointers. -/
def exampleLeaf (n : Fin 32) : Leaf where
  word := BitVec.ofNat 64 (4 * (n.val + 1))
  nonNull := by
    revert n
    decide
  tagClear := by
    revert n
    decide

theorem fanOut_le_leaves : assocArrayFanOut ≤ 32 := by
  decide

/-- Keeps every other leaf. -/
def alternate (_ : Leaf) (n : Nat) : Bool × Nat :=
  (n % 2 == 0, n + 1)

def pairSlots (i : Fin assocArrayFanOut) : Tree :=
  if i = 3 then .leaf (exampleLeaf 0)
  else if i = 5 then .leaf (exampleLeaf 1)
  else .empty

/-- One node with two leaves. -/
def pairTree : Tree :=
  .node none 0 0 pairSlots

def pairHeap : Heap Object :=
  Heap.ofList [.node ⟨.null, 0, fun i => (pairSlots i).ptr, 0⟩]

def pairArray : AssocArray :=
  ⟨.node 0, 2⟩

theorem pairSlots_plain (i : Fin assocArrayFanOut) :
    (pairSlots i).isMeta = false := by
  rw [pairSlots]
  split
  · rfl
  · split <;> rfl

theorem pairArray_wellFormed : WellFormed pairHeap pairArray pairTree where
  root_meta := rfl
  root_ptr := rfl
  whole := by
    intro i
    rw [pairSlots]
    split
    · trivial
    · split <;> trivial
  represented :=
    ⟨trivial, rfl,
      fun i => Tree.represented_of_plain (pairSlots_plain i) _ _ _⟩

/-! ## A larger array -/

/-- The outcome is a tree that the test accepts. -/
def Outcome.passes {State : Type} (test : Tree → State → Bool) :
    Outcome State Tree → Bool
  | .done t after => test t after
  | .enomem _ _ => false
  | .bug => false

/-- The outcome is that an allocation has failed. -/
def Outcome.givesUp {State : Type} : Outcome State Tree → Bool
  | .done _ _ => false
  | .enomem _ _ => true
  | .bug => false

/-- These leaves in the first slots. -/
def leafSlots (objects : List (Fin 32)) (i : Fin assocArrayFanOut) : Tree :=
  match objects[i.val]? with
  | some n => .leaf (exampleLeaf n)
  | none => .empty

/-- Thirteen leaves, a child with two leaves, and two children that lose their only
leaf: the first child does not fit in before these are folded. -/
def retrySlots (i : Fin assocArrayFanOut) : Tree :=
  if i = 13 then .node none 3 2 (leafSlots [13, 14])
  else if i = 14 then .node none 4 1 (leafSlots [15])
  else if i = 15 then .node none 5 1 (leafSlots [16])
  else .leaf (exampleLeaf (i.castLE fanOut_le_leaves))

/-- The key of a shortcut over two levels. -/
def exampleKey : SkipKey :=
  ⟨8, [0#64], rfl⟩

/-- The shortcut in front of the node that is compressed twice. -/
def retryLead : Lead :=
  ⟨1, exampleKey⟩

/-- The shortcut, two leaves, and a child that is folded. -/
def retryRootSlots (i : Fin assocArrayFanOut) : Tree :=
  if i = 0 then .node (some retryLead) 2 17 retrySlots
  else if i = 1 then .leaf (exampleLeaf 17)
  else if i = 2 then .leaf (exampleLeaf 18)
  else if i = 3 then .node none 6 2 (leafSlots [19, 20])
  else .empty

def retryTree : Tree :=
  .node none 0 21 retryRootSlots

def retryHeap : Heap Object :=
  Heap.ofList
    [.node ⟨.null, 0, fun i => (retryRootSlots i).ptr, 21⟩,
      .shortcut ⟨.node 0, 0, .node 2, retryLead.key⟩,
      .node ⟨.shortcut 1, 0, fun i => (retrySlots i).ptr, 17⟩,
      .node ⟨.node 2, 13, fun i => (leafSlots [13, 14] i).ptr, 2⟩,
      .node ⟨.node 2, 14, fun i => (leafSlots [15] i).ptr, 1⟩,
      .node ⟨.node 2, 15, fun i => (leafSlots [16] i).ptr, 1⟩,
      .node ⟨.node 0, 3, fun i => (leafSlots [19, 20] i).ptr, 2⟩]

def retryArray : AssocArray :=
  ⟨.node 0, 21⟩

/-- Rejects the leaves of the two children, and counts the calls. -/
def rejectTwo (object : Leaf) (calls : Nat) : Bool × Nat :=
  (decide (object ≠ exampleLeaf 15 ∧ object ≠ exampleLeaf 16), calls + 1)

theorem leafSlots_plain (objects : List (Fin 32)) (i : Fin assocArrayFanOut) :
    (leafSlots objects i).isMeta = false := by
  rw [leafSlots]
  split <;> rfl

theorem Tree.whole_of_plain {t : Tree} (plain : t.isMeta = false) :
    t.Whole := by
  rcases Tree.cases_of_not_isMeta plain with isEmpty | ⟨object, isLeaf⟩
  · rw [isEmpty]
    trivial
  · rw [isLeaf]
    trivial

/-- A node of leaves is represented by its own object. -/
theorem leafNode_represented
    {cells : Nat → Option Object} {back : Ptr} {index address nr : Nat}
    {objects : List (Fin 32)}
    (held : cells address =
      some (.node ⟨back, index, fun i => (leafSlots objects i).ptr, nr⟩)) :
    (Tree.node none address nr (leafSlots objects)).Represented cells back
      index :=
  ⟨trivial, held,
    fun i => Tree.represented_of_plain (leafSlots_plain objects i) _ _ _⟩

theorem leafNode_whole (address nr : Nat) (objects : List (Fin 32)) :
    (Tree.node none address nr (leafSlots objects)).Whole :=
  fun i => Tree.whole_of_plain (leafSlots_plain objects i)

theorem retrySlots_whole (i : Fin assocArrayFanOut) :
    (retrySlots i).Whole := by
  rw [retrySlots]
  split
  · exact leafNode_whole _ _ _
  split
  · exact leafNode_whole _ _ _
  split
  · exact leafNode_whole _ _ _
  · trivial

theorem retrySlots_represented (i : Fin assocArrayFanOut) :
    (retrySlots i).Represented retryHeap.cells (.node 2) i.val := by
  rw [retrySlots]
  split
  · next here =>
      subst here
      exact leafNode_represented rfl
  split
  · next here =>
      subst here
      exact leafNode_represented rfl
  split
  · next here =>
      subst here
      exact leafNode_represented rfl
  · trivial

theorem retryArray_wellFormed :
    WellFormed retryHeap retryArray retryTree where
  root_meta := rfl
  root_ptr := rfl
  whole := by
    intro i
    rw [retryRootSlots]
    split
    · exact retrySlots_whole
    split
    · trivial
    split
    · trivial
    split
    · exact leafNode_whole _ _ _
    · trivial
  represented := by
    refine ⟨trivial, rfl, ?_⟩
    intro i
    rw [retryRootSlots]
    split
    · next here =>
        subst here
        exact ⟨rfl, rfl, retrySlots_represented⟩
    split
    · trivial
    split
    · trivial
    split
    · next here =>
        subst here
        exact leafNode_represented rfl
    · trivial

/-- A call without failing allocations that the test accepts returns. -/
theorem retryArray_returns
    (variant : Variant) (test : Tree → Ledger Nat → Bool)
    (passes :
      (collect variant rejectTwo (fun _ => false) retryTree
        (callLedger retryHeap 0)).passes test = true) :
    ∃ t after last final,
      test t after = true ∧
        Reaches (gcStep variant rejectTwo fun _ => false)
          (gcCall retryHeap retryArray 0) last ∧
        last.label = .gcComplete ∧
        GcExits variant rejectTwo (fun _ => false) retryHeap retryArray 0
          (.returned 0 final) ∧
        WellFormed final.heap final.array t ∧ final.trace = after.trace := by
  have refines :=
    gc_refines variant rejectTwo (fun _ => false) retryArray_wellFormed 0 rfl
  cases outcome :
      collect variant rejectTwo (fun _ => false) retryTree
        (callLedger retryHeap 0) with
  | bug =>
      rw [outcome] at passes
      cases passes
  | enomem t after =>
      rw [outcome] at passes
      cases passes
  | done t after =>
      rw [outcome] at passes refines
      obtain ⟨last, final, run, complete, stops, _, _, _, traceEq⟩ := refines
      obtain ⟨other, exits, published⟩ :=
        gc_collected_returns variant rejectTwo _ retryArray_wellFormed rfl
          outcome
      cases Halts.unique exits ⟨last, run, stops⟩
      exact
        ⟨t, after, last, final, passes, run, complete, exits, published,
          traceEq⟩

/-- When the child with the first rejected leaf gets no new node, the call gives
up. -/
theorem retryArray_gives_up :
    ∃ final,
      GcExits .patched rejectTwo (fun address => address == 12) retryHeap
        retryArray 0 (.returned (-ENOMEM) final) := by
  have refines :=
    gc_refines .patched rejectTwo (fun address => address == 12)
      retryArray_wellFormed 0 rfl
  have gives :
      (collect .patched rejectTwo (fun address => address == 12) retryTree
        (callLedger retryHeap 0)).givesUp = true := by
    decide +kernel
  cases outcome :
      collect .patched rejectTwo (fun address => address == 12) retryTree
        (callLedger retryHeap 0) with
  | bug =>
      rw [outcome] at gives
      cases gives
  | done t after =>
      rw [outcome] at gives
      cases gives
  | enomem t after =>
      rw [outcome] at refines
      obtain ⟨final, exits, _⟩ := refines
      exact ⟨final, exits⟩

end KernelStuff.AssocArrayGc
