import KernelStuff.AssocArrayGc.Excision

/-!
# The machine collects a subtree as `collect` does

The induction is on the old tree.  A node is entered at `descend`, its slots are
visited in `continue_node` with `Looping` as the invariant, and it is left
through `retry_compress`, the excision code and `ascend_old_tree`.
-/

namespace KernelStuff.AssocArrayGc

open KernelStuff.Library

section Refinement

variable {σ : Type} (variant : Variant) (iterator : Leaf → σ → Bool × σ)
  (fails : Nat → Bool)

theorem Linked.ledger_eq
    {place : Place} {before after : Gc σ} {ledger : Ledger σ} {t : Tree}
    (linked : Linked place before t ledger after) :
    ledgerOf after = ledger := by
  rw [ledgerOf, linked.iteratorData_eq, linked.trace_eq, linked.next_eq]

/-- An older tree that the place does not lie in is still there. -/
theorem Linked.old_represented
    {place : Place} {before after : Gc σ} {ledger : Ledger σ} {t old : Tree}
    {back : Ptr} {index : Nat}
    (linked : Linked place before t ledger after)
    (represented : old.Represented before.heap.cells back index)
    (apart : ∀ x, old.Owns x → ¬ place.Touched x) :
    old.Represented after.heap.cells back index := by
  apply Tree.Represented.congr _ represented
  intro x owned
  obtain ⟨content, live⟩ := represented.live owned
  exact linked.frame.cells_eq x (Heap.lt_next_of_cells live) (apart x owned)

theorem Bugged.widen
    {place : Place} {before s : Gc σ} {ledger : Ledger σ} {t : Tree}
    {cells : Nat → Prop} {exit : Exit σ}
    (linked : Linked place before t ledger s)
    (within : ∀ x, cells x → before.heap.next ≤ x)
    (bugged : Bugged s.heap cells exit) :
    Bugged before.heap place.Touched exit := by
  obtain ⟨check, heap, isBug, frame⟩ := bugged
  exact
    ⟨check, heap, isBug,
      linked.frame.trans frame fun x inside => Or.inr (within x inside)⟩

/-! ## Leaving a node -/

theorem pass_step
    {place : Place} {before s : Gc σ} {ledger : Ledger σ}
    {front : Option Lead} {copy nr : Nat}
    {slots : Fin assocArrayFanOut → Tree}
    (linked : Linked place before (.node front copy nr slots) ledger s)
    (label : s.label = .retryCompress)
    (atNode : s.newN = some copy)
    (counted : ∀ i, (slots i).Counted)
    (whole : ∀ i, (slots i).Whole) :
    Simulates
      (fun next p => ∃ heap,
        next = afterPass variant s copy heap p ∧
          Linked place before (.node front copy p.nr p.slots)
            { ledger with trace := next.trace } next)
      (Bugged before.heap place.Touched)
      (gcStep variant iterator fails s)
      (compressPass slots) := by
  have step :
      gcStep variant iterator fails s = retryCompress variant s := by
    rw [gcStep, label]
  have inside : ∀ x, NodeCells copy slots x → before.heap.next ≤ x := by
    rintro x (same | ⟨i, inSlot⟩)
    · exact linked.fresh x (Or.inl same)
    · exact linked.fresh x (Or.inr (Or.inr ⟨i, inSlot⟩))
  have simulation :
      Simulates _ _ (retryCompress variant s) (compressPass slots) :=
    retryCompress_simulates atNode linked.nodeHeld counted whole
  rw [step]
  cases run : compressPass slots with
  | none =>
      rw [run] at simulation
      obtain ⟨exit, stops, bugged⟩ := simulation
      exact ⟨exit, stops, bugged.widen linked inside⟩
  | some p =>
      rw [run] at simulation
      obtain ⟨next, moves, heap, nextIs, nextEq, held, frame⟩ := simulation
      have visited := compressPass_visited counted whole run
      refine ⟨next, moves, heap, nextIs, ?_⟩
      subst nextIs
      have fields :
          (afterPass variant s copy heap p).heap = heap ∧
            (afterPass variant s copy heap p).array = s.array ∧
            (afterPass variant s copy heap p).edit = s.edit ∧
            (afterPass variant s copy heap p).newRoot = s.newRoot ∧
            (afterPass variant s copy heap p).iteratorData =
              s.iteratorData := by
        rw [afterPass]
        split <;> exact ⟨rfl, rfl, rfl, rfl, rfl⟩
      obtain ⟨heapEq, arrayEq, editEq, rootEq, dataEq⟩ := fields
      refine
        linked.compressed ?_ (fun i x => visited.owns) ?_ arrayEq editEq
          rootEq (dataEq.trans linked.iteratorData_eq) rfl ?_
      · rw [heapEq]
        exact held
      · rw [heapEq]
        exact frame
      · rw [heapEq, nextEq, linked.next_eq]

/-- The compress loop, with the jump back taken at most once. -/
theorem compress_reaches
    {place : Place} {before s : Gc σ} {ledger : Ledger σ}
    {front : Option Lead} {copy nr : Nat}
    {slots : Fin assocArrayFanOut → Tree}
    (linked : Linked place before (.node front copy nr slots) ledger s)
    (label : s.label = .retryCompress)
    (atNode : s.newN = some copy)
    (counted : ∀ i, (slots i).Counted)
    (whole : ∀ i, (slots i).Whole) :
    match compress variant copy slots with
    | some (p, retries) =>
        ∃ next,
          Reaches (gcStep variant iterator fails) s next ∧
            next.label = .excise ∧ next.newN = some copy ∧
            next.nrFree = p.nrFree ∧ next.nrLeavesOnTree = p.nr ∧
            next.node = s.node ∧ p.Sound ∧
            Linked place before (.node front copy p.nr p.slots)
              { ledger with trace := ledger.trace ++ retries } next
    | none =>
        ∃ last exit,
          Reaches (gcStep variant iterator fails) s last ∧
            gcStep variant iterator fails last = .error exit ∧
            Bugged before.heap place.Touched exit := by
  have first :=
    pass_step variant iterator fails linked label atNode counted whole
  rw [compress]
  cases run : compressPass slots with
  | none =>
      rw [run] at first
      obtain ⟨exit, stops, bugged⟩ := first
      exact ⟨s, exit, Reaches.refl s, stops, bugged⟩
  | some p =>
      rw [run] at first
      obtain ⟨middle, moves, heap, middleIs, onward⟩ := first
      have sound := (compressPass_visited counted whole run).sound
      rw [Option.bind_some]
      by_cases again : variant.retries p.retained p.nr = true
      · rw [afterPass, if_pos again] at middleIs
        have middleTrace : middle.trace = ledger.trace ++ [.retried copy] := by
          rw [middleIs, linked.trace_eq]
        have second :=
          pass_step variant iterator fails onward
            (by rw [middleIs]; exact label) (by rw [middleIs]; exact atNode)
            sound.counted sound.whole
        rw [if_pos again]
        cases rerun : compressPass p.slots with
        | none =>
            rw [rerun] at second
            obtain ⟨exit, stops, bugged⟩ := second
            exact ⟨middle, exit, Reaches.single moves, stops, bugged⟩
        | some q =>
            rw [rerun] at second
            obtain ⟨last, alsoMoves, heap, lastIs, done⟩ := second
            have noMore : ¬ variant.retries q.retained q.nr = true := by
              obtain ⟨isPatched, _, few⟩ := Variant.retries_nr_lt again
              rw [isPatched, Variant.retries,
                compressPass_second counted whole run few rerun]
              simp
            rw [afterPass, if_neg noMore] at lastIs
            refine
              ⟨last, (Reaches.single moves).trans (Reaches.single alsoMoves),
                by rw [lastIs], ?_, by rw [lastIs], by rw [lastIs], ?_,
                (compressPass_visited sound.counted sound.whole rerun).sound,
                ?_⟩
            · rw [lastIs, middleIs]
              exact atNode
            · rw [lastIs, middleIs]
            · have lastTrace : last.trace = middle.trace := by rw [lastIs]
              rw [lastTrace, middleTrace] at done
              exact done
      · rw [if_neg again]
        rw [afterPass, if_neg again] at middleIs
        refine
          ⟨middle, Reaches.single moves, by rw [middleIs], ?_,
            by rw [middleIs], by rw [middleIs], by rw [middleIs], sound, ?_⟩
        · rw [middleIs]
          exact atNode
        · have middleTrace : middle.trace = ledger.trace := by
            rw [middleIs, linked.trace_eq]
          rw [middleTrace] at onward
          rw [List.append_nil]
          exact onward

/-- Where the machine stands when a subtree is done: at the end, or at the next
slot of the parent. -/
def Place.Landed (place : Place) (s : Gc σ) : Prop :=
  match place with
  | .root => s.label = .gcComplete
  | .slot oldParent newParent i =>
      s.label = .continueNode ∧ s.node = some oldParent ∧
        s.newN = some newParent ∧ s.newParent = .node newParent ∧
        s.slot = i.val + 1

/-- Climbing the old tree by its own back pointers. -/
theorem ascend_reaches
    {place : Place} {s next : Gc σ} {front lead : Option Lead}
    {address nr : Nat} {slots : Fin assocArrayFanOut → Tree}
    (departs : place.Departs front s next)
    (atNode : s.node = some address)
    (sameLead : front.isSome = lead.isSome)
    (old : (Tree.node lead address nr slots).Represented next.heap.cells
      place.oldBack place.index) :
    ∃ landed,
      Reaches (gcStep variant iterator fails) next landed ∧
        place.Landed landed ∧
        landed =
          { next with
            cursor := landed.cursor
            node := landed.node
            slot := landed.slot
            label := landed.label } := by
  obtain ⟨leadHeld, cell, _⟩ := old
  obtain ⟨nodeEq, _, label⟩ := departs
  have load :
      loadNode (σ := σ) next.heap next.node =
        .ok (address, ⟨leadBack lead place.oldBack, leadIndex lead place.index,
          fun i => (slots i).ptr, nr⟩) := by
    rw [nodeEq, atNode]
    exact loadNode_some cell
  have ascending :
      next.label = .ascendOldTree →
        gcStep variant iterator fails next = ascendOldTree next := by
    intro here
    rw [gcStep, here]
  cases place with
  | root =>
      rcases label with done | ⟨here, behind⟩
      · exact ⟨next, Reaches.refl next, done, rfl⟩
      · rw [sameLead] at behind
        obtain ⟨old, isLead⟩ := Option.isSome_iff_exists.mp behind
        subst isLead
        have loadLead :
            loadShortcut (σ := σ) next.heap (some old.address) =
              .ok (old.address, ⟨.null, 0, .node address, old.key⟩) :=
          loadShortcut_some leadHeld
        refine ⟨{ next with label := .gcComplete }, ?_, rfl, rfl⟩
        apply Reaches.single
        rw [ascending here]
        simp only [ascendOldTree, load, bind, Except.bind, leadBack,
          assocArrayPtrIsShortcut, if_true, assocArrayPtrToMeta, loadLead]
        rfl
  | slot oldParent newParent i =>
      obtain ⟨here, newNEq, newParentEq⟩ := label
      refine
        ⟨{ next with
            cursor := .node oldParent
            node := some oldParent
            slot := i.val + 1
            label := .continueNode }, ?_,
          ⟨rfl, rfl, newNEq, newParentEq, rfl⟩, rfl⟩
      apply Reaches.single
      rw [ascending here]
      cases lead with
      | none =>
          simp only [ascendOldTree, load, bind, Except.bind, leadBack,
            Place.oldBack, assocArrayPtrIsShortcut, Bool.false_eq_true,
            if_false, reduceCtorEq, assocArrayPtrToMeta, leadIndex, Place.index]
          rfl
      | some old =>
          have loadLead :
              loadShortcut (σ := σ) next.heap (some old.address) =
                .ok (old.address, ⟨.node oldParent, i.val, .node address,
                  old.key⟩) :=
            loadShortcut_some leadHeld
          simp only [ascendOldTree, load, bind, Except.bind, leadBack,
            assocArrayPtrIsShortcut, if_true, assocArrayPtrToMeta, loadLead,
            reduceCtorEq, if_false]
          rfl

/-! ## Entering a node -/

/-- The machine is about to descend into `old`, whose copy belongs into the
place. -/
structure Arrives (place : Place) (old : Tree) (s : Gc σ) : Prop where
  label_eq : s.label = .descend
  cursor_eq : s.cursor = old.ptr
  newParent_eq : s.newParent = place.newBack
  location_eq : s.newPtrPp = place.location
  vacant : place.Hangs s .null s
  represented : old.Represented s.heap.cells place.oldBack place.index
  apart : ∀ x, old.Owns x → ¬ place.Touched x

/-- Where a pointer to the copy of a node is stored. -/
def leadLocation (front : Option Lead) (location : Location) : Location :=
  match front with
  | none => location
  | some lead => .nextNode lead.address

/-- Between the shortcut in front of a node and the node. -/
structure Halfway (place : Place) (before : Gc σ) (front : Option Lead)
    (address next : Nat) (s : Gc σ) : Prop where
  label_eq : s.label = .duplicateNode
  cursor_eq : s.cursor = .node address
  newParent_eq : s.newParent = leadBack front place.newBack
  location_eq : s.newPtrPp = leadLocation front place.location
  linked : Linked place before (unlinked front (.node address))
    { ledgerOf before with next := next } s

/-- The duplicate of the shortcut is linked while it still leads into the old
tree. -/
theorem descend_reaches
    {place : Place} {s : Gc σ} {lead : Option Lead} {address nr : Nat}
    {slots : Fin assocArrayFanOut → Tree}
    (arrives : Arrives place (.node lead address nr slots) s)
    (allocated : (lead.isSome && fails s.heap.next) = false) :
    ∃ next,
      Reaches (gcStep variant iterator fails) s next ∧
        Halfway place s (duplicateLead lead s.heap.next) address
          (afterLead lead s.heap.next) next := by
  have step : gcStep variant iterator fails s = descend fails s := by
    rw [gcStep, arrives.label_eq]
  cases lead with
  | none =>
      refine ⟨{ s with label := .duplicateNode }, ?_, ?_⟩
      · apply Reaches.single
        rw [step, descend, arrives.cursor_eq]
        rfl
      · exact
          ⟨rfl, arrives.cursor_eq, arrives.newParent_eq, arrives.location_eq,
            (Linked.start arrives.vacant).congr rfl rfl rfl rfl rfl rfl rfl⟩
  | some old =>
      obtain ⟨leadHeld, _, _⟩ := arrives.represented
      have load :
          loadShortcut (σ := σ) s.heap (some old.address) =
            .ok (old.address, ⟨place.oldBack, place.index, .node address,
              old.key⟩) :=
        loadShortcut_some leadHeld
      rw [Option.isSome_some, Bool.true_and] at allocated
      let heap : Heap Object :=
        s.heap.alloc
          (.shortcut ⟨place.newBack, place.index, .node address, old.key⟩)
      have kept :
          ∀ x, place.Touched x → heap.cells x = s.heap.cells x :=
        fun x touched =>
          Heap.alloc_cells_of_lt _ _ (arrives.vacant.touched_lt touched)
      have hangs : place.Hangs s .null { s with heap := heap } :=
        arrives.vacant.congr rfl kept
      have moved :
          gcStep variant iterator fails s =
            (storePtr { s with heap := heap } (.shortcut s.heap.next)).bind
              fun stored =>
                .ok { stored with
                  newParent := .shortcut s.heap.next
                  newPtrPp := .nextNode s.heap.next
                  cursor := .node address
                  label := .duplicateNode } := by
        rw [step]
        simp only [descend, arrives.cursor_eq, Tree.ptr,
          assocArrayPtrIsShortcut, if_true, assocArrayPtrToMeta, load, bind,
          Except.bind, allocated, Bool.false_eq_true, if_false,
          arrives.newParent_eq]
        rfl
      rw [Place.storePtr_eq (.shortcut s.heap.next) hangs
        arrives.location_eq] at moved
      refine ⟨_, Reaches.single moved, rfl, rfl, rfl, rfl, ?_⟩
      refine
        (Linked.start arrives.vacant).replace ?_ trivial
          ((Heap.Touches.refl s.heap).andAlloc _) ?_ rfl rfl rfl rfl rfl rfl rfl
      · rintro x rfl
        exact Nat.le_refl _
      · exact Heap.alloc_cells_next s.heap _

/-- The invariant of the loop at `continue_node`, in front of slot `k`. -/
structure Looping (place : Place) (before : Gc σ) (address : Nat)
    (front : Option Lead) (copy : Nat)
    (filtered : Fin assocArrayFanOut → Tree) (k : Nat) (ledger : Ledger σ)
    (s : Gc σ) : Prop where
  label_eq : s.label = .continueNode
  node_eq : s.node = some address
  newN_eq : s.newN = some copy
  newParent_eq : s.newParent = .node copy
  slot_eq : s.slot = k
  linked : Linked place before (.node front copy 0 filtered) ledger s
  vacant : ∀ i : Fin assocArrayFanOut, k ≤ i.val → filtered i = .empty

theorem leadIndex_congr
    {first second : Option Lead} (index : Nat)
    (same : first.isSome = second.isSome) :
    leadIndex first index = leadIndex second index := by
  cases first with
  | none =>
      cases second with
      | none => rfl
      | some _ => cases same
  | some _ =>
      cases second with
      | none => cases same
      | some _ => rfl

/-- The new node is linked where the pointer to it belongs: into the place, or
into the duplicate of the shortcut. -/
theorem duplicateNode_reaches
    {place : Place} {before s : Gc σ} {lead front : Option Lead}
    {address nr copy : Nat} {slots : Fin assocArrayFanOut → Tree}
    (halfway : Halfway place before front address copy s)
    (sameLead : front.isSome = lead.isSome)
    (old : (Tree.node lead address nr slots).Represented s.heap.cells
      place.oldBack place.index)
    (allocated : fails copy = false) :
    ∃ next,
      Reaches (gcStep variant iterator fails) s next ∧
        Looping place before address front copy (fun _ => .empty) 0
          { ledgerOf before with next := copy + 1 } next := by
  have step : gcStep variant iterator fails s = duplicateNode fails s := by
    rw [gcStep, halfway.label_eq]
  have linked := halfway.linked
  have nextEq : s.heap.next = copy := linked.next_eq
  obtain ⟨_, cell, _⟩ := old
  have load :
      loadNode (σ := σ) s.heap (some address) =
        .ok (address, ⟨leadBack lead place.oldBack, leadIndex lead place.index,
          fun i => (slots i).ptr, nr⟩) :=
    loadNode_some cell
  let heap : Heap Object :=
    s.heap.alloc
      (.node ⟨leadBack front place.newBack, leadIndex front place.index,
        fun _ => .null, 0⟩)
  have copyCell :
      heap.cells copy =
        some (.node ⟨leadBack front place.newBack, leadIndex front place.index,
          fun _ => .null, 0⟩) := by
    rw [← nextEq]
    exact Heap.alloc_cells_next s.heap _
  have frame :
      Heap.Touches (unlinked front (.node address)).Owns s.heap heap :=
    (Heap.Touches.refl s.heap).andAlloc _
  have beforeLe : before.heap.next ≤ copy := by
    rw [← nextEq]
    exact linked.frame.next_le
  have unfolded :
      gcStep variant iterator fails s =
        (storePtr { s with heap := heap } (.node copy)).bind fun stored =>
          .ok { stored with
            node := some address
            newN := some copy
            newParent := .node copy
            newPtrPp := .null
            slot := 0
            label := .continueNode } := by
    rw [step]
    simp only [duplicateNode, nextEq, allocated, Bool.false_eq_true, if_false,
      halfway.cursor_eq, assocArrayPtrToMeta, load, bind, Except.bind,
      halfway.newParent_eq, leadIndex_congr place.index sameLead.symm]
    rfl
  have empties : ∀ x, ¬ ∃ i : Fin assocArrayFanOut, Tree.empty.Owns x := by
    rintro x ⟨_, ⟨⟩⟩
  cases front with
  | none =>
      have kept :
          ∀ x, place.Touched x → heap.cells x = s.heap.cells x :=
        fun x touched => linked.frame_place frame touched
      have hangs : place.Hangs before .null { s with heap := heap } :=
        linked.hangs.congr rfl kept
      rw [Place.storePtr_eq (.node copy) hangs halfway.location_eq] at unfolded
      refine
        ⟨_, Reaches.single unfolded, rfl, rfl, rfl, rfl, rfl, ?_,
          fun _ _ => rfl⟩
      refine
        linked.replace ?_ ?_ frame ⟨trivial, copyCell, fun _ => trivial⟩ rfl rfl
          rfl rfl linked.iteratorData_eq linked.trace_eq ?_
      · rintro x (same | ⟨lead, impossible, _⟩ | inSlot)
        · rw [same]
          exact beforeLe
        · cases impossible
        · exact absurd inSlot (empties x)
      · refine ⟨?_, fun _ => id, fun _ _ _ _ => False.elim, fun _ => trivial⟩
        intro lead impossible
        cases impossible
      · exact congrArg (· + 1) nextEq
  | some lead =>
      have leadLive :
          s.heap.cells lead.address =
            some (.shortcut ⟨place.newBack, place.index, .node address,
              lead.key⟩) :=
        linked.represented
      have leadBelow : lead.address < copy := by
        rw [← nextEq]
        exact Heap.lt_next_of_cells leadLive
      have leadHeld :
          heap.cells lead.address =
            some (.shortcut ⟨place.newBack, place.index, .node address,
              lead.key⟩) := by
        rw [← leadLive]
        exact Heap.alloc_cells_of_lt _ _ (by rw [nextEq]; exact leadBelow)
      have stored :
          storePtr { s with heap := heap } (.node copy) =
            .ok { s with
              heap := heap.store lead.address
                (.shortcut ⟨place.newBack, place.index, .node copy,
                  lead.key⟩) } := by
        rw [storePtr, halfway.location_eq]
        simp only [leadLocation, loadShortcut_some leadHeld, bind, Except.bind]
        rfl
      rw [stored] at unfolded
      refine
        ⟨_, Reaches.single unfolded, rfl, rfl, rfl, rfl, rfl, ?_,
          fun _ _ => rfl⟩
      refine
        linked.rebuild rfl ?_ ?_ (frame.andStore (Or.inl rfl) _)
          ⟨Heap.store_cells_self _ leadHeld, ?_, fun _ => trivial⟩ rfl rfl rfl
          linked.iteratorData_eq linked.trace_eq ?_
      · rintro x (same | ⟨front, isLead, same⟩ | inSlot)
        · rw [same]
          exact beforeLe
        · cases isLead
          rw [same]
          exact linked.fresh _ rfl
        · exact absurd inSlot (empties x)
      · refine ⟨?_, fun _ => id, fun _ _ _ _ => False.elim, fun _ => trivial⟩
        intro front isLead
        cases isLead
        exact ⟨Nat.ne_of_lt leadBelow, fun _ => id⟩
      · change (heap.store _ _).cells copy = _
        rw [Heap.store_cells_of_ne _ _ (Nat.ne_of_gt leadBelow)]
        exact copyCell
      · exact congrArg (· + 1) nextEq

/-! ## The slots of a node -/

/-- The machine does to a subtree what the outcome says. -/
def Refines (place : Place) (before : Gc σ) :
    Outcome (Ledger σ) Tree → Prop
  | .done t after =>
      ∃ next,
        Reaches (gcStep variant iterator fails) before next ∧
          Linked place before t after next ∧ place.Landed next ∧
          next.nrLeavesOnTree = t.leafCount
  | .enomem t after =>
      ∃ next,
        Reaches (gcStep variant iterator fails) before next ∧
          Linked place before t after next ∧ next.label = .enomem
  | .bug =>
      ∃ last exit,
        Reaches (gcStep variant iterator fails) before last ∧
          gcStep variant iterator fails last = .error exit ∧
          Bugged before.heap place.Touched exit

theorem Looping.childVacant
    {place : Place} {before s : Gc σ} {address copy : Nat}
    {front : Option Lead} {filtered : Fin assocArrayFanOut → Tree}
    {k : Fin assocArrayFanOut} {ledger : Ledger σ}
    (looping : Looping place before address front copy filtered k.val ledger s) :
    (Place.slot address copy k).Hangs s .null s := by
  obtain ⟨_, cell, _⟩ := looping.linked.represented
  refine ⟨rfl, _, cell, ?_⟩
  have same :
      Function.update (fun i => (filtered i).ptr) k .null =
        fun i => (filtered i).ptr := by
    apply Function.update_eq_self_iff.mpr
    simp only [looping.vacant k (Nat.le_refl _), Tree.ptr_empty]
  rw [cell, same]

/-- The next slot once the current one holds `t`. -/
theorem Looping.next
    {place : Place} {before s after : Gc σ} {address copy : Nat}
    {front : Option Lead} {filtered : Fin assocArrayFanOut → Tree}
    {k : Fin assocArrayFanOut} {ledger later : Ledger σ} {t : Tree}
    (looping : Looping place before address front copy filtered k.val ledger s)
    (child : Linked (.slot address copy k) s t later after)
    (labelEq : after.label = .continueNode)
    (nodeEq : after.node = some address)
    (newNEq : after.newN = some copy)
    (newParentEq : after.newParent = .node copy)
    (slotEq : after.slot = k.val + 1) :
    Looping place before address front copy (Function.update filtered k t)
      (k.val + 1) later after where
  label_eq := labelEq
  node_eq := nodeEq
  newN_eq := newNEq
  newParent_eq := newParentEq
  slot_eq := slotEq
  linked := looping.linked.extend child
  vacant := by
    intro i beyond
    rw [Function.update_of_ne (Fin.ne_of_val_ne (by omega))]
    exact looping.vacant i (by omega)

/-- How the loop over the slots can go on. -/
def SlotsRefine (place : Place) (before : Gc σ) (address : Nat)
    (front : Option Lead) (copy k : Nat) (s : Gc σ) :
    Outcome (Ledger σ) (Fin assocArrayFanOut → Tree) → Prop
  | .done filtered after =>
      ∃ next,
        Reaches (gcStep variant iterator fails) s next ∧
          Looping place before address front copy filtered k after next
  | .enomem filtered after =>
      ∃ next,
        Reaches (gcStep variant iterator fails) s next ∧
          Linked place before (.node front copy 0 filtered) after next ∧
          next.label = .enomem
  | .bug =>
      ∃ last exit,
        Reaches (gcStep variant iterator fails) s last ∧
          gcStep variant iterator fails last = .error exit ∧
          Bugged before.heap place.Touched exit

theorem SlotsRefine.of_reaches
    {place : Place} {before s middle : Gc σ} {address copy k : Nat}
    {front : Option Lead}
    {outcome : Outcome (Ledger σ) (Fin assocArrayFanOut → Tree)}
    (run : Reaches (gcStep variant iterator fails) s middle)
    (rest : SlotsRefine variant iterator fails place before address front copy
      k middle outcome) :
    SlotsRefine variant iterator fails place before address front copy k s
      outcome := by
  cases outcome with
  | done filtered after =>
      obtain ⟨next, onward, looping⟩ := rest
      exact ⟨next, run.trans onward, looping⟩
  | enomem filtered after =>
      obtain ⟨next, onward, linked, label⟩ := rest
      exact ⟨next, run.trans onward, linked, label⟩
  | bug =>
      obtain ⟨last, exit, onward, stops, bugged⟩ := rest
      exact ⟨last, exit, run.trans onward, stops, bugged⟩

/-- The effect of one slot on the slots collected so far. -/
def Outcome.fill {State : Type} (filtered : Fin assocArrayFanOut → Tree)
    (k : Fin assocArrayFanOut) :
    Outcome State Tree → Outcome State (Fin assocArrayFanOut → Tree)
  | .done t after => .done (Function.update filtered k t) after
  | .enomem t after => .enomem (Function.update filtered k t) after
  | .bug => .bug

/-- One slot: nothing to do, a leaf to filter, or a subtree to collect. -/
theorem slot_reaches
    {place : Place} {before s : Gc σ} {address copy nr : Nat}
    {lead front : Option Lead} {slots filtered : Fin assocArrayFanOut → Tree}
    {k : Fin assocArrayFanOut} {ledger : Ledger σ}
    (looping : Looping place before address front copy filtered k.val ledger s)
    (old : (Tree.node lead address nr slots).Represented s.heap.cells
      place.oldBack place.index)
    (apart : ¬ (slots k).Owns copy)
    (whole : (slots k).Whole)
    (inductionHypothesis :
      ∀ (place : Place) (s : Gc σ),
        (slots k).isMeta = true → (slots k).Whole →
          Arrives place (slots k) s →
            Refines variant iterator fails place s
              (collect variant iterator fails (slots k) (ledgerOf s))) :
    SlotsRefine variant iterator fails place before address front copy
      (k.val + 1) s
      ((collect variant iterator fails (slots k) ledger).fill filtered k) := by
  obtain ⟨_, cell, children⟩ := old
  have step : gcStep variant iterator fails s = continueNode iterator s := by
    rw [gcStep, looping.label_eq]
  have load :
      loadNode (σ := σ) s.heap (some address) =
        .ok (address, ⟨leadBack lead place.oldBack, leadIndex lead place.index,
          fun i => (slots i).ptr, nr⟩) :=
    loadNode_some cell
  have vacant := looping.childVacant
  cases isMeta : (slots k).isMeta with
  | false =>
      rcases Tree.cases_of_not_isMeta isMeta with isEmpty | ⟨object, isLeaf⟩
      · rw [isEmpty, collect]
        refine
          ⟨{ s with slot := k.val + 1 }, Reaches.single ?_,
            looping.next ((Linked.start vacant).congr rfl rfl rfl rfl
              looping.linked.iteratorData_eq looping.linked.trace_eq
              looping.linked.next_eq.symm)
              looping.label_eq looping.node_eq looping.newN_eq
              looping.newParent_eq rfl⟩
        rw [step]
        simp only [continueNode, looping.slot_eq, k.isLt, dite_true,
          looping.node_eq, load, bind, Except.bind, isEmpty, Tree.ptr_empty]
        rfl
      · rw [isLeaf, collect]
        cases verdict : iterator object s.iteratorData with
        | mk keep data =>
            rw [← looping.linked.iteratorData_eq, verdict]
            cases keep with
            | false =>
                refine
                  ⟨{ s with
                      iteratorData := data
                      trace := s.trace ++ [.iterated object]
                      slot := k.val + 1 }, Reaches.single ?_,
                    looping.next
                      ((Linked.start vacant).congr rfl rfl rfl rfl rfl
                        (by rw [looping.linked.trace_eq])
                        looping.linked.next_eq.symm)
                      looping.label_eq looping.node_eq looping.newN_eq
                      looping.newParent_eq rfl⟩
                rw [step]
                simp only [continueNode, looping.slot_eq, k.isLt, dite_true,
                  looping.node_eq, load, bind, Except.bind, isLeaf,
                  Tree.ptr_leaf, verdict, Bool.false_eq_true, if_false]
                rfl
            | true =>
                have stored :=
                  storeSlot_eq (σ := σ) (i := k) address (.leaf object)
                    looping.linked.represented.2.1
                refine
                  ⟨{ s with
                      heap :=
                        (Place.slot address copy k).putHeap s.heap
                          (.leaf object)
                      iteratorData := data
                      trace := s.trace ++ [.iterated object]
                      slot := k.val + 1 }, Reaches.single ?_,
                    looping.next
                      ((Linked.start vacant).replace
                        (fun _ impossible => False.elim impossible) trivial
                        (Heap.Touches.refl _) trivial rfl rfl rfl rfl rfl
                        (by rw [looping.linked.trace_eq])
                        looping.linked.next_eq)
                      looping.label_eq looping.node_eq looping.newN_eq
                      looping.newParent_eq rfl⟩
                rw [step]
                simp only [continueNode, looping.slot_eq, k.isLt, dite_true,
                  looping.node_eq, load, bind, Except.bind, isLeaf,
                  Tree.ptr_leaf, verdict, if_true, looping.newN_eq, stored]
                rfl
  | true =>
      obtain ⟨childLead, childAddress, childNr, grandchildren, shape⟩ :=
        Tree.exists_node_of_isMeta whole isMeta
      have moved :
          gcStep variant iterator fails s =
            .ok { s with
              newPtrPp := .slot copy k
              cursor := (slots k).ptr
              label := .descend } := by
        have loadCopy :=
          loadNode_some (σ := σ) looping.linked.represented.2.1
        rw [step]
        cases childLead <;>
          (simp only [continueNode, looping.slot_eq, k.isLt, dite_true,
            looping.node_eq, load, bind, Except.bind, shape, Tree.ptr,
            looping.newN_eq, loadCopy]
           rfl)
      have arrives :
          Arrives (.slot address copy k) (slots k)
            { s with
              newPtrPp := .slot copy k
              cursor := (slots k).ptr
              label := .descend } := by
        refine
          ⟨rfl, rfl, looping.newParent_eq, rfl, vacant, children k, ?_⟩
        rintro x owned rfl
        exact apart owned
      have child := inductionHypothesis _ _ isMeta whole arrives
      have sameLedger :
          ledgerOf
              { s with
                newPtrPp := .slot copy k
                cursor := (slots k).ptr
                label := .descend } = ledger :=
        looping.linked.ledger_eq
      rw [sameLedger] at child
      cases outcome : collect variant iterator fails (slots k) ledger with
      | done t after =>
          rw [outcome] at child
          obtain ⟨next, run, linked, landed, _⟩ := child
          obtain ⟨labelEq, nodeEq, newNEq, newParentEq, slotEq⟩ := landed
          exact
            ⟨next, Reaches.head moved run,
              looping.next (linked.source_congr rfl rfl rfl rfl) labelEq nodeEq newNEq newParentEq slotEq⟩
      | enomem t after =>
          rw [outcome] at child
          obtain ⟨next, run, linked, label⟩ := child
          exact
            ⟨next, Reaches.head moved run,
              looping.linked.extend (linked.source_congr rfl rfl rfl rfl),
              label⟩
      | bug =>
          rw [outcome] at child
          obtain ⟨last, exit, run, stops, bugged⟩ := child
          refine
            ⟨last, exit, Reaches.head moved run, stops,
              bugged.widen looping.linked ?_⟩
          rintro x rfl
          exact looping.linked.fresh _ (Or.inl rfl)

/-- All slots from `k` on. -/
theorem slots_reach
    {place : Place} {before : Gc σ} {address copy nr : Nat}
    {lead front : Option Lead} {slots : Fin assocArrayFanOut → Tree}
    (old : (Tree.node lead address nr slots).Represented before.heap.cells
      place.oldBack place.index)
    (apart : ∀ x, (Tree.node lead address nr slots).Owns x →
      ¬ place.Touched x)
    (copyFresh : before.heap.next ≤ copy)
    (whole : ∀ i, (slots i).Whole)
    (inductionHypothesis :
      ∀ (i : Fin assocArrayFanOut) (place : Place) (s : Gc σ),
        (slots i).isMeta = true → (slots i).Whole →
          Arrives place (slots i) s →
            Refines variant iterator fails place s
              (collect variant iterator fails (slots i) (ledgerOf s)))
    (remaining : Nat) :
    ∀ (k : Nat), k + remaining = assocArrayFanOut →
      ∀ (filtered : Fin assocArrayFanOut → Tree) (ledger : Ledger σ)
        (s : Gc σ),
        Looping place before address front copy filtered k ledger s →
          SlotsRefine variant iterator fails place before address front copy
            assocArrayFanOut s
            (collectSlots
              (fun i => collect variant iterator fails (slots i))
              ((List.finRange assocArrayFanOut).drop k) filtered ledger) := by
  induction remaining with
  | zero =>
      intro k full filtered ledger s looping
      rw [List.drop_of_length_le (by simp; omega), collectSlots]
      have atEnd : k = assocArrayFanOut := by omega
      rw [atEnd] at looping
      exact ⟨s, Reaches.refl s, looping⟩
  | succ remaining continueLoop =>
      intro k full filtered ledger s looping
      have bound : k < assocArrayFanOut := by omega
      have oldNow := looping.linked.old_represented old apart
      have copyApart : ¬ (slots ⟨k, bound⟩).Owns copy := by
        intro owned
        obtain ⟨content, live⟩ :=
          old.live (Or.inr (Or.inr ⟨⟨k, bound⟩, owned⟩))
        have below := Heap.lt_next_of_cells live
        omega
      have slot :=
        slot_reaches variant iterator fails (k := ⟨k, bound⟩) looping oldNow
          copyApart (whole _) (inductionHypothesis _)
      rw [drop_finRange bound, collectSlots]
      cases outcome :
          collect variant iterator fails (slots ⟨k, bound⟩) ledger with
      | done t after =>
          rw [outcome] at slot
          obtain ⟨next, run, onward⟩ := slot
          exact
            SlotsRefine.of_reaches variant iterator fails run
              (continueLoop (k + 1) (by omega) _ _ next onward)
      | enomem t after =>
          rw [outcome] at slot
          exact slot
      | bug =>
          rw [outcome] at slot
          exact slot

/-- Once all slots are collected the node is compressed, what can be excised is
excised, and the machine climbs. -/
theorem leave_refines
    {place : Place} {before s : Gc σ} {address copy nr : Nat}
    {lead front : Option Lead} {slots filtered : Fin assocArrayFanOut → Tree}
    {ledger : Ledger σ}
    (run : Reaches (gcStep variant iterator fails) before s)
    (looping : Looping place before address front copy filtered
      assocArrayFanOut ledger s)
    (sameLead : front.isSome = lead.isSome)
    (old : (Tree.node lead address nr slots).Represented before.heap.cells
      place.oldBack place.index)
    (apart : ∀ x, (Tree.node lead address nr slots).Owns x →
      ¬ place.Touched x)
    (collected : ∀ i, (filtered i).Collected) :
    Refines variant iterator fails place before
      (finishNode variant front copy (.done filtered ledger)) := by
  have counted := fun i => (collected i).counted
  have whole := fun i => (collected i).whole
  have leaving :
      gcStep variant iterator fails s =
        .ok { s with label := .retryCompress } := by
    rw [gcStep, looping.label_eq]
    simp only [continueNode, looping.slot_eq, Nat.lt_irrefl, dite_false]
  have linked :
      Linked place before (.node front copy 0 filtered) ledger
        { s with label := .retryCompress } :=
    looping.linked.congr rfl rfl rfl rfl looping.linked.iteratorData_eq
      looping.linked.trace_eq rfl
  have compressing :=
    compress_reaches variant iterator fails linked rfl looping.newN_eq counted
      whole
  have toCompress := run.trans (Reaches.single leaving)
  cases compressed : compress variant copy filtered with
  | none =>
      rw [compressed] at compressing
      obtain ⟨last, exit, onward, stops, bugged⟩ := compressing
      rw [finishNode, finish, compressed]
      exact ⟨last, exit, toCompress.trans onward, stops, bugged⟩
  | some result =>
      obtain ⟨p, retries⟩ := result
      rw [compressed] at compressing
      obtain ⟨middle, onward, label, atNode, nrFree, leavesEq, nodeEq, sound,
        squeezed⟩ := compressing
      obtain ⟨next, excised, departs, hung⟩ :=
        excise_spec squeezed sound atNode nrFree
      have excising : gcStep variant iterator fails middle = .ok next := by
        rw [gcStep, label]
        exact excised
      obtain ⟨landed, ascended, atPlace, landedIs⟩ :=
        ascend_reaches variant iterator fails departs
          (nodeEq.trans looping.node_eq) sameLead
          (hung.old_represented old apart)
      have finished :
          finish variant front copy filtered =
            some ((exciseTree front copy p).1,
              retries ++ (exciseTree front copy p).2) := by
        rw [finish, compressed]
        rfl
      obtain ⟨done, _⟩ := compress_spec counted whole compressed
      rw [finishNode, finished]
      refine
        ⟨landed,
          (toCompress.trans onward).trans (Reaches.head excising ascended), ?_,
          atPlace, ?_⟩
      · refine
          hung.congr (by rw [landedIs]) (by rw [landedIs]) (by rw [landedIs])
            (by rw [landedIs]) ?_ ?_ rfl
        · rw [landedIs]
          exact hung.iteratorData_eq
        · rw [landedIs]
          exact hung.trace_eq.trans (List.append_assoc _ _ _)
      · have leaves := finish_leaves collected finished
        rw [landedIs]
        change next.nrLeavesOnTree = _
        rw [departs.2.1, leavesEq, done.nr_eq, ← card_bag, ← leaves]
        rfl

/-! ## The whole subtree -/

/-- The machine collects every subtree the way `collect` says. -/
theorem collect_refines
    (old : Tree) :
    ∀ (place : Place) (s : Gc σ),
      old.isMeta = true → old.Whole → Arrives place old s →
        Refines variant iterator fails place s
          (collect variant iterator fails old (ledgerOf s)) := by
  induction old with
  | empty =>
      intro place s impossible
      cases impossible
  | leaf object =>
      intro place s impossible
      cases impossible
  | dangling lead next =>
      intro place s _ impossible
      cases impossible
  | node lead address nr slots inductionHypothesis =>
      intro place s _ whole arrives
      have step :
          s.label = .descend →
            gcStep variant iterator fails s = descend fails s := by
        intro here
        rw [gcStep, here]
      rw [collect]
      split
      · next refused =>
          -- No memory for the shortcut: nothing has been built.
          rw [Bool.and_eq_true] at refused
          obtain ⟨isBehind, refused⟩ := refused
          obtain ⟨front, isLead⟩ := Option.isSome_iff_exists.mp isBehind
          subst isLead
          obtain ⟨leadHeld, _, _⟩ := arrives.represented
          have load :
              loadShortcut (σ := σ) s.heap (some front.address) =
                .ok (front.address, ⟨place.oldBack, place.index,
                  .node address, front.key⟩) :=
            loadShortcut_some leadHeld
          change fails s.heap.next = true at refused
          refine
            ⟨{ s with label := .enomem }, Reaches.single ?_,
              (Linked.start arrives.vacant).congr rfl rfl rfl rfl rfl rfl rfl,
              rfl⟩
          rw [step arrives.label_eq]
          simp only [descend, arrives.cursor_eq, Tree.ptr,
            assocArrayPtrIsShortcut, if_true, assocArrayPtrToMeta, load, bind,
            Except.bind, refused]
          rfl
      next leadAllocated =>
        obtain ⟨middle, toMiddle, halfway⟩ :=
          descend_reaches variant iterator fails arrives
            (Bool.eq_false_iff.mpr leadAllocated)
        split
        · next refused =>
            -- No memory for the node: the duplicate of the shortcut dangles.
            have nextEq : middle.heap.next = afterLead lead s.heap.next :=
              halfway.linked.next_eq
            change fails (afterLead lead s.heap.next) = true at refused
            refine
              ⟨{ middle with node := some address, label := .enomem },
                toMiddle.trans (Reaches.single ?_),
                halfway.linked.congr rfl rfl rfl rfl
                  halfway.linked.iteratorData_eq halfway.linked.trace_eq rfl,
                rfl⟩
            rw [gcStep, halfway.label_eq]
            simp only [duplicateNode, nextEq, refused, if_true,
              halfway.cursor_eq, assocArrayPtrToMeta]
            rfl
        next nodeAllocated =>
          have oldNow :=
            halfway.linked.old_represented arrives.represented arrives.apart
          have sameLead :
              (duplicateLead lead s.heap.next).isSome = lead.isSome := by
            cases lead <;> rfl
          obtain ⟨first, toFirst, looping⟩ :=
            duplicateNode_reaches variant iterator fails halfway sameLead oldNow
              (Bool.eq_false_iff.mpr nodeAllocated)
          have loop :=
            slots_reach variant iterator fails arrives.represented
              arrives.apart (looping.linked.fresh _ (Or.inl rfl)) whole
              inductionHypothesis assocArrayFanOut 0 (by omega) _ _ first
              looping
          rw [List.drop_zero] at loop
          change Refines variant iterator fails place s
            (finishNode variant (duplicateLead lead s.heap.next)
              (afterLead lead s.heap.next)
              (collectSlots (fun i => collect variant iterator fails (slots i))
                (List.finRange assocArrayFanOut) (fun _ => .empty)
                { ledgerOf s with next := afterLead lead s.heap.next + 1 }))
          cases collected :
              collectSlots (fun i => collect variant iterator fails (slots i))
                (List.finRange assocArrayFanOut) (fun _ => .empty)
                { ledgerOf s with
                  next := afterLead lead s.heap.next + 1 } with
          | enomem filtered after =>
              rw [collected] at loop
              obtain ⟨next, run, linked, label⟩ := loop
              exact
                ⟨next, (toMiddle.trans toFirst).trans run, linked, label⟩
          | bug =>
              rw [collected] at loop
              obtain ⟨last, exit, run, stops, bugged⟩ := loop
              exact
                ⟨last, exit, (toMiddle.trans toFirst).trans run, stops, bugged⟩
          | done filtered after =>
              rw [collected] at loop
              obtain ⟨next, run, atEnd⟩ := loop
              have toEnd := (toMiddle.trans toFirst).trans run
              exact
                leave_refines variant iterator fails toEnd atEnd sameLead
                  arrives.represented arrives.apart
                  (fun i => by
                    obtain ⟨ledgers, _, _, steps⟩ := collectSlots_done collected
                    exact collect_collected (steps i))

end Refinement

end KernelStuff.AssocArrayGc
