import KernelStuff.AssocArrayGc.Allocation

/-!
# When a `BUG_ON` fires

The patched collector folds a node completely when it has fewer leaves than a
node has slots.  With exactly as many leaves a crowded node keeps a meta
pointer, and one level up the node still counts as small enough to be folded.
The condition can be read off the survivors of the old tree.
-/

namespace KernelStuff.AssocArrayGc

open KernelStuff.Library

/-- The node has exactly as many survivors as slots and is crowded: its
collection keeps a meta pointer. -/
def Tree.Overfull : Tree → Prop
  | .node _ _ _ slots =>
      slotLeafCount slots = assocArrayFanOut ∧
        Crowded 0 slots (List.finRange assocArrayFanOut)
  | _ => False

/-- All survivors below the slots are below an overfull child, and no slot after
it is occupied. -/
def Jammed (slots : Fin assocArrayFanOut → Tree) : Prop :=
  ∃ i, (slots i).Overfull ∧ (∀ j, j < i → (slots j).leafCount = 0) ∧
    ∀ j, i < j → slots j = .empty

/-- Some node of the tree is jammed. -/
def Tree.Jams : Tree → Prop
  | .empty => False
  | .leaf _ => False
  | .node _ _ _ slots => Jammed slots ∨ ∃ i, (slots i).Jams
  | .dangling _ _ => False

instance (t : Tree) : Decidable t.Overfull :=
  match t with
  | .empty => inferInstanceAs (Decidable False)
  | .leaf _ => inferInstanceAs (Decidable False)
  | .node _ _ _ _ => inferInstanceAs (Decidable (_ ∧ _))
  | .dangling _ _ => inferInstanceAs (Decidable False)

instance (t : Tree) : Decidable (t = .empty) :=
  decidable_of_iff (t.ptr = .null) (Tree.ptr_eq_null_iff t)

instance (slots : Fin assocArrayFanOut → Tree) : Decidable (Jammed slots) :=
  inferInstanceAs (Decidable (∃ _, _))

instance : ∀ t : Tree, Decidable t.Jams
  | .empty => inferInstanceAs (Decidable False)
  | .leaf _ => inferInstanceAs (Decidable False)
  | .node _ _ _ slots =>
      have : ∀ i, Decidable (slots i).Jams := fun i =>
        instDecidableJams (slots i)
      inferInstanceAs (Decidable (Jammed slots ∨ ∃ i, (slots i).Jams))
  | .dangling _ _ => inferInstanceAs (Decidable False)

/-! ## Trees that agree on what the passes look at -/

/-- Both or neither are meta pointers, with equally many leaves below. -/
structure Tree.Agrees (t s : Tree) : Prop where
  isMeta_eq : t.isMeta = s.isMeta
  leafCount_eq : t.leafCount = s.leafCount

theorem Tree.Agrees.metaLeafCount_eq {t s : Tree} (agrees : t.Agrees s) :
    t.metaLeafCount = s.metaLeafCount := by
  rw [Tree.metaLeafCount, Tree.metaLeafCount, agrees.isMeta_eq,
    agrees.leafCount_eq]

theorem Tree.eq_empty_iff (t : Tree) :
    t = .empty ↔ t.isMeta = false ∧ t.leafCount = 0 := by
  constructor
  · rintro rfl
    exact ⟨rfl, rfl⟩
  · rintro ⟨plain, none⟩
    exact Tree.eq_empty_of_plain plain none

theorem Tree.Agrees.eq_empty_iff {t s : Tree} (agrees : t.Agrees s) :
    t = .empty ↔ s = .empty := by
  rw [Tree.eq_empty_iff, Tree.eq_empty_iff, agrees.isMeta_eq,
    agrees.leafCount_eq]

theorem slotLeafCount_congr
    {slots other : Fin assocArrayFanOut → Tree}
    (agree : ∀ i, (slots i).Agrees (other i)) :
    slotLeafCount slots = slotLeafCount other :=
  Finset.sum_congr rfl fun i _ => (agree i).leafCount_eq

theorem Crowded.congr_of_agrees
    {slack : Nat} {slots other : Fin assocArrayFanOut → Tree}
    {items : List (Fin assocArrayFanOut)}
    (agree : ∀ i, (slots i).Agrees (other i)) :
    Crowded slack slots items ↔ Crowded slack other items :=
  Crowded.congr fun i _ =>
    ⟨(agree i).isMeta_eq, (agree i).metaLeafCount_eq⟩

section Stopping

variable {σ : Type} {variant : Variant} {iterator : Leaf → σ → Bool × σ}
  {fails : Nat → Bool}

theorem survivors_isMeta (old : Tree) (data : σ) :
    (survivors iterator old data).1.isMeta = old.isMeta := by
  cases old with
  | empty => rfl
  | leaf object =>
      rw [survivors]
      split <;> rfl
  | node lead address nr slots =>
      rw [survivors_node, Tree.isMeta_node, Tree.isMeta_node]
  | dangling lead next => rfl

/-- A collected subtree agrees with the survivors of the subtree. -/
theorem collect_agrees
    {old t : Tree} {ledger after : Ledger σ}
    (run : collect variant iterator fails old ledger = .done t after) :
    t.Agrees (survivors iterator old ledger.iteratorData).1 where
  isMeta_eq := by rw [collect_isMeta run, survivors_isMeta]
  leafCount_eq := by
    have leaves := congrArg Multiset.card (collect_leaves run).1
    rw [Multiset.coe_card, Multiset.coe_card] at leaves
    exact leaves

/-- Slot by slot, a collected node agrees with its survivors. -/
theorem collect_slots_agree
    {slots filtered : Fin assocArrayFanOut → Tree}
    {ledgers : Nat → Ledger σ} {ledger : Ledger σ} {next : Nat}
    (first : ledgers 0 = { ledger with next := next })
    (steps : ∀ i : Fin assocArrayFanOut,
      collect variant iterator fails (slots i) (ledgers i.val) =
        .done (filtered i) (ledgers (i.val + 1)))
    (i : Fin assocArrayFanOut) :
    (filtered i).Agrees
      ((survivorSlots iterator slots ledger.iteratorData).1 i) := by
  have here := survivors_slot (i := i) fun j _ => ⟨_, steps j⟩
  rw [first] at here
  rw [here]
  exact collect_agrees (steps i)

/-! ## One node -/

/-- With the patch `compress` stops only in the first pass. -/
theorem compress_patched_eq_none_iff
    (address : Nat) {slots : Fin assocArrayFanOut → Tree}
    (counted : ∀ i, (slots i).Counted)
    (whole : ∀ i, (slots i).Whole)
    (settled : ∀ i, (slots i).Settled) :
    compress .patched address slots = none ↔ ∃ i, StopsAt slots i := by
  rw [← compressPass_eq_none_iff counted whole settled, compress]
  cases run : compressPass slots with
  | none => exact ⟨fun _ => rfl, fun _ => rfl⟩
  | some p =>
      rw [Option.bind_some]
      refine ⟨fun stopped => ?_, fun impossible => by cases impossible⟩
      split at stopped
      · next again =>
          obtain ⟨_, _, few⟩ := Variant.retries_nr_lt again
          have done := Compressed.of_pass counted whole run
          have settledNow : ∀ i, (p.slots i).Settled := by
            intro i isNode
            have same := (done.nodes i isNode).1
            rw [same] at isNode ⊢
            exact settled i isNode
          have total : slotLeafCount p.slots < assocArrayFanOut := by
            rw [← card_bag, done.bag_eq, card_bag, ← done.nr_eq]
            exact few
          obtain ⟨q, second⟩ :=
            compressPass_isSome done.sound.counted done.sound.whole settledNow
              total
          rw [second] at stopped
          cases stopped
      · cases stopped

/-- A collected node with as many leaves as slots is ready to be folded unless
it is crowded. -/
theorem finish_foldable_iff
    {lead : Option Lead} {address : Nat}
    {slots : Fin assocArrayFanOut → Tree} {t : Tree} {events : List Event}
    (collected : ∀ i, (slots i).Collected)
    (total : slotLeafCount slots = assocArrayFanOut)
    (run : finish variant lead address slots = some (t, events)) :
    t.Foldable ↔ ¬ Crowded 0 slots (List.finRange assocArrayFanOut) := by
  have counted := fun i => (collected i).counted
  have whole := fun i => (collected i).whole
  obtain ⟨p, retries, compressed, done, _, shape⟩ :=
    finish_cases counted whole run
  have nrEq : p.nr = assocArrayFanOut := by rw [done.nr_eq, total]
  have crowded :
      p.retained = true ↔
        Crowded 0 slots (List.finRange assocArrayFanOut) := by
    rcases compress_cases compressed with
      ⟨once, _, _⟩ | ⟨first, firstRun, again, _, _⟩
    · have retains :=
        compressPass_retained_iff counted whole (Nat.le_of_eq total) once
      rw [total, Nat.sub_self] at retains
      exact retains
    · obtain ⟨_, _, few⟩ := Variant.retries_nr_lt again
      rw [(Compressed.of_pass counted whole firstRun).nr_eq, total] at few
      exact absurd few (Nat.lt_irrefl _)
  rcases shape with ⟨sole, _⟩ | ⟨_, _, shape, _⟩ | ⟨_, many, _⟩
  · -- A subtree behind a shortcut has more leaves than that.
    have large := (soleShortcut_large collected done sole).1
    omega
  · rw [shape, ← crowded, done.retained_iff]
    constructor
    · rintro plain ⟨i, isNode⟩
      rw [plain i] at isNode
      cases isNode
    · intro plain i
      exact Bool.eq_false_iff.mpr fun isNode => plain ⟨i, isNode⟩
  · omega

/-- What a collected child looks like to the fold above it. -/
theorem collect_overfull_iff
    {old t : Tree} {ledger after : Ledger σ}
    (run : collect variant iterator fails old ledger = .done t after) :
    (survivors iterator old ledger.iteratorData).1.Overfull ↔
      t.isMeta = true ∧ ¬ t.Foldable ∧ t.leafCount = assocArrayFanOut := by
  have agrees := collect_agrees run
  cases old with
  | empty =>
      cases run
      exact ⟨False.elim, fun impossible => by cases impossible.1⟩
  | leaf object =>
      have isMeta := collect_isMeta run
      rw [survivors]
      constructor
      · intro impossible
        split at impossible <;> exact False.elim impossible
      · rintro ⟨isNode, _⟩
        rw [isMeta] at isNode
        cases isNode
  | dangling lead next => cases run
  | node lead address nr slots =>
      have isMeta := collect_isMeta run
      obtain ⟨filtered, ledgers, events, _, _, first, steps, finished, _⟩ :=
        collect_node_done run
      have agree := collect_slots_agree first fun i => steps i
      rw [Tree.isMeta_node] at isMeta
      rw [agrees.leafCount_eq]
      rw [survivors_node, Tree.Overfull, Tree.leafCount_node_eq]
      simp only [isMeta, true_and]
      rw [← slotLeafCount_congr agree, ← Crowded.congr_of_agrees agree,
        and_comm]
      apply and_congr_left
      intro total
      rw [finish_foldable_iff (fun i => collect_collected (steps i)) total
        finished, not_not]

/-- Where the fold stops can be read off the survivors. -/
theorem stopsAt_iff_jammed
    {slots filtered : Fin assocArrayFanOut → Tree}
    {ledgers : Nat → Ledger σ} {ledger : Ledger σ} {next : Nat}
    (first : ledgers 0 = { ledger with next := next })
    (steps : ∀ i : Fin assocArrayFanOut,
      collect variant iterator fails (slots i) (ledgers i.val) =
        .done (filtered i) (ledgers (i.val + 1))) :
    (∃ i, StopsAt filtered i) ↔
      Jammed (survivorSlots iterator slots ledger.iteratorData).1 := by
  apply exists_congr
  intro i
  have agree := collect_slots_agree first steps
  have overfull := collect_overfull_iff (steps i)
  rw [← survivors_slot fun j _ => ⟨_, steps j⟩, first] at overfull
  rw [overfull]
  constructor
  · rintro ⟨isNode, notFoldable, large, earlier, later⟩
    refine ⟨⟨isNode, notFoldable, large⟩, ?_, ?_⟩
    · intro j less
      rw [← (agree j).leafCount_eq]
      exact earlier j less
    · intro j greater
      exact (agree j).eq_empty_iff.mp (later j greater)
  · rintro ⟨⟨isNode, notFoldable, large⟩, earlier, later⟩
    refine ⟨isNode, notFoldable, large, ?_, ?_⟩
    · intro j less
      rw [(agree j).leafCount_eq]
      exact earlier j less
    · intro j greater
      exact (agree j).eq_empty_iff.mpr (later j greater)

/-- With the patch, collected subtrees with fewer leaves than slots are ready to
be folded. -/
theorem collect_settled :
    ∀ {old t : Tree} {ledger after : Ledger σ},
      collect .patched iterator fails old ledger = .done t after → t.Settled
  | .empty, t, ledger, after, run => by
      cases run
      intro impossible
      cases impossible
  | .leaf object, t, ledger, after, run => by
      have isMeta := collect_isMeta run
      intro isNode
      rw [isMeta] at isNode
      cases isNode
  | .node lead address nr slots, t, ledger, after, run => by
      obtain ⟨filtered, ledgers, events, _, _, _, steps, finished, _⟩ :=
        collect_node_done run
      exact
        finish_settled (fun i => collect_collected (steps i))
          (fun i => collect_settled (steps i)) finished
  | .dangling lead next, t, ledger, after, run => by
      cases run

/-- Without failing allocations the patched collection of a tree stops at a
`BUG_ON` exactly if the survivors jam somewhere. -/
theorem collect_eq_bug_iff (iterator : Leaf → σ → Bool × σ) (old : Tree) :
    ∀ (ledger : Ledger σ), old.Whole →
      (collect .patched iterator (fun _ => false) old ledger = .bug ↔
        (survivors iterator old ledger.iteratorData).1.Jams) := by
  induction old with
  | empty =>
      intro ledger _
      constructor
      · intro impossible
        cases impossible
      · exact False.elim
  | leaf object =>
      intro ledger _
      rw [survivors]
      constructor
      · intro impossible
        cases impossible
      · intro impossible
        split at impossible <;> exact False.elim impossible
  | dangling lead next =>
      intro ledger impossible
      exact False.elim impossible
  | node lead address nr slots inductionHypothesis =>
      intro ledger whole
      have unfolded :
          collect .patched iterator (fun _ => false)
              (.node lead address nr slots) ledger =
            finishNode .patched (duplicateLead lead ledger.next)
              (afterLead lead ledger.next)
              (collectSlots
                (fun i => collect .patched iterator (fun _ => false) (slots i))
                (List.finRange assocArrayFanOut) (fun _ => .empty)
                { ledger with next := afterLead lead ledger.next + 1 }) := by
        rw [collect, Bool.and_false, if_neg Bool.false_ne_true,
          if_neg Bool.false_ne_true]
      rw [unfolded, survivors_node]
      cases outcome :
          collectSlots
            (fun i => collect .patched iterator (fun _ => false) (slots i))
            (List.finRange assocArrayFanOut) (fun _ => .empty)
            { ledger with next := afterLead lead ledger.next + 1 } with
      | enomem filtered after =>
          rw [outcome] at unfolded
          exact absurd unfolded (collect_ne_enomem .patched iterator)
      | bug =>
          -- Some slot stopped, and its survivors jam.
          refine ⟨fun _ => Or.inr ?_, fun _ => rfl⟩
          obtain ⟨i, ledgers, first, earlier, stops⟩ := collectSlots_bug outcome
          have here := survivors_slot earlier
          rw [first] at here
          refine ⟨i, ?_⟩
          rw [here]
          exact (inductionHypothesis i _ (whole i)).mp stops
      | done filtered after =>
          obtain ⟨ledgers, first, _, steps⟩ := collectSlots_done outcome
          have slotsRun :
              ∀ i : Fin assocArrayFanOut,
                ¬ (survivors iterator (slots i)
                  (ledgers i.val).iteratorData).1.Jams := by
            intro i jams
            have stops :=
              (inductionHypothesis i (ledgers i.val) (whole i)).mpr jams
            rw [steps i] at stops
            cases stops
          have counted := fun i => (collect_collected (steps i)).counted
          have wholeNow := fun i => (collect_collected (steps i)).whole
          have settled := fun i => collect_settled (steps i)
          have stopsHere :=
            compress_patched_eq_none_iff (afterLead lead ledger.next) counted
              wholeNow settled
          rw [stopsAt_iff_jammed first steps] at stopsHere
          rw [finishNode, Tree.Jams]
          constructor
          · intro stopped
            left
            apply stopsHere.mp
            cases compressed :
                compress .patched (afterLead lead ledger.next) filtered with
            | none => rfl
            | some result =>
                rw [finish, compressed] at stopped
                cases stopped
          · rintro (jammed | ⟨i, jams⟩)
            · rw [finish, stopsHere.mpr jammed]
              rfl
            · have here := survivors_slot (i := i) fun j _ => ⟨_, steps j⟩
              rw [first] at here
              rw [here] at jams
              exact absurd jams (slotsRun i)

/-- On every well-formed array, with all allocations succeeding, the patched
collector returns 0 exactly if the survivors jam nowhere; otherwise one of its
`BUG_ON`s fires. -/
theorem gc_returns_iff
    {heap : Heap Object} {array : AssocArray} {old : Tree}
    (wellFormed : WellFormed heap array old) (data : σ) :
    (∃ final,
      GcExits .patched iterator (fun _ => false) heap array data
        (.returned 0 final)) ↔
      ¬ (survivors iterator old data).1.Jams := by
  have jams := collect_eq_bug_iff iterator old (callLedger heap data)
    wellFormed.whole
  change _ ↔ (survivors iterator old data).1.Jams at jams
  rw [← jams]
  constructor
  · rintro ⟨final, exits⟩ stopped
    obtain ⟨t, after, collected, _⟩ :=
      gc_returned_zero .patched iterator (fun _ => false) wellFormed exits
    rw [stopped] at collected
    cases collected
  · intro finishes
    cases outcome :
        collect .patched iterator (fun _ => false) old
          (callLedger heap data) with
    | bug => exact absurd outcome finishes
    | enomem t after =>
        exact absurd outcome (collect_ne_enomem .patched iterator)
    | done t after =>
        obtain ⟨final, exits, _⟩ :=
          gc_collected_returns .patched iterator _ wellFormed rfl outcome
        exact ⟨final, exits⟩

end Stopping

/-- The call on an array with a shortcut, a child that is folded at once and one
that is folded by the second pass returns. -/
theorem gc_returns_retry :
    ∃ final,
      GcExits .patched rejectTwo (fun _ => false) retryHeap retryArray 0
        (.returned 0 final) :=
  (gc_returns_iff retryArray_wellFormed 0).mpr (by decide +kernel)

/-! ## A jam -/

def lowSlots (i : Fin assocArrayFanOut) : Tree :=
  if i = 0 then .leaf (exampleLeaf 14)
  else if i = 1 then .leaf (exampleLeaf 15)
  else .empty

def deadSlots (i : Fin assocArrayFanOut) : Tree :=
  if i = 0 then .leaf (exampleLeaf 16) else .empty

/-- Fourteen leaves, a child with two leaves and a child with one. -/
def jamSlots (i : Fin assocArrayFanOut) : Tree :=
  if i = 14 then .node none 2 2 lowSlots
  else if i = 15 then .node none 3 1 deadSlots
  else .leaf (exampleLeaf (i.castLE fanOut_le_leaves))

def jamRootSlots (i : Fin assocArrayFanOut) : Tree :=
  if i = 0 then .node none 1 17 jamSlots else .empty

def jamTree : Tree :=
  .node none 0 17 jamRootSlots

def jamHeap : Heap Object :=
  Heap.ofList
    [.node ⟨.null, 0, fun i => (jamRootSlots i).ptr, 17⟩,
      .node ⟨.node 0, 0, fun i => (jamSlots i).ptr, 17⟩,
      .node ⟨.node 1, 14, fun i => (lowSlots i).ptr, 2⟩,
      .node ⟨.node 1, 15, fun i => (deadSlots i).ptr, 1⟩]

def jamArray : AssocArray :=
  ⟨.node 0, 17⟩

/-- Rejects the leaf of the last child. -/
def rejectDead (object : Leaf) (data : Unit) : Bool × Unit :=
  (decide (object ≠ exampleLeaf 16), data)

theorem lowSlots_plain (i : Fin assocArrayFanOut) :
    (lowSlots i).isMeta = false := by
  revert i
  decide

theorem deadSlots_plain (i : Fin assocArrayFanOut) :
    (deadSlots i).isMeta = false := by
  revert i
  decide

theorem jamSlots_whole (i : Fin assocArrayFanOut) : (jamSlots i).Whole := by
  rw [jamSlots]
  split
  · exact fun j => Tree.whole_of_plain (lowSlots_plain j)
  · split
    · exact fun j => Tree.whole_of_plain (deadSlots_plain j)
    · trivial

/-- The node with sixteen survivors, wherever it hangs. -/
theorem jamSlots_represented
    {cells : Nat → Option Object} {address : Nat}
    (low : cells 2 =
      some (.node ⟨.node address, 14, fun i => (lowSlots i).ptr, 2⟩))
    (dead : cells 3 =
      some (.node ⟨.node address, 15, fun i => (deadSlots i).ptr, 1⟩))
    (i : Fin assocArrayFanOut) :
    (jamSlots i).Represented cells (.node address) i.val := by
  rw [jamSlots]
  split
  · next here =>
      subst here
      exact
        ⟨trivial, low, fun j =>
          Tree.represented_of_plain (lowSlots_plain j) _ _ _⟩
  · split
    · next here =>
        subst here
        exact
          ⟨trivial, dead, fun j =>
            Tree.represented_of_plain (deadSlots_plain j) _ _ _⟩
    · trivial

theorem jamArray_wellFormed : WellFormed jamHeap jamArray jamTree where
  root_meta := rfl
  root_ptr := rfl
  whole := by
    intro i
    rw [jamRootSlots]
    split
    · exact jamSlots_whole
    · trivial
  represented := by
    refine ⟨trivial, rfl, ?_⟩
    intro i
    rw [jamRootSlots]
    split
    · next here =>
        subst here
        exact ⟨trivial, rfl, jamSlots_represented rfl rfl⟩
    · trivial

/-- All survivors are below one child of the root, sixteen of them, and that
child keeps a child of its own: the root tries to fold it. -/
theorem gc_jam :
    WellFormed jamHeap jamArray jamTree ∧
      (∃ check after,
        GcExits .patched rejectDead (fun _ => false) jamHeap jamArray ()
          (.bug check after)) ∧
      ¬ ∃ final,
        GcExits .patched rejectDead (fun _ => false) jamHeap jamArray ()
          (.returned 0 final) := by
  have stopped :=
    (collect_eq_bug_iff rejectDead jamTree (callLedger jamHeap ())
      jamArray_wellFormed.whole).mpr (by decide +kernel)
  have refines :=
    gc_refines .patched rejectDead (fun _ => false) jamArray_wellFormed () rfl
  rw [stopped] at refines
  obtain ⟨check, after, exits, _⟩ := refines
  refine ⟨jamArray_wellFormed, ⟨check, after, exits⟩, ?_⟩
  rintro ⟨final, returns⟩
  cases Halts.unique exits returns

end KernelStuff.AssocArrayGc
