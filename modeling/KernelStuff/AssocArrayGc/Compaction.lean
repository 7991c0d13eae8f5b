import KernelStuff.AssocArrayGc.Placement

/-!
# How compact the new tree is

The passes either keep a child as it is or fold one that holds leaves only, so a
node that is not compact in the new tree comes from one node of the old tree: a
crowded one with exactly as many survivors as slots.
-/

namespace KernelStuff.AssocArrayGc

open KernelStuff.Library

/-- A node with few enough leaves holds nothing but leaves, and a shortcut leads
to more leaves than a node has slots. -/
def Tree.Compact : Tree → Prop
  | .empty => True
  | .leaf _ => True
  | .node lead address nr slots =>
      ((Tree.node lead address nr slots).leafCount ≤ assocArrayFanOut →
          lead = none ∧ Plain slots) ∧
        ∀ i, (slots i).Compact
  | .dangling _ _ => True

/-- Some node of the tree is overfull. -/
def Tree.HoldsOverfull : Tree → Prop
  | .empty => False
  | .leaf _ => False
  | .node lead address nr slots =>
      (Tree.node lead address nr slots).Overfull ∨ ∃ i, (slots i).HoldsOverfull
  | .dangling _ _ => False

theorem Tree.compact_of_plain {t : Tree} (plain : t.isMeta = false) :
    t.Compact := by
  rcases Tree.cases_of_not_isMeta plain with isEmpty | ⟨object, isLeaf⟩
  · rw [isEmpty]
    trivial
  · rw [isLeaf]
    trivial

theorem Tree.Foldable.compact {t : Tree} (foldable : t.Foldable) :
    t.Compact := by
  cases t with
  | empty => trivial
  | leaf object => trivial
  | dangling lead next => trivial
  | node lead address nr slots =>
      cases lead with
      | some front => exact False.elim foldable
      | none =>
          exact
            ⟨fun _ => ⟨rfl, foldable⟩,
              fun i => Tree.compact_of_plain (foldable i)⟩

/-! ## What the passes fold -/

/-- The loop leaves a child alone, or it was ready to be folded. -/
theorem foldSlots_folds :
    ∀ {items : List (Fin assocArrayFanOut)} {p q : Pass},
      p.Sound → items.Nodup →
        items.foldlM Pass.foldSlot p = some q →
          ∀ i ∈ items, (p.slots i).isMeta = true →
            q.slots i = p.slots i ∨ (p.slots i).Foldable
  | [], _, _, _, _, _, i, member, _ => absurd member List.not_mem_nil
  | head :: rest, p, q, sound, nodup, run, i, member, isNode => by
      rw [List.foldlM_cons] at run
      obtain ⟨middle, first, others⟩ := Option.bind_eq_some_iff.mp run
      obtain ⟨fresh, restNodup⟩ := List.nodup_cons.mp nodup
      have step := Pass.foldSlot_visited sound first
      have occupied : p.slots i ≠ .empty := by
        intro isEmpty
        rw [isEmpty] at isNode
        cases isNode
      by_cases atHead : i = head
      · subst atHead
        obtain ⟨lead, address, nr, children, here⟩ :=
          Tree.exists_node_of_isMeta (sound.whole i) isNode
        by_cases fits : nr ≤ p.nrFree + 1
        · right
          by_contra notFoldable
          rw [(Pass.foldSlot_eq_none_iff sound here).mpr
            ⟨fits, notFoldable⟩] at first
          cases first
        · left
          rw [Pass.foldSlot_retain here (by omega)] at first
          cases first
          exact
            (foldSlots_visited step.sound restNodup others).kept i occupied
              (Or.inl fresh)
      · have later : i ∈ rest := (List.mem_cons.mp member).resolve_left atHead
        have same : middle.slots i = p.slots i := by
          apply step.kept i occupied
          exact Or.inl fun atSlot => atHead (List.mem_singleton.mp atSlot)
        have isNodeStill : (middle.slots i).isMeta = true := by
          rw [same]
          exact isNode
        have folds :=
          foldSlots_folds step.sound restNodup others i later isNodeStill
        rw [same] at folds
        exact folds

theorem compress_folds
    {variant : Variant} {address : Nat}
    {slots : Fin assocArrayFanOut → Tree} {p : Pass} {retries : List Event}
    (counted : ∀ i, (slots i).Counted)
    (whole : ∀ i, (slots i).Whole)
    (run : compress variant address slots = some (p, retries))
    (i : Fin assocArrayFanOut) (isNode : (slots i).isMeta = true) :
    p.slots i = slots i ∨ (slots i).Foldable := by
  have nodup := List.nodup_finRange assocArrayFanOut
  have member := List.mem_finRange i
  rcases compress_cases run with
    ⟨once, _, _⟩ | ⟨first, firstRun, _, secondRun, _⟩
  · exact
      foldSlots_folds (Pass.start_sound counted whole) nodup once i member
        isNode
  · rcases foldSlots_folds (Pass.start_sound counted whole) nodup firstRun i
      member isNode with same | foldable
    · change first.slots i = slots i at same
      have sound := (Compressed.of_pass counted whole firstRun).sound
      have again :=
        foldSlots_folds (Pass.start_sound sound.counted sound.whole) nodup
          secondRun i member
      change (first.slots i).isMeta = true →
        p.slots i = first.slots i ∨ (first.slots i).Foldable at again
      rw [same] at again
      exact again isNode
    · exact Or.inr foldable

/-- The slots of a node are compact after the passes if they were before, and
the other way round. -/
theorem Compressed.compact_iff
    {variant : Variant} {address : Nat}
    {slots : Fin assocArrayFanOut → Tree} {p : Pass} {retries : List Event}
    (counted : ∀ i, (slots i).Counted)
    (whole : ∀ i, (slots i).Whole)
    (run : compress variant address slots = some (p, retries))
    (done : Compressed slots p) :
    (∀ i, (p.slots i).Compact) ↔ ∀ i, (slots i).Compact := by
  constructor
  · intro compact i
    cases isMeta : (slots i).isMeta with
    | false => exact Tree.compact_of_plain isMeta
    | true =>
        rcases compress_folds counted whole run i isMeta with same | foldable
        · rw [← same]
          exact compact i
        · exact foldable.compact
  · intro compact i
    cases isMeta : (p.slots i).isMeta with
    | false => exact Tree.compact_of_plain isMeta
    | true =>
        rw [(done.nodes i isMeta).1]
        exact compact i

theorem finish_compact_iff
    {lead : Option Lead} {address : Nat}
    {slots : Fin assocArrayFanOut → Tree} {t : Tree} {events : List Event}
    (collected : ∀ i, (slots i).Collected)
    (run : finish .patched lead address slots = some (t, events)) :
    t.Compact ↔
      ¬ (slotLeafCount slots = assocArrayFanOut ∧
          Crowded 0 slots (List.finRange assocArrayFanOut)) ∧
        ∀ i, (slots i).Compact := by
  have counted := fun i => (collected i).counted
  have whole := fun i => (collected i).whole
  obtain ⟨p, retries, compressed, done, _, shape⟩ :=
    finish_cases counted whole run
  have slotsIff := done.compact_iff counted whole compressed
  have nrEq := done.nr_eq
  have total : slotLeafCount p.slots = slotLeafCount slots := by
    rw [← card_bag, ← card_bag, done.bag_eq]
  rcases shape with ⟨sole, _⟩ | ⟨_, few, shape, _⟩ | ⟨_, many, shape, _⟩
  · -- Only the subtree behind the shortcut is left in the node.
    have large := (soleShortcut_large collected done sole).1
    obtain ⟨i, here, _, others, _⟩ := Pass.soleShortcut_spec done.sound sole
    rw [← slotsIff]
    constructor
    · intro compact
      refine ⟨fun overfull => by omega, fun j => ?_⟩
      by_cases same : j = i
      · rw [same, here]
        exact compact
      · rw [others j same]
        trivial
    · rintro ⟨_, compact⟩
      rw [← here]
      exact compact i
  · have plainIff := compressed_plain_iff counted whole compressed few
    rw [shape, ← plainIff, Tree.Compact, Tree.leafCount_node_eq]
    constructor
    · rintro ⟨small, compact⟩
      exact ⟨(small (by omega)).2, slotsIff.mp compact⟩
    · rintro ⟨plain, compact⟩
      exact ⟨fun _ => ⟨rfl, plain⟩, slotsIff.mpr compact⟩
  · rw [shape, ← slotsIff, Tree.Compact, Tree.leafCount_node_eq]
    apply and_congr_left
    intro _
    constructor
    · intro _ overfull
      omega
    · intro _ small
      omega

/-! ## The recursion -/

section Compaction

variable {σ : Type} {iterator : Leaf → σ → Bool × σ} {fails : Nat → Bool}

/-- A collected subtree is compact exactly if no node of its survivors is
overfull. -/
theorem collect_compact_iff :
    ∀ {old t : Tree} {ledger after : Ledger σ},
      collect .patched iterator fails old ledger = .done t after →
        (t.Compact ↔
          ¬ (survivors iterator old ledger.iteratorData).1.HoldsOverfull)
  | .empty, t, ledger, after, run => by
      cases run
      exact ⟨fun _ impossible => impossible, fun _ => trivial⟩
  | .leaf object, t, ledger, after, run => by
      have plain := Tree.compact_of_plain (collect_isMeta run)
      rw [survivors]
      refine ⟨fun _ => ?_, fun _ => plain⟩
      split <;> exact fun impossible => impossible
  | .dangling lead next, t, ledger, after, run => by
      cases run
  | .node lead address nr slots, t, ledger, after, run => by
      obtain ⟨filtered, ledgers, events, _, _, first, steps, finished, _⟩ :=
        collect_node_done run
      have agree := collect_slots_agree first steps
      have here :=
        finish_compact_iff (fun i => collect_collected (steps i)) finished
      rw [slotLeafCount_congr agree, Crowded.congr_of_agrees agree] at here
      rw [here, survivors_node, Tree.HoldsOverfull, Tree.Overfull, not_or,
        not_exists]
      apply and_congr_right
      intro _
      apply forall_congr'
      intro i
      have atSlot := survivors_slot (i := i) fun j _ => ⟨_, steps j⟩
      rw [first] at atSlot
      rw [atSlot]
      exact collect_compact_iff (steps i)

/-! ## The call -/

/-- The published array is compact. -/
def CompactArray (final : Gc σ) : Prop :=
  ∃ t, WellFormed final.heap final.array t ∧ t.Compact

/-- A call that returns 0 leaves the array compact exactly if no node of the
survivors is overfull. -/
theorem gc_compact_iff
    {heap : Heap Object} {array : AssocArray} {old : Tree} {data : σ}
    {final : Gc σ}
    (wellFormed : WellFormed heap array old)
    (exits : GcExits .patched iterator fails heap array data
      (.returned 0 final)) :
    CompactArray final ↔
      ¬ (survivors iterator old data).1.HoldsOverfull := by
  obtain ⟨t, after, collected, built, arrayEq, _, _⟩ :=
    gc_returned_zero .patched iterator fails wellFormed exits
  have published : WellFormed final.heap final.array t := by
    apply built.wellFormed arrayEq
    · rw [collect_isMeta collected]
      exact wellFormed.root_meta
    · exact (collect_collected collected).whole
  have compactIff := collect_compact_iff collected
  change _ ↔ ¬ (survivors iterator old data).1.HoldsOverfull at compactIff
  rw [← compactIff]
  constructor
  · rintro ⟨other, otherWellFormed, compact⟩
    rw [published.unique otherWellFormed]
    exact compact
  · intro compact
    exact ⟨t, published, compact⟩

end Compaction

instance decidableHoldsOverfull : ∀ t : Tree, Decidable t.HoldsOverfull
  | .empty => inferInstanceAs (Decidable False)
  | .leaf _ => inferInstanceAs (Decidable False)
  | .node lead address nr slots =>
      have : ∀ i, Decidable (slots i).HoldsOverfull := fun i =>
        decidableHoldsOverfull (slots i)
      inferInstanceAs
        (Decidable
          ((Tree.node lead address nr slots).Overfull ∨
            ∃ i, (slots i).HoldsOverfull))
  | .dangling _ _ => inferInstanceAs (Decidable False)

/-- The second pass leaves no child in a node of fifteen leaves. -/
theorem gc_compact_retry :
    ∃ final,
      GcExits .patched rejectTwo (fun _ => false) retryHeap retryArray 0
          (.returned 0 final) ∧
        CompactArray final := by
  obtain ⟨_, _, _, final, _, _, _, exits, _⟩ :=
    retryArray_returns .patched (fun _ _ => true) (by decide +kernel)
  exact
    ⟨final, exits,
      (gc_compact_iff retryArray_wellFormed exits).mpr (by decide +kernel)⟩

/-- The node that lost its shortcut has sixteen leaves and keeps a child. -/
theorem gc_keeps_small_child :
    WellFormed buriedHeap buriedArray buriedTree ∧
      ∃ final,
        GcExits .patched rejectDead (fun _ => false) buriedHeap buriedArray ()
            (.returned 0 final) ∧
          ¬ CompactArray final := by
  refine ⟨buriedArray_wellFormed, ?_⟩
  have holds :
      (survivors rejectDead buriedTree ()).1.HoldsOverfull := by
    decide +kernel
  have stops :=
    collect_eq_bug_iff rejectDead buriedTree (callLedger buriedHeap ())
      buriedArray_wellFormed.whole
  cases outcome :
      collect .patched rejectDead (fun _ => false) buriedTree
        (callLedger buriedHeap ()) with
  | bug =>
      have jams := stops.mp outcome
      exact absurd jams (by decide +kernel)
  | enomem t after =>
      exact absurd outcome (collect_ne_enomem .patched rejectDead)
  | done t after =>
      obtain ⟨final, exits, published⟩ :=
        gc_collected_returns .patched rejectDead _ buriedArray_wellFormed rfl
          outcome
      refine ⟨final, exits, ?_⟩
      rintro ⟨other, wellFormed, compact⟩
      rw [wellFormed.unique published] at compact
      exact (collect_compact_iff outcome).mp compact holds

end KernelStuff.AssocArrayGc
