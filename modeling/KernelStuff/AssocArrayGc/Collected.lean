import KernelStuff.AssocArrayGc.CompressPass

/-!
# What a finished collection looks like

The slots of a node are collected in order, each from the ledger the one before
it left.  `collect_node_done` states that once; every property of the result is
then an induction on the old tree whose node case is a statement about `finish`.
-/

namespace KernelStuff.AssocArrayGc

open KernelStuff.Library

/-! ## The node step -/

/-- The node under compression after all passes over it. -/
structure Compressed (slots : Fin assocArrayFanOut → Tree) (p : Pass) :
    Prop where
  sound : p.Sound
  bag_eq : bag p.slots = bag slots
  nr_eq : p.nr = slotLeafCount slots
  nodes : ∀ i, (p.slots i).isMeta = true →
    p.slots i = slots i ∧ 2 ≤ (slots i).leafCount
  retained_iff : p.retained = true ↔ ∃ i, (p.slots i).isMeta = true

theorem Compressed.of_pass
    {slots : Fin assocArrayFanOut → Tree} {p : Pass}
    (counted : ∀ i, (slots i).Counted)
    (whole : ∀ i, (slots i).Whole)
    (run : compressPass slots = some p) :
    Compressed slots p := by
  have visited := compressPass_visited counted whole run
  exact
    ⟨visited.sound, visited.bag_eq, visited.nr_eq_slotLeafCount,
      fun i => visited.retains i (List.mem_finRange i),
      visited.start_retained_iff⟩

theorem Compressed.trans
    {slots : Fin assocArrayFanOut → Tree} {p q : Pass}
    (first : Compressed slots p)
    (second : Compressed p.slots q) :
    Compressed slots q where
  sound := second.sound
  bag_eq := second.bag_eq.trans first.bag_eq
  nr_eq := by
    rw [second.nr_eq, ← card_bag, first.bag_eq, card_bag]
  nodes := by
    intro i isNode
    obtain ⟨same, _⟩ := second.nodes i isNode
    rw [same] at isNode ⊢
    exact first.nodes i isNode
  retained_iff := second.retained_iff

/-- How `compress` can end. -/
theorem compress_cases
    {variant : Variant} {address : Nat}
    {slots : Fin assocArrayFanOut → Tree} {p : Pass} {retries : List Event}
    (run : compress variant address slots = some (p, retries)) :
    (compressPass slots = some p ∧
        variant.retries p.retained p.nr = false ∧ retries = []) ∨
      ∃ first,
        compressPass slots = some first ∧
          variant.retries first.retained first.nr = true ∧
          compressPass first.slots = some p ∧
          retries = [.retried address] := by
  rw [compress] at run
  obtain ⟨first, firstRun, rest⟩ := Option.bind_eq_some_iff.mp run
  split at rest
  · next again =>
      obtain ⟨second, secondRun, result⟩ := Option.map_eq_some_iff.mp rest
      cases result
      exact Or.inr ⟨first, firstRun, again, secondRun, rfl⟩
  · next once =>
      cases rest
      exact Or.inl ⟨firstRun, Bool.eq_false_iff.mpr once, rfl⟩

theorem Variant.retries_nr_lt
    {variant : Variant} {retained : Bool} {nr : Nat}
    (again : variant.retries retained nr = true) :
    variant = .patched ∧ retained = true ∧ nr < assocArrayFanOut := by
  cases variant with
  | unpatched => cases again
  | patched =>
      simp only [Variant.retries, Bool.and_eq_true, decide_eq_true_eq] at again
      exact ⟨rfl, again.1, again.2⟩

/-- The passes are over: the retry test fails on what `compress` returns. -/
theorem compress_spec
    {variant : Variant} {address : Nat}
    {slots : Fin assocArrayFanOut → Tree} {p : Pass} {retries : List Event}
    (counted : ∀ i, (slots i).Counted)
    (whole : ∀ i, (slots i).Whole)
    (run : compress variant address slots = some (p, retries)) :
    Compressed slots p ∧ variant.retries p.retained p.nr = false := by
  rcases compress_cases run with
    ⟨once, settled, _⟩ | ⟨first, firstRun, again, secondRun, _⟩
  · exact ⟨Compressed.of_pass counted whole once, settled⟩
  · have firstDone := Compressed.of_pass counted whole firstRun
    have secondDone :=
      Compressed.of_pass firstDone.sound.counted firstDone.sound.whole
        secondRun
    refine ⟨firstDone.trans secondDone, ?_⟩
    obtain ⟨isPatched, _, few⟩ := Variant.retries_nr_lt again
    rw [isPatched, Variant.retries,
      compressPass_second counted whole firstRun few secondRun, Bool.false_and]

/-- The subtree behind a sole shortcut is the only content of the node. -/
theorem Pass.soleShortcut_spec
    {p : Pass} {subtree : Tree}
    (sound : p.Sound)
    (sole : p.soleShortcut = some subtree) :
    ∃ i, p.slots i = subtree ∧ subtree.isMeta = true ∧
      (∀ j, j ≠ i → p.slots j = .empty) ∧
      assocArrayPtrIsShortcut subtree.ptr = true := by
  rw [Pass.soleShortcut] at sole
  split at sole
  · next free =>
      obtain ⟨i, _, picked⟩ := Option.bind_eq_some_iff.mp sole
      split at picked
      · next tests =>
          cases picked
          rw [Bool.and_eq_true] at tests
          have occupied : p.slots i ≠ .empty := by
            intro isEmpty
            rw [isEmpty] at tests
            cases tests.1
          have nrFree := sound.nrFree_eq
          exact
            ⟨i, rfl, tests.1,
              fun j different =>
                empty_of_emptyCount occupied (by omega) different,
              tests.2⟩
      · cases picked
  · cases sole

theorem bag_eq_of_sole
    {slots : Fin assocArrayFanOut → Tree} {i : Fin assocArrayFanOut}
    (others : ∀ j, j ≠ i → slots j = .empty) :
    bag slots = ↑(slots i).leaves := by
  apply Finset.sum_eq_single i
  · intro j _ different
    rw [others j different]
    rfl
  · intro absent
    exact absurd (Finset.mem_univ i) absent

/-- A shortcut that is left stands in front of more leaves than a node has
slots. -/
def Tree.LeadLarge : Tree → Prop
  | .node (some _) _ nr _ => assocArrayFanOut < nr
  | _ => True

/-- What `finish` returns: the subtree behind a sole shortcut, or the compressed
node with or without the shortcut in front of it. -/
theorem finish_cases
    {variant : Variant} {lead : Option Lead} {address : Nat}
    {slots : Fin assocArrayFanOut → Tree} {t : Tree} {events : List Event}
    (counted : ∀ i, (slots i).Counted)
    (whole : ∀ i, (slots i).Whole)
    (run : finish variant lead address slots = some (t, events)) :
    ∃ p retries,
      compress variant address slots = some (p, retries) ∧
      Compressed slots p ∧
      variant.retries p.retained p.nr = false ∧
      ((p.soleShortcut = some t ∧ events = retries) ∨
        (p.soleShortcut = none ∧ p.nr ≤ assocArrayFanOut ∧
          t = .node none address p.nr p.slots ∧
          events = retries ++ (lead.map fun _ =>
            Event.excisedShortcut fun i => (p.slots i).ptr).toList) ∨
        (p.soleShortcut = none ∧ assocArrayFanOut < p.nr ∧
          t = .node lead address p.nr p.slots ∧ events = retries)) := by
  obtain ⟨⟨p, retries⟩, compressed, result⟩ := Option.map_eq_some_iff.mp run
  obtain ⟨done, settled⟩ := compress_spec counted whole compressed
  refine ⟨p, retries, compressed, done, settled, ?_⟩
  cases sole : p.soleShortcut with
  | some subtree =>
      simp only [exciseTree, sole, List.append_nil] at result
      cases result
      exact Or.inl ⟨rfl, rfl⟩
  | none =>
      by_cases few : p.nr ≤ assocArrayFanOut
      · simp only [exciseTree, sole, if_pos few] at result
        cases result
        exact Or.inr (Or.inl ⟨rfl, few, rfl, rfl⟩)
      · simp only [exciseTree, sole, if_neg few, List.append_nil] at result
        cases result
        exact Or.inr (Or.inr ⟨rfl, by omega, rfl, rfl⟩)

/-- The facts about a collected subtree that the level above relies on. -/
structure Tree.Collected (t : Tree) : Prop where
  counted : t.Counted
  whole : t.Whole
  leadLarge : t.LeadLarge

/-- A node that is left for the shortcut it holds has more leaves than slots. -/
theorem soleShortcut_large
    {slots : Fin assocArrayFanOut → Tree} {p : Pass} {t : Tree}
    (collected : ∀ i, (slots i).Collected)
    (done : Compressed slots p)
    (sole : p.soleShortcut = some t) :
    assocArrayFanOut < slotLeafCount slots ∧
      ∃ i inner address nr children,
        slots i = t ∧ t = .node (some inner) address nr children := by
  obtain ⟨i, here, isNode, others, isShortcut⟩ :=
    Pass.soleShortcut_spec done.sound sole
  obtain ⟨same, _⟩ := done.nodes i (by rw [here]; exact isNode)
  obtain ⟨inner, address, nr, children, content⟩ :=
    Tree.exists_node_of_isMeta (done.sound.whole i) (by rw [here]; exact isNode)
  have large := (collected i).leadLarge
  have countedHere := (collected i).counted
  have within := leafCount_le_slotLeafCount slots i
  rw [← same, content] at large countedHere
  rw [← same, content, Tree.leafCount_node_eq,
    ← countedHere.nr_eq_slotLeafCount] at within
  cases inner with
  | none =>
      rw [← here, content] at isShortcut
      cases isShortcut
  | some front =>
      change assocArrayFanOut < nr at large
      exact
        ⟨by omega, i, front, address, nr, children, by rw [← same, here],
          by rw [← here, content]⟩

theorem finish_collected
    {variant : Variant} {lead : Option Lead} {address : Nat}
    {slots : Fin assocArrayFanOut → Tree} {t : Tree} {events : List Event}
    (collected : ∀ i, (slots i).Collected)
    (run : finish variant lead address slots = some (t, events)) :
    t.Collected := by
  obtain ⟨p, retries, _, done, _, shape⟩ :=
    finish_cases (fun i => (collected i).counted)
      (fun i => (collected i).whole) run
  have counts : p.nr = slotLeafCount p.slots := by
    rw [done.nr_eq, ← card_bag, ← done.bag_eq, card_bag]
  have recorded :
      p.nr =
        ((List.finRange assocArrayFanOut).flatMap
          fun i => (p.slots i).leaves).length := by
    rw [counts, ← Tree.leafCount_node_eq none 0 0 p.slots]
    rfl
  rcases shape with ⟨sole, _⟩ | ⟨_, _, shape, _⟩ | ⟨_, many, shape, _⟩
  · obtain ⟨i, here, isNode, _, _⟩ := Pass.soleShortcut_spec done.sound sole
    rw [← here] at isNode ⊢
    rw [(done.nodes i isNode).1]
    exact collected i
  · subst shape
    exact ⟨⟨recorded, done.sound.counted⟩, done.sound.whole, trivial⟩
  · subst shape
    refine ⟨⟨recorded, done.sound.counted⟩, done.sound.whole, ?_⟩
    cases lead with
    | none => trivial
    | some front => exact many

theorem finish_isMeta
    {variant : Variant} {lead : Option Lead} {address : Nat}
    {slots : Fin assocArrayFanOut → Tree} {t : Tree} {events : List Event}
    (collected : ∀ i, (slots i).Collected)
    (run : finish variant lead address slots = some (t, events)) :
    t.isMeta = true := by
  obtain ⟨p, retries, _, done, _, shape⟩ :=
    finish_cases (fun i => (collected i).counted)
      (fun i => (collected i).whole) run
  rcases shape with ⟨sole, _⟩ | ⟨_, _, shape, _⟩ | ⟨_, _, shape, _⟩
  · obtain ⟨_, _, isNode, _, _⟩ := Pass.soleShortcut_spec done.sound sole
    exact isNode
  · rw [shape, Tree.isMeta_node]
  · rw [shape, Tree.isMeta_node]

/-- No leaf is lost, invented or duplicated at a node. -/
theorem finish_leaves
    {variant : Variant} {lead : Option Lead} {address : Nat}
    {slots : Fin assocArrayFanOut → Tree} {t : Tree} {events : List Event}
    (collected : ∀ i, (slots i).Collected)
    (run : finish variant lead address slots = some (t, events)) :
    (↑t.leaves : Multiset Leaf) = bag slots := by
  obtain ⟨p, retries, _, done, _, shape⟩ :=
    finish_cases (fun i => (collected i).counted)
      (fun i => (collected i).whole) run
  rcases shape with ⟨sole, _⟩ | ⟨_, _, shape, _⟩ | ⟨_, _, shape, _⟩
  · obtain ⟨i, here, _, others, _⟩ := Pass.soleShortcut_spec done.sound sole
    rw [← here, ← bag_eq_of_sole others, done.bag_eq]
  · rw [shape, Tree.leaves_node_eq_bag, done.bag_eq]
  · rw [shape, Tree.leaves_node_eq_bag, done.bag_eq]

/-- With the patch, a collected child with fewer leaves than slots is ready to be
folded. -/
theorem finish_settled
    {lead : Option Lead} {address : Nat}
    {slots : Fin assocArrayFanOut → Tree} {t : Tree} {events : List Event}
    (collected : ∀ i, (slots i).Collected)
    (settled : ∀ i, (slots i).Settled)
    (run : finish .patched lead address slots = some (t, events)) :
    t.Settled := by
  obtain ⟨p, retries, _, done, noMore, shape⟩ :=
    finish_cases (fun i => (collected i).counted)
      (fun i => (collected i).whole) run
  rcases shape with ⟨sole, _⟩ | ⟨_, _, shape, _⟩ | ⟨_, many, shape, _⟩
  · obtain ⟨i, here, isNode, _, _⟩ := Pass.soleShortcut_spec done.sound sole
    rw [← here] at isNode ⊢
    rw [(done.nodes i isNode).1]
    exact settled i
  · subst shape
    intro _ few i
    have recorded := (Tree.leafCount_node_eq none address p.nr p.slots)
    have counts : p.nr = slotLeafCount p.slots := by
      rw [done.nr_eq, ← card_bag, ← done.bag_eq, card_bag]
    apply Bool.eq_false_iff.mpr
    intro isNode
    have retained := done.retained_iff.mpr ⟨i, isNode⟩
    rw [Variant.retries, retained, Bool.true_and,
      decide_eq_false_iff_not] at noMore
    omega
  · subst shape
    intro _ few
    have recorded := (Tree.leafCount_node_eq lead address p.nr p.slots)
    have counts : p.nr = slotLeafCount p.slots := by
      rw [done.nr_eq, ← card_bag, ← done.bag_eq, card_bag]
    omega

/-! ## The slots of a node -/

section Slots

variable {State : Type}

theorem drop_finRange
    {k : Nat} (bound : k < assocArrayFanOut) :
    (List.finRange assocArrayFanOut).drop k =
      ⟨k, bound⟩ :: (List.finRange assocArrayFanOut).drop (k + 1) := by
  rw [List.drop_eq_getElem_cons (by simpa using bound), List.getElem_finRange]
  rfl

/-- Collecting from slot `k` on: the states in between, and the slots before `k`
left alone. -/
private theorem collectSlots_drop_done
    {visit : Fin assocArrayFanOut → State → Outcome State Tree}
    {filtered : Fin assocArrayFanOut → Tree} {after : State}
    (remaining : Nat) :
    ∀ (k : Nat), k + remaining = assocArrayFanOut →
      ∀ (start : Fin assocArrayFanOut → Tree) (state : State),
        collectSlots visit ((List.finRange assocArrayFanOut).drop k)
            start state = .done filtered after →
          ∃ states : Nat → State,
            states k = state ∧ states assocArrayFanOut = after ∧
              (∀ i : Fin assocArrayFanOut, k ≤ i.val →
                visit i (states i.val) =
                  .done (filtered i) (states (i.val + 1))) ∧
              ∀ i : Fin assocArrayFanOut, i.val < k →
                filtered i = start i := by
  induction remaining with
  | zero =>
      intro k full start state run
      rw [List.drop_of_length_le (by simp; omega), collectSlots,
        Outcome.done.injEq] at run
      obtain ⟨rfl, rfl⟩ := run
      refine ⟨fun _ => state, rfl, rfl, ?_, fun _ _ => rfl⟩
      intro i late
      exact absurd i.isLt (by omega)
  | succ remaining inductionHypothesis =>
      intro k full start state run
      rw [drop_finRange (by omega), collectSlots] at run
      cases visited : visit ⟨k, by omega⟩ state with
      | enomem t middle =>
          rw [visited] at run
          cases run
      | bug =>
          rw [visited] at run
          cases run
      | done t middle =>
          rw [visited] at run
          obtain ⟨states, first, last, steps, kept⟩ :=
            inductionHypothesis (k + 1) (by omega) _ _ run
          refine
            ⟨fun j => if j = k then state else states j, if_pos rfl, ?_,
              ?_, ?_⟩
          · simp only [if_neg (by omega : ¬ assocArrayFanOut = k)]
            exact last
          · intro i late
            by_cases here : i.val = k
            · have same : i = ⟨k, by omega⟩ := Fin.ext here
              have filledHere := kept i (by omega)
              rw [same, Function.update_self] at filledHere
              simp only [if_pos here, if_neg (by omega : ¬ i.val + 1 = k)]
              rw [same, filledHere]
              simp only [first]
              exact visited
            · simp only [if_neg here, if_neg (by omega : ¬ i.val + 1 = k)]
              exact steps i (by omega)
          · intro i early
            rw [kept i (by omega), Function.update_of_ne]
            exact Fin.ne_of_val_ne (by simp; omega)

/-- The slots are collected in order, each from the state the one before it
left. -/
theorem collectSlots_done
    {visit : Fin assocArrayFanOut → State → Outcome State Tree}
    {start filtered : Fin assocArrayFanOut → Tree} {state after : State}
    (run :
      collectSlots visit (List.finRange assocArrayFanOut) start state =
        .done filtered after) :
    ∃ states : Nat → State,
      states 0 = state ∧ states assocArrayFanOut = after ∧
        ∀ i : Fin assocArrayFanOut,
          visit i (states i.val) = .done (filtered i) (states (i.val + 1)) := by
  obtain ⟨states, first, last, steps, _⟩ :=
    collectSlots_drop_done assocArrayFanOut 0 (by omega) start state run
  exact ⟨states, first, last, fun i => steps i (Nat.zero_le _)⟩

private theorem collectSlots_drop_bug
    {visit : Fin assocArrayFanOut → State → Outcome State Tree}
    (remaining : Nat) :
    ∀ (k : Nat), k + remaining = assocArrayFanOut →
      ∀ (start : Fin assocArrayFanOut → Tree) (state : State),
        collectSlots visit ((List.finRange assocArrayFanOut).drop k)
            start state = .bug →
          ∃ (i : Fin assocArrayFanOut) (states : Nat → State),
            k ≤ i.val ∧ states k = state ∧
              (∀ j : Fin assocArrayFanOut, k ≤ j.val → j.val < i.val →
                ∃ t, visit j (states j.val) = .done t (states (j.val + 1))) ∧
              visit i (states i.val) = .bug := by
  induction remaining with
  | zero =>
      intro k full start state stopped
      rw [List.drop_of_length_le (by simp; omega), collectSlots] at stopped
      cases stopped
  | succ remaining inductionHypothesis =>
      intro k full start state stopped
      rw [drop_finRange (by omega), collectSlots] at stopped
      cases visited : visit ⟨k, by omega⟩ state with
      | bug =>
          exact
            ⟨⟨k, by omega⟩, fun _ => state, Nat.le_refl k, rfl,
              fun j late early => absurd late (by simp at early; omega),
              visited⟩
      | enomem t middle =>
          rw [visited] at stopped
          cases stopped
      | done t middle =>
          rw [visited] at stopped
          obtain ⟨i, states, beyond, first, steps, stops⟩ :=
            inductionHypothesis (k + 1) (by omega) _ _ stopped
          refine
            ⟨i, fun j => if j = k then state else states j, by omega,
              if_pos rfl, ?_, ?_⟩
          · intro j late early
            by_cases here : j.val = k
            · have same : j = ⟨k, by omega⟩ := Fin.ext here
              simp only [if_pos here, if_neg (by omega : ¬ j.val + 1 = k)]
              rw [same, first]
              exact ⟨t, visited⟩
            · simp only [if_neg here, if_neg (by omega : ¬ j.val + 1 = k)]
              exact steps j (by omega) early
          · simp only [if_neg (by omega : ¬ i.val = k)]
            exact stops

/-- Where the collection of the slots stops at a `BUG_ON`. -/
theorem collectSlots_bug
    {visit : Fin assocArrayFanOut → State → Outcome State Tree}
    {start : Fin assocArrayFanOut → Tree} {state : State}
    (stopped :
      collectSlots visit (List.finRange assocArrayFanOut) start state = .bug) :
    ∃ (i : Fin assocArrayFanOut) (states : Nat → State),
      states 0 = state ∧
        (∀ j : Fin assocArrayFanOut, j.val < i.val →
          ∃ t, visit j (states j.val) = .done t (states (j.val + 1))) ∧
        visit i (states i.val) = .bug := by
  obtain ⟨i, states, _, first, steps, stops⟩ :=
    collectSlots_drop_bug assocArrayFanOut 0 (by omega) start state stopped
  exact ⟨i, states, first, fun j => steps j (Nat.zero_le _), stops⟩

/-- Filtering is collecting when nothing can fail. -/
theorem collectSlots_eq_filterSlots
    (visit : Fin assocArrayFanOut → State → Tree × State) :
    ∀ (items : List (Fin assocArrayFanOut))
      (start : Fin assocArrayFanOut → Tree) (state : State),
      collectSlots (fun i state => .done (visit i state).1 (visit i state).2)
          items start state =
        .done (filterSlots visit items start state).1
          (filterSlots visit items start state).2
  | [], _, _ => rfl
  | i :: rest, start, state => by
      rw [collectSlots, filterSlots]
      exact collectSlots_eq_filterSlots visit rest _ _

theorem filterSlots_spec
    (visit : Fin assocArrayFanOut → State → Tree × State)
    (start : Fin assocArrayFanOut → Tree) (state : State) :
    ∃ states : Nat → State,
      states 0 = state ∧
        states assocArrayFanOut =
          (filterSlots visit (List.finRange assocArrayFanOut) start state).2 ∧
        ∀ i : Fin assocArrayFanOut,
          visit i (states i.val) =
            ((filterSlots visit (List.finRange assocArrayFanOut)
              start state).1 i, states (i.val + 1)) := by
  obtain ⟨states, first, last, steps⟩ :=
    collectSlots_done (collectSlots_eq_filterSlots visit _ start state)
  refine ⟨states, first, last, ?_⟩
  intro i
  have step := steps i
  rw [Outcome.done.injEq] at step
  exact Prod.ext step.1 step.2

end Slots

/-! ## The recursion -/

section Recursion

variable {σ : Type} {variant : Variant} {iterator : Leaf → σ → Bool × σ}
  {fails : Nat → Bool}

theorem finishNode_done
    {front : Option Lead} {copy : Nat} {t : Tree} {after : Ledger σ}
    {outcome : Outcome (Ledger σ) (Fin assocArrayFanOut → Tree)}
    (run : finishNode variant front copy outcome = .done t after) :
    ∃ filtered middle events,
      outcome = .done filtered middle ∧
        finish variant front copy filtered = some (t, events) ∧
        after = { middle with trace := middle.trace ++ events } := by
  cases outcome with
  | enomem filtered middle => cases run
  | bug => cases run
  | done filtered middle =>
      rw [finishNode] at run
      split at run
      · next t' events finished =>
          rw [Outcome.done.injEq] at run
          obtain ⟨rfl, rfl⟩ := run
          exact ⟨filtered, middle, events, rfl, finished, rfl⟩
      · cases run

/-- The slots of a node are filtered in order. -/
theorem survivorSlots_spec
    (iterator : Leaf → σ → Bool × σ) (slots : Fin assocArrayFanOut → Tree)
    (data : σ) :
    ∃ states : Nat → σ,
      states 0 = data ∧
        states assocArrayFanOut = (survivorSlots iterator slots data).2 ∧
        ∀ i : Fin assocArrayFanOut,
          survivors iterator (slots i) (states i.val) =
            ((survivorSlots iterator slots data).1 i, states (i.val + 1)) :=
  filterSlots_spec _ _ data

/-- A collected node: no allocation for it failed, its slots were collected in
order, and `finish` made the result. -/
theorem collect_node_done
    {lead : Option Lead} {address nr : Nat}
    {slots : Fin assocArrayFanOut → Tree} {ledger after : Ledger σ} {t : Tree}
    (run :
      collect variant iterator fails (.node lead address nr slots) ledger =
        .done t after) :
    ∃ (filtered : Fin assocArrayFanOut → Tree) (ledgers : Nat → Ledger σ)
      (events : List Event),
      (lead.isSome && fails ledger.next) = false ∧
      fails (afterLead lead ledger.next) = false ∧
      ledgers 0 =
        { ledger with next := afterLead lead ledger.next + 1 } ∧
      (∀ i : Fin assocArrayFanOut,
        collect variant iterator fails (slots i) (ledgers i.val) =
          .done (filtered i) (ledgers (i.val + 1))) ∧
      finish variant (duplicateLead lead ledger.next)
          (afterLead lead ledger.next) filtered = some (t, events) ∧
      after =
        { ledgers assocArrayFanOut with
          trace := (ledgers assocArrayFanOut).trace ++ events } := by
  rw [collect] at run
  split at run
  · cases run
  next leadAllocated =>
    split at run
    · cases run
    next nodeAllocated =>
      obtain ⟨filtered, middle, events, slotsRun, finished, afterEq⟩ :=
        finishNode_done run
      obtain ⟨ledgers, first, last, steps⟩ := collectSlots_done slotsRun
      refine ⟨filtered, ledgers, events,
        Bool.eq_false_iff.mpr leadAllocated,
        Bool.eq_false_iff.mpr nodeAllocated, first, steps, finished, ?_⟩
      rw [last, afterEq]

theorem collect_collected :
    ∀ {old t : Tree} {ledger after : Ledger σ},
      collect variant iterator fails old ledger = .done t after →
        t.Collected
  | .empty, t, ledger, after, run => by
      cases run
      exact ⟨trivial, trivial, trivial⟩
  | .leaf object, t, ledger, after, run => by
      rw [collect, Outcome.done.injEq] at run
      rw [← run.1]
      split <;> exact ⟨trivial, trivial, trivial⟩
  | .node lead address nr slots, t, ledger, after, run => by
      obtain ⟨filtered, ledgers, events, _, _, _, steps, finished, _⟩ :=
        collect_node_done run
      exact finish_collected (fun i => collect_collected (steps i)) finished
  | .dangling lead next, t, ledger, after, run => by
      cases run

/-- A slot that leads to a node or shortcut still does, and no other slot starts
to. -/
theorem collect_isMeta {old t : Tree} {ledger after : Ledger σ}
    (run : collect variant iterator fails old ledger = .done t after) :
    t.isMeta = old.isMeta := by
  cases old with
  | empty =>
      cases run
      rfl
  | leaf object =>
      rw [collect, Outcome.done.injEq] at run
      rw [← run.1]
      split <;> rfl
  | node lead address nr slots =>
      obtain ⟨filtered, ledgers, events, _, _, _, steps, finished, _⟩ :=
        collect_node_done run
      rw [Tree.isMeta_node]
      exact finish_isMeta (fun i => collect_collected (steps i)) finished
  | dangling lead next => cases run

/-- The leaves of the result are the survivors, and the iterator is left in the
state the filter leaves it in. -/
theorem collect_leaves :
    ∀ {old t : Tree} {ledger after : Ledger σ},
      collect variant iterator fails old ledger = .done t after →
        (↑t.leaves : Multiset Leaf) =
            ↑(survivors iterator old ledger.iteratorData).1.leaves ∧
          after.iteratorData =
            (survivors iterator old ledger.iteratorData).2
  | .empty, t, ledger, after, run => by
      cases run
      exact ⟨rfl, rfl⟩
  | .leaf object, t, ledger, after, run => by
      rw [collect, Outcome.done.injEq] at run
      rw [← run.1, ← run.2]
      exact ⟨rfl, rfl⟩
  | .node lead address nr slots, t, ledger, after, run => by
      obtain ⟨filtered, ledgers, events, _, _, first, steps, finished, last⟩ :=
        collect_node_done run
      obtain ⟨states, stateFirst, stateLast, stateSteps⟩ :=
        survivorSlots_spec iterator slots ledger.iteratorData
      have children := fun i => collect_leaves (steps i)
      -- The two runs keep the iterator in the same state.
      have together :
          ∀ k, k ≤ assocArrayFanOut → k ≤ assocArrayFanOut →
            (ledgers k).iteratorData = states k :=
        steps_unique (fun i data => (survivors iterator (slots i) data).2)
          (by rw [first, stateFirst])
          (fun i _ => (children i).2)
          (fun i _ => (congrArg Prod.snd (stateSteps i)).symm)
      constructor
      · rw [finish_leaves (fun i => collect_collected (steps i)) finished,
          survivors_node, Tree.leaves_node_eq_bag]
        apply Finset.sum_congr rfl
        intro i _
        have within : i.val ≤ assocArrayFanOut := Nat.le_of_lt i.isLt
        rw [(children i).1, together i.val within within, stateSteps i]
      · rw [last, survivors_node]
        exact
          (together assocArrayFanOut (Nat.le_refl _) (Nat.le_refl _)).trans
            stateLast
  | .dangling lead next, t, ledger, after, run => by
      cases run

/-- The survivors of a slot, from the state in which the collector reaches it. -/
theorem survivors_slot
    {slots : Fin assocArrayFanOut → Tree} {ledgers : Nat → Ledger σ}
    {i : Fin assocArrayFanOut}
    (earlier : ∀ j : Fin assocArrayFanOut, j.val < i.val →
      ∃ t, collect variant iterator fails (slots j) (ledgers j.val) =
        .done t (ledgers (j.val + 1))) :
    (survivorSlots iterator slots (ledgers 0).iteratorData).1 i =
      (survivors iterator (slots i) (ledgers i.val).iteratorData).1 := by
  obtain ⟨states, first, _, steps⟩ :=
    survivorSlots_spec iterator slots (ledgers 0).iteratorData
  have together :
      ∀ k, k ≤ i.val → k ≤ assocArrayFanOut →
        (ledgers k).iteratorData = states k :=
    steps_unique (fun i data => (survivors iterator (slots i) data).2) first.symm
      (fun j before => by
        obtain ⟨t, run⟩ := earlier j before
        exact (collect_leaves run).2)
      (fun j _ => (congrArg Prod.snd (steps j)).symm)
  rw [together i.val (Nat.le_refl _) (Nat.le_of_lt i.isLt), steps i]

end Recursion

end KernelStuff.AssocArrayGc
