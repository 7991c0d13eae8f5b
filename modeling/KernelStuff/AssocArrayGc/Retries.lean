import KernelStuff.AssocArrayGc.LiveTree

/-!
# Jumps back to `retry_compress`

A pass that is repeated has counted fewer leaves than the node has slots, and
the children it retained hold at least two leaves each, so the repetition finds
room for all of them.  Every node is compressed under an address of its own;
counting the jumps by address therefore counts them by node.
-/

namespace KernelStuff.AssocArrayGc

open KernelStuff.Library

/-! ## The second pass -/

/-- After a jump back nothing is retained. -/
theorem compress_retried_plain
    {address : Nat} {slots : Fin assocArrayFanOut → Tree} {p : Pass}
    {retries : List Event}
    (counted : ∀ i, (slots i).Counted)
    (whole : ∀ i, (slots i).Whole)
    (run : compress .patched address slots = some (p, retries)) :
    retries = [] ∨
      retries = [.retried address] ∧ ∀ i, (p.slots i).isMeta = false := by
  obtain ⟨done, noMore⟩ := compress_spec counted whole run
  rcases compress_cases run with
    ⟨_, _, once⟩ | ⟨first, firstRun, again, _, twice⟩
  · exact Or.inl once
  · refine Or.inr ⟨twice, fun i => ?_⟩
    obtain ⟨_, _, few⟩ := Variant.retries_nr_lt again
    have sameTotal : p.nr = first.nr := by
      rw [done.nr_eq, (Compressed.of_pass counted whole firstRun).nr_eq]
    by_contra isNode
    have retained :=
      done.retained_iff.mpr ⟨i, Bool.not_eq_false _ ▸ isNode⟩
    rw [Variant.retries, retained, sameTotal, decide_eq_true few] at noMore
    cases noMore

/-! ## Counting by node -/

/-- The node a jump back was taken at. -/
def Event.retriedNode? : Event → Option Nat
  | .iterated _ => none
  | .retried node => some node
  | .excisedShortcut _ => none

/-- The nodes jumps back were taken at, in order. -/
def retriedNodes (trace : List Event) : List Nat :=
  trace.filterMap Event.retriedNode?

theorem retriedNodes_append (first second : List Event) :
    retriedNodes (first ++ second) =
      retriedNodes first ++ retriedNodes second :=
  List.filterMap_append

theorem mem_retriedNodes {trace : List Event} {node : Nat} :
    node ∈ retriedNodes trace ↔ .retried node ∈ trace := by
  rw [retriedNodes, List.mem_filterMap]
  constructor
  · rintro ⟨event, member, isRetry⟩
    cases event with
    | retried other =>
        cases isRetry
        exact member
    | iterated object => cases isRetry
    | excisedShortcut slots => cases isRetry
  · intro member
    exact ⟨_, member, rfl⟩

/-- If the tree has a node at `x`, its slots are empty or lead to leaves. -/
def Tree.PlainAt (x : Nat) : Tree → Prop
  | .empty => True
  | .leaf _ => True
  | .node _ address _ slots =>
      (address = x → ∀ i, (slots i).isMeta = false) ∧
        ∀ i, (slots i).PlainAt x
  | .dangling _ _ => True

theorem Tree.plainAt_of_not_owns {x : Nat} :
    ∀ {t : Tree}, ¬ t.Owns x → t.PlainAt x
  | .empty, _ => trivial
  | .leaf _, _ => trivial
  | .node lead address nr slots, absent => by
      refine ⟨?_, ?_⟩
      · intro same
        exact absurd (Or.inl same.symm) absent
      · intro i
        exact plainAt_of_not_owns fun owned =>
          absent (Or.inr (Or.inr ⟨i, owned⟩))
  | .dangling _ _, _ => trivial

theorem Tree.plainAt_of_plain
    {t : Tree} (plain : t.isMeta = false) (x : Nat) :
    t.PlainAt x :=
  Tree.plainAt_of_not_owns (Tree.not_owns_of_plain plain x)

/-- What has been built from the addresses between `base` and `last`: no node
was retried twice, and what was retried holds no child. -/
structure RetriedOnce (base last : Nat) (owns plainAt : Nat → Prop)
    (events : List Event) : Prop where
  le : base ≤ last
  owned : ∀ x, owns x → base ≤ x ∧ x < last
  nodup : (retriedNodes events).Nodup
  range : ∀ x ∈ retriedNodes events, base ≤ x ∧ x < last
  plain : ∀ x ∈ retriedNodes events, plainAt x

section Collect

variable {σ : Type} {iterator : Leaf → σ → Bool × σ} {fails : Nat → Bool}

/-- What an outcome adds to `events`, which led from `base` to `ledger`. -/
def OutcomeRetriesOnce {Result : Type} (base : Nat) (events : List Event)
    (ledger : Ledger σ) (owns plainAt : Result → Nat → Prop) :
    Outcome (Ledger σ) Result → Prop
  | .done result after =>
      ∃ later,
        after.trace = ledger.trace ++ later ∧
          RetriedOnce base after.next (owns result) (plainAt result)
            (events ++ later)
  | .enomem result after =>
      ∃ later,
        after.trace = ledger.trace ++ later ∧
          RetriedOnce base after.next (owns result) (plainAt result)
            (events ++ later)
  | .bug => True

/-- Events may be counted to what came before. -/
theorem OutcomeRetriesOnce.after
    {Result : Type} {base : Nat} {events later : List Event}
    {ledger middle : Ledger σ} {owns plainAt : Result → Nat → Prop}
    {outcome : Outcome (Ledger σ) Result}
    (traceEq : middle.trace = ledger.trace ++ later)
    (once : OutcomeRetriesOnce base (events ++ later) middle owns plainAt
      outcome) :
    OutcomeRetriesOnce base events ledger owns plainAt outcome := by
  cases outcome with
  | bug => trivial
  | done result after =>
      obtain ⟨final, finalEq, onceMore⟩ := once
      refine ⟨later ++ final, ?_, ?_⟩
      · rw [finalEq, traceEq, List.append_assoc]
      · rw [← List.append_assoc]
        exact onceMore
  | enomem result after =>
      obtain ⟨final, finalEq, onceMore⟩ := once
      refine ⟨later ++ final, ?_, ?_⟩
      · rw [finalEq, traceEq, List.append_assoc]
      · rw [← List.append_assoc]
        exact onceMore

def SlotsOwn (slots : Fin assocArrayFanOut → Tree) (x : Nat) : Prop :=
  ∃ i, (slots i).Owns x

def SlotsPlainAt (slots : Fin assocArrayFanOut → Tree) (x : Nat) : Prop :=
  ∀ i, (slots i).PlainAt x

/-- One more slot, built from later addresses. -/
theorem RetriedOnce.update
    {base middle last : Nat} {filtered : Fin assocArrayFanOut → Tree}
    {events later : List Event} {t : Tree}
    (before : RetriedOnce base middle (SlotsOwn filtered)
      (SlotsPlainAt filtered) events)
    (child : RetriedOnce middle last t.Owns (fun x => t.PlainAt x) later)
    (i : Fin assocArrayFanOut) :
    RetriedOnce base last (SlotsOwn (Function.update filtered i t))
      (SlotsPlainAt (Function.update filtered i t)) (events ++ later) := by
  have leBefore := before.le
  have leChild := child.le
  constructor
  · omega
  · rintro x ⟨j, owned⟩
    by_cases same : j = i
    · subst same
      rw [Function.update_self] at owned
      have range := child.owned x owned
      omega
    · rw [Function.update_of_ne same] at owned
      have range := before.owned x ⟨j, owned⟩
      omega
  · rw [retriedNodes_append]
    refine List.nodup_append.mpr ⟨before.nodup, child.nodup, ?_⟩
    rintro x early y late rfl
    have earlier := before.range x early
    have later := child.range x late
    omega
  · intro x member
    rw [retriedNodes_append, List.mem_append] at member
    rcases member with early | late
    · have range := before.range x early
      omega
    · have range := child.range x late
      omega
  · intro x member j
    rw [retriedNodes_append, List.mem_append] at member
    by_cases same : j = i
    · subst same
      rw [Function.update_self]
      rcases member with early | late
      · apply Tree.plainAt_of_not_owns
        intro owned
        have earlier := before.range x early
        have here := child.owned x owned
        omega
      · exact child.plain x late
    · rw [Function.update_of_ne same]
      rcases member with early | late
      · exact before.plain x early j
      · apply Tree.plainAt_of_not_owns
        intro owned
        have later := child.range x late
        have here := before.owned x ⟨j, owned⟩
        omega

theorem collectSlots_retriesOnce
    {visit : Fin assocArrayFanOut → Ledger σ → Outcome (Ledger σ) Tree}
    (child : ∀ i ledger,
      OutcomeRetriesOnce ledger.next [] ledger Tree.Owns
        (fun t x => t.PlainAt x) (visit i ledger)) :
    ∀ (items : List (Fin assocArrayFanOut))
      {filtered : Fin assocArrayFanOut → Tree} {ledger : Ledger σ}
      {base : Nat} {events : List Event},
      RetriedOnce base ledger.next (SlotsOwn filtered) (SlotsPlainAt filtered)
          events →
        OutcomeRetriesOnce base events ledger SlotsOwn SlotsPlainAt
          (collectSlots visit items filtered ledger)
  | [], filtered, ledger, base, events, before => by
      refine ⟨[], (List.append_nil _).symm, ?_⟩
      rw [List.append_nil]
      exact before
  | i :: rest, filtered, ledger, base, events, before => by
      have here := child i ledger
      rw [collectSlots]
      cases outcome : visit i ledger with
      | bug => trivial
      | enomem t after =>
          rw [outcome] at here
          obtain ⟨later, traceEq, once⟩ := here
          exact ⟨later, traceEq, before.update once i⟩
      | done t after =>
          rw [outcome] at here
          obtain ⟨later, traceEq, once⟩ := here
          exact
            (collectSlots_retriesOnce child rest
              (before.update once i)).after
              traceEq

/-- The events of `finish` are those of the compress loop, up to an excised
shortcut. -/
theorem finish_retriedNodes
    {front : Option Lead} {copy : Nat} {filtered : Fin assocArrayFanOut → Tree}
    {later : List Event} {t : Tree}
    (counted : ∀ i, (filtered i).Counted)
    (whole : ∀ i, (filtered i).Whole)
    (finished : finish .patched front copy filtered = some (t, later)) :
    ∃ p,
      Compressed filtered p ∧
        (p.soleShortcut = some t ∨
          ∃ lead, (lead = none ∨ lead = front) ∧
            t = .node lead copy p.nr p.slots) ∧
        (retriedNodes later = [] ∨
          retriedNodes later = [copy] ∧ ∀ i, (p.slots i).isMeta = false) := by
  obtain ⟨p, retries, compressed, done, _, shape⟩ :=
    finish_cases counted whole finished
  have retried :
      retriedNodes retries = [] ∨
        retriedNodes retries = [copy] ∧ ∀ i, (p.slots i).isMeta = false := by
    rcases compress_retried_plain counted whole compressed with
      once | ⟨twice, plain⟩
    · exact Or.inl (by rw [once]; rfl)
    · exact Or.inr ⟨by rw [twice]; rfl, plain⟩
  refine ⟨p, done, ?_⟩
  rcases shape with ⟨sole, same⟩ | ⟨_, _, isNode, same⟩ | ⟨_, _, isNode, same⟩
  · rw [same]
    exact ⟨Or.inl sole, retried⟩
  · have noMore :
        retriedNodes later = retriedNodes retries := by
      rw [same, retriedNodes_append]
      cases front with
      | none => exact List.append_nil _
      | some lead => exact List.append_nil _
    rw [noMore]
    exact ⟨Or.inr ⟨none, Or.inl rfl, isNode⟩, retried⟩
  · rw [same]
    exact ⟨Or.inr ⟨front, Or.inr rfl, isNode⟩, retried⟩

/-- Compression keeps subtrees in their slots or folds them. -/
theorem Compressed.slots_spec
    {slots : Fin assocArrayFanOut → Tree} {p : Pass}
    (done : Compressed slots p) (i : Fin assocArrayFanOut) :
    p.slots i = slots i ∨ (p.slots i).isMeta = false := by
  cases isMeta : (p.slots i).isMeta with
  | true => exact Or.inl (done.nodes i isMeta).1
  | false => exact Or.inr rfl

/-- Nothing was retried. -/
theorem retriedOnce_of_none
    {base last : Nat} {owns plainAt : Nat → Prop} {events : List Event}
    (le : base ≤ last) (owned : ∀ x, owns x → base ≤ x ∧ x < last)
    (none : retriedNodes events = []) :
    RetriedOnce base last owns plainAt events where
  le := le
  owned := owned
  nodup := by
    rw [none]
    exact List.nodup_nil
  range := by
    intro x member
    rw [none] at member
    cases member
  plain := by
    intro x member
    rw [none] at member
    cases member

theorem RetriedOnce.compressed
    {base last : Nat} {slots : Fin assocArrayFanOut → Tree} {p : Pass}
    {events : List Event}
    (once : RetriedOnce base last (SlotsOwn slots) (SlotsPlainAt slots) events)
    (done : Compressed slots p) :
    RetriedOnce base last (SlotsOwn p.slots) (SlotsPlainAt p.slots) events where
  le := once.le
  owned := by
    rintro x ⟨i, owned⟩
    rcases done.slots_spec i with same | plain
    · exact once.owned x ⟨i, same ▸ owned⟩
    · exact absurd owned (Tree.not_owns_of_plain plain x)
  nodup := once.nodup
  range := once.range
  plain := by
    intro x member i
    rcases done.slots_spec i with same | plain
    · rw [same]
      exact once.plain x member i
    · exact Tree.plainAt_of_plain plain x

/-- The address of a node's copy and of its shortcut's come before the addresses
of what is built below it. -/
theorem RetriedOnce.node
    {base copy last : Nat} {front : Option Lead}
    {slots : Fin assocArrayFanOut → Tree} {events : List Event}
    (once :
      RetriedOnce (copy + 1) last (SlotsOwn slots) (SlotsPlainAt slots) events)
    (le : base ≤ copy)
    (leadRange : ∀ lead, front = some lead →
      base ≤ lead.address ∧ lead.address < copy)
    (nr : Nat) :
    RetriedOnce base last (Tree.node front copy nr slots).Owns
      (fun x => (Tree.node front copy nr slots).PlainAt x) events := by
  have leSlots := once.le
  constructor
  · omega
  · rintro x (same | ⟨lead, isLead, same⟩ | ⟨i, inSlot⟩)
    · omega
    · have range := leadRange lead isLead
      omega
    · have range := once.owned x ⟨i, inSlot⟩
      omega
  · exact once.nodup
  · intro x member
    have range := once.range x member
    omega
  · intro x member
    refine ⟨?_, once.plain x member⟩
    intro same
    have range := once.range x member
    omega

theorem RetriedOnce.slot
    {base later last : Nat} {slots : Fin assocArrayFanOut → Tree}
    {events : List Event}
    (once : RetriedOnce later last (SlotsOwn slots) (SlotsPlainAt slots) events)
    (le : base ≤ later) (i : Fin assocArrayFanOut) :
    RetriedOnce base last (slots i).Owns (fun x => (slots i).PlainAt x)
      events where
  le := Nat.le_trans le once.le
  owned := by
    intro x owned
    have range := once.owned x ⟨i, owned⟩
    omega
  nodup := once.nodup
  range := by
    intro x member
    have range := once.range x member
    omega
  plain := fun x member => once.plain x member i

/-- A further jump back, at a node that none was taken at before. -/
theorem RetriedOnce.retry
    {base copy last : Nat} {owns plainAt : Nat → Prop}
    {events later : List Event}
    (once : RetriedOnce base last owns plainAt events)
    (retried : retriedNodes later = [copy])
    (range : base ≤ copy ∧ copy < last)
    (other : copy ∉ retriedNodes events)
    (plain : plainAt copy) :
    RetriedOnce base last owns plainAt (events ++ later) := by
  have split :
      retriedNodes (events ++ later) = retriedNodes events ++ [copy] := by
    rw [retriedNodes_append, retried]
  constructor
  · exact once.le
  · exact once.owned
  · rw [split]
    refine List.nodup_append.mpr ⟨once.nodup, List.nodup_singleton _, ?_⟩
    rintro x early y member rfl
    rw [List.mem_singleton] at member
    exact other (member ▸ early)
  · intro x member
    rw [split, List.mem_append, List.mem_singleton] at member
    rcases member with early | same
    · exact once.range x early
    · exact same ▸ range
  · intro x member
    rw [split, List.mem_append, List.mem_singleton] at member
    rcases member with early | same
    · exact once.plain x early
    · exact same ▸ plain

theorem RetriedOnce.quiet
    {base last : Nat} {owns plainAt : Nat → Prop} {events later : List Event}
    (once : RetriedOnce base last owns plainAt events)
    (none : retriedNodes later = []) :
    RetriedOnce base last owns plainAt (events ++ later) := by
  have same : retriedNodes (events ++ later) = retriedNodes events := by
    rw [retriedNodes_append, none, List.append_nil]
  constructor
  · exact once.le
  · exact once.owned
  · rw [same]
    exact once.nodup
  · rw [same]
    exact once.range
  · rw [same]
    exact once.plain

theorem finish_retriesOnce
    {base copy last : Nat} {front : Option Lead}
    {filtered : Fin assocArrayFanOut → Tree} {events later : List Event}
    {t : Tree}
    (collected : ∀ i, (filtered i).Collected)
    (le : base ≤ copy)
    (leadRange : ∀ lead, front = some lead →
      base ≤ lead.address ∧ lead.address < copy)
    (once : RetriedOnce (copy + 1) last (SlotsOwn filtered)
      (SlotsPlainAt filtered) events)
    (finished : finish .patched front copy filtered = some (t, later)) :
    RetriedOnce base last t.Owns (fun x => t.PlainAt x) (events ++ later) := by
  obtain ⟨p, done, shape, retried⟩ :=
    finish_retriedNodes (fun i => (collected i).counted)
      (fun i => (collected i).whole) finished
  have compressed := once.compressed done
  rcases shape with sole | ⟨lead, isLead, isNode⟩
  · obtain ⟨i, here, isMeta, _⟩ := Pass.soleShortcut_spec done.sound sole
    rw [← here]
    rcases retried with none | ⟨_, plain⟩
    · exact (compressed.slot (Nat.le_succ_of_le le) i).quiet none
    · -- A node that was retried holds no shortcut.
      have impossible := plain i
      rw [here, isMeta] at impossible
      cases impossible
  · have range :
        ∀ ahead, lead = some ahead →
          base ≤ ahead.address ∧ ahead.address < copy := by
      intro ahead isAhead
      rcases isLead with isNone | isFront
      · rw [isNone] at isAhead
        cases isAhead
      · exact leadRange ahead (isFront ▸ isAhead)
    rw [isNode]
    have node := compressed.node le range p.nr
    rcases retried with none | ⟨here, plain⟩
    · exact node.quiet none
    · refine node.retry here ⟨le, once.le⟩ ?_ ⟨fun _ => plain, fun i => ?_⟩
      · intro early
        have later := once.range copy early
        omega
      · exact Tree.plainAt_of_plain (plain i) copy

variable (iterator fails) in
/-- A collection jumps back at most once for each node it builds. -/
theorem collect_retriesOnce (old : Tree) :
    ∀ ledger : Ledger σ,
      OutcomeRetriesOnce ledger.next [] ledger Tree.Owns
        (fun t x => t.PlainAt x)
        (collect .patched iterator fails old ledger) := by
  induction old with
  | empty =>
      intro ledger
      exact
        ⟨[], (List.append_nil _).symm,
          retriedOnce_of_none (Nat.le_refl _) (fun _ owned => owned.elim) rfl⟩
  | leaf object =>
      intro ledger
      refine
        ⟨[.iterated object], rfl,
          retriedOnce_of_none (Nat.le_refl _) (fun x owned => ?_) rfl⟩
      split at owned <;> exact False.elim owned
  | dangling lead next =>
      intro ledger
      trivial
  | node lead address nr slots inductionHypothesis =>
      intro ledger
      have leCopy : ledger.next ≤ afterLead lead ledger.next := by
        cases lead with
        | none => exact Nat.le_refl _
        | some front => exact Nat.le_succ _
      have leadRange :
          ∀ front, duplicateLead lead ledger.next = some front →
            ledger.next ≤ front.address ∧
              front.address < afterLead lead ledger.next := by
        intro front isFront
        cases lead with
        | none => cases isFront
        | some ahead =>
            cases isFront
            exact ⟨Nat.le_refl _, Nat.lt_succ_self _⟩
      rw [collect]
      split
      · exact
          ⟨[], (List.append_nil _).symm,
            retriedOnce_of_none (Nat.le_refl _) (fun _ owned => owned.elim) rfl⟩
      · split
        · refine
            ⟨[], (List.append_nil _).symm,
              retriedOnce_of_none leCopy (fun x owned => ?_) rfl⟩
          cases lead with
          | none => exact False.elim owned
          | some ahead =>
              cases owned
              exact leadRange _ rfl
        · have vacant :
              RetriedOnce (afterLead lead ledger.next + 1)
                (afterLead lead ledger.next + 1)
                (SlotsOwn fun _ => .empty) (SlotsPlainAt fun _ => .empty)
                [] :=
            retriedOnce_of_none (Nat.le_refl _)
              (by rintro x ⟨_, ⟨⟩⟩) rfl
          have loop :
              OutcomeRetriesOnce (afterLead lead ledger.next + 1) []
                { ledger with next := afterLead lead ledger.next + 1 }
                SlotsOwn SlotsPlainAt _ :=
            collectSlots_retriesOnce inductionHypothesis
              (List.finRange assocArrayFanOut) vacant
          cases outcome :
              collectSlots
                (fun i => collect .patched iterator fails (slots i))
                (List.finRange assocArrayFanOut) (fun _ => .empty)
                { ledger with next := afterLead lead ledger.next + 1 } with
          | bug => trivial
          | done filtered after =>
              rw [outcome] at loop
              obtain ⟨later, traceEq, once⟩ := loop
              obtain ⟨_, _, _, steps⟩ := collectSlots_done outcome
              rw [finishNode]
              cases finished :
                  finish .patched (duplicateLead lead ledger.next)
                    (afterLead lead ledger.next) filtered with
              | none => trivial
              | some result =>
                  refine ⟨later ++ result.2, ?_, ?_⟩
                  · change after.trace ++ result.2 = _
                    rw [traceEq, List.append_assoc]
                  · have whole :=
                      finish_retriesOnce (fun i => collect_collected (steps i))
                        leCopy leadRange once finished
                    exact whole
          | enomem filtered after =>
              rw [outcome] at loop
              obtain ⟨later, traceEq, once⟩ := loop
              exact ⟨later, traceEq, once.node leCopy leadRange 0⟩

end Collect

/-! ## The call -/

section Call

variable {σ : Type} {iterator : Leaf → σ → Bool × σ} {fails : Nat → Bool}
  {heap : Heap Object} {array : AssocArray} {data : σ}

theorem Tree.plainAt_cell
    {cells : Nat → Option Object} {x : Nat} {content : AssocArrayNode}
    (cell : cells x = some (.node content)) :
    ∀ {t : Tree} {back : Ptr} {index : Nat},
      t.Represented cells back index → t.Owns x → t.PlainAt x →
        ∀ i, assocArrayPtrIsMeta (content.slots i) = false
  | .node lead address nr slots, back, index, represented, owned, plain => by
      obtain ⟨leadHeld, nodeHeld, children⟩ := represented
      rcases owned with same | ⟨front, isLead, same⟩ | ⟨i, inSlot⟩
      · subst same
        rw [nodeHeld] at cell
        cases cell
        exact plain.1 rfl
      · subst isLead
        subst same
        cases cell.symm.trans leadHeld
      · exact plainAt_cell cell (children i) inSlot (plain.2 i)
  | .dangling lead next, _, _, represented, owned, _ => by
      cases owned
      cases cell.symm.trans represented

/-- No node occurs twice among those a jump back was taken at, and such a node,
where it is part of the tree that was built, leads to leaves only. -/
def CompressedInTwo (heap : Heap Object) (final : Gc σ) : Prop :=
  (retriedNodes final.trace).Nodup ∧
    ∃ t, Built heap t final ∧
      ∀ node content, .retried node ∈ final.trace → t.Owns node →
        final.heap.cells node = some (.node content) →
          ∀ i, assocArrayPtrIsMeta (content.slots i) = false

theorem gcCall_compressedInTwo :
    CompressedInTwo heap (gcCall heap array data) := by
  refine ⟨List.nodup_nil, .empty, ?_, ?_⟩
  · constructor
    · rfl
    · trivial
    · trivial
    · exact fun _ owned => owned.elim
    · exact fun _ _ => rfl
    · exact fun _ member => by simp [gcCall] at member
  · intro node content retried
    simp [gcCall] at retried

theorem RetriedOnce.compressedInTwo
    {base last : Nat} {t : Tree} {final : Gc σ}
    (once : RetriedOnce base last t.Owns (fun x => t.PlainAt x) final.trace)
    (built : Built heap t final) :
    CompressedInTwo heap final := by
  refine ⟨once.nodup, t, built, ?_⟩
  intro node content retried owned cell
  exact
    Tree.plainAt_cell cell built.represented owned
      (once.plain node (mem_retriedNodes.mpr retried))

/-- A call ends, and unless a `BUG_ON` fails no node is compressed a third
time. -/
theorem gc_exits_compressedInTwo
    (iterator : Leaf → σ → Bool × σ) (fails : Nat → Bool) (data : σ)
    (valid : ValidArray heap array) :
    ∃ exit,
      GcExits .patched iterator fails heap array data exit ∧
        ((∃ check after, exit = .bug check after) ∨
          ∃ value final,
            exit = .returned value final ∧ CompressedInTwo heap final) := by
  rcases valid with isEmpty | ⟨old, wellFormed⟩
  · exact
      ⟨_, gc_of_empty .patched isEmpty,
        Or.inr ⟨_, _, rfl, gcCall_compressedInTwo⟩⟩
  cases refused : fails heap.next with
  | true =>
      exact
        ⟨_, gc_refused .patched iterator fails wellFormed data refused,
          Or.inr ⟨_, _, rfl, gcCall_compressedInTwo⟩⟩
  | false =>
      have refines :=
        gc_refines .patched iterator fails wellFormed data refused
      have once :=
        collect_retriesOnce iterator fails old (callLedger heap data)
      cases outcome :
          collect .patched iterator fails old (callLedger heap data) with
      | done t after =>
          rw [outcome] at refines once
          obtain ⟨last, final, run, _, stops, built, _, _, traceEq⟩ := refines
          obtain ⟨later, laterEq, once⟩ := once
          have sameTrace : [] ++ later = final.trace := by
            rw [traceEq, laterEq]
            rfl
          rw [sameTrace] at once
          exact
            ⟨_, ⟨last, run, stops⟩,
              Or.inr ⟨_, _, rfl, once.compressedInTwo built⟩⟩
      | enomem t after =>
          rw [outcome] at refines once
          obtain ⟨final, exits, built, _, _, traceEq⟩ := refines
          obtain ⟨later, laterEq, once⟩ := once
          have sameTrace : [] ++ later = final.trace := by
            rw [traceEq, laterEq]
            rfl
          rw [sameTrace] at once
          exact ⟨_, exits, Or.inr ⟨_, _, rfl, once.compressedInTwo built⟩⟩
      | bug =>
          rw [outcome] at refines
          obtain ⟨check, after, exits, _⟩ := refines
          exact ⟨_, exits, Or.inl ⟨check, after, rfl⟩⟩

/-- Every call ends. Unless a `BUG_ON` fails, the jump back to `retry_compress`
has at no point of the run been taken twice at one node, and where it was taken
every child was folded in. -/
theorem gc_retries_at_most_once
    (iterator : Leaf → σ → Bool × σ) (fails : Nat → Bool) (data : σ)
    (valid : ValidArray heap array) :
    ∃ exit,
      GcExits .patched iterator fails heap array data exit ∧
        ((∃ check after, exit = .bug check after) ∨
          ∃ value final,
            exit = .returned value final ∧ CompressedInTwo heap final ∧
              ∀ s,
                Reaches (gcStep .patched iterator fails)
                    (gcCall heap array data) s →
                  (retriedNodes s.trace).Nodup) := by
  obtain ⟨exit, exits, isBug | ⟨value, final, isReturn, compressed⟩⟩ :=
    gc_exits_compressedInTwo iterator fails data valid
  · exact ⟨exit, exits, Or.inl isBug⟩
  · refine ⟨exit, exits, Or.inr ⟨value, final, isReturn, compressed, ?_⟩⟩
    subst isReturn
    intro s run
    obtain ⟨last, onward, stops⟩ := gcExits_stopsFrom run exits
    have early : s.trace <+: final.trace := by
      rw [stops.2]
      exact onward.trace_prefix
    exact compressed.1.sublist (early.filterMap _).sublist

/-- Behind the shortcut the jump back is taken, once, and the call returns 0. -/
theorem gc_retries_at_most_once_retry :
    ∃ final,
      GcExits .patched rejectTwo (fun _ => false) retryHeap retryArray 0
          (.returned 0 final) ∧
        retriedNodes final.trace = [10] ∧
        CompressedInTwo retryHeap final ∧
        ∀ s,
          Reaches (gcStep .patched rejectTwo fun _ => false)
              (gcCall retryHeap retryArray 0) s →
            (retriedNodes s.trace).Nodup := by
  obtain ⟨_, after, _, final, retried, _, _, exits, _, traceEq⟩ :=
    retryArray_returns .patched
      (fun _ after => decide (retriedNodes after.trace = [10]))
      (by decide +kernel)
  refine ⟨final, exits, ?_, ?_⟩
  · rw [traceEq]
    exact of_decide_eq_true retried
  · obtain ⟨exit, otherExits, ⟨check, stopped, isBug⟩ |
      ⟨value, other, isReturn, compressed, once⟩⟩ :=
      gc_retries_at_most_once rejectTwo (fun _ => false) 0
        (Or.inr ⟨retryTree, retryArray_wellFormed⟩)
    · rw [isBug] at otherExits
      cases Halts.unique exits otherExits
    · rw [isReturn] at otherExits
      cases Halts.unique exits otherExits
      exact ⟨compressed, once⟩

end Call

end KernelStuff.AssocArrayGc
