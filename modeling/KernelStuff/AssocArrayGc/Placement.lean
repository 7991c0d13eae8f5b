import KernelStuff.AssocArrayGc.Bookkeeping
import KernelStuff.AssocArrayGc.Stopping

/-!
# Where a radix walk looks for a key

A walk reads one nibble of the key at each level.  Moving leaves never matters
to it, and neither does taking out a node that only leads on to a shortcut.
Taking out a shortcut does: the node behind it changes its level, which is
harmless only if the node has no meta pointers.
-/

namespace KernelStuff.AssocArrayGc

open KernelStuff.Library

/-- Nibble `n` of `index_key`, lowest bits first. -/
def SkipKey.nibble (key : SkipKey) (n : Nat) :
    Option (Fin assocArrayFanOut) :=
  (key.indexKey[n / 16]?).map fun (word : BitVec 64) =>
    Fin.ofNat assocArrayFanOut
      (word >>> (assocArrayLevelStep * (n % 16))).toNat

/-- The level a shortcut skips to. -/
def SkipKey.level (key : SkipKey) : Nat :=
  key.skipToLevel / assocArrayLevelStep

section Placement

variable (key : Leaf → List (Fin assocArrayFanOut))

/-- The level of a node hung in at `level`, behind a shortcut or not. -/
def nodeLevel (lead : Option Lead) (level : Nat) : Nat :=
  match lead with
  | none => level
  | some front => front.key.level

/-- The shortcut agrees with the keys of the leaves below it. -/
def LeadAgrees (lead : Option Lead) (objects : List Leaf) : Prop :=
  match lead with
  | none => True
  | some front =>
      ∀ object ∈ objects, ∀ n, n < front.key.level →
        (key object)[n]? = front.key.nibble n

/-- Below the place at `level` every meta pointer in slot `i` of a node leads to
leaves with nibble `i` at the node's level, and every shortcut agrees with the
leaves below it. -/
def Tree.Placed : Nat → Tree → Prop
  | _, .empty => True
  | _, .leaf _ => True
  | level, .node lead _ _ slots =>
      LeadAgrees key lead
          ((List.finRange assocArrayFanOut).flatMap
            fun i => (slots i).leaves) ∧
        ∀ i,
          ((slots i).isMeta = true →
            ∀ object ∈ (slots i).leaves,
              (key object)[nodeLevel lead level]? = some i) ∧
          (slots i).Placed (nodeLevel lead level + 1)
  | _, .dangling _ _ => True

variable {key}

/-- The condition at the slots of a node at level `d`. -/
def SlotsPlaced (key : Leaf → List (Fin assocArrayFanOut)) (d : Nat)
    (slots : Fin assocArrayFanOut → Tree) : Prop :=
  ∀ i,
    ((slots i).isMeta = true →
      ∀ object ∈ (slots i).leaves, (key object)[d]? = some i) ∧
    (slots i).Placed key (d + 1)

theorem Tree.placed_of_plain
    {t : Tree} (plain : t.isMeta = false) (level : Nat) :
    t.Placed key level := by
  rcases Tree.cases_of_not_isMeta plain with isEmpty | ⟨object, isLeaf⟩
  · rw [isEmpty]
    trivial
  · rw [isLeaf]
    trivial

theorem slotsPlaced_of_plain
    {slots : Fin assocArrayFanOut → Tree} (plain : Plain slots) (d : Nat) :
    SlotsPlaced key d slots := by
  intro i
  refine ⟨fun isNode => ?_, Tree.placed_of_plain (plain i) _⟩
  rw [plain i] at isNode
  cases isNode

/-- A node behind a shortcut may hang anywhere. -/
theorem Tree.Placed.rehang
    {front : Lead} {address nr level other : Nat}
    {slots : Fin assocArrayFanOut → Tree}
    (placed : (Tree.node (some front) address nr slots).Placed key level) :
    (Tree.node (some front) address nr slots).Placed key other :=
  placed

theorem LeadAgrees.mono
    {lead : Option Lead} {objects fewer : List Leaf}
    (agrees : LeadAgrees key lead objects)
    (subset : ∀ object ∈ fewer, object ∈ objects) :
    LeadAgrees key lead fewer := by
  cases lead with
  | none => trivial
  | some front => exact fun object member => agrees object (subset object member)

theorem mem_node_leaves
    {slots : Fin assocArrayFanOut → Tree} {object : Leaf} :
    (object ∈ (List.finRange assocArrayFanOut).flatMap
        fun i => (slots i).leaves) ↔ ∃ i, object ∈ (slots i).leaves := by
  rw [List.mem_flatMap]
  exact
    ⟨fun ⟨i, _, member⟩ => ⟨i, member⟩,
      fun ⟨i, member⟩ => ⟨i, List.mem_finRange i, member⟩⟩

end Placement

/-! ## Excised shortcuts -/

/-- Every shortcut excised in front of a node was one in front of a node with
leaves only. -/
def PlainExcisions (trace : List Event) : Prop :=
  ∀ slots, Event.excisedShortcut slots ∈ trace →
    ∀ i, assocArrayPtrIsMeta (slots i) = false

/-- Somewhere behind a shortcut there is an overfull node. -/
def Tree.Buries : Tree → Prop
  | .empty => False
  | .leaf _ => False
  | .node lead address nr slots =>
      (lead.isSome = true ∧ (Tree.node lead address nr slots).Overfull) ∨
        ∃ i, (slots i).Buries
  | .dangling _ _ => False

instance : ∀ t : Tree, Decidable t.Buries
  | .empty => inferInstanceAs (Decidable False)
  | .leaf _ => inferInstanceAs (Decidable False)
  | .node lead address nr slots =>
      have : ∀ i, Decidable (slots i).Buries := fun i =>
        instDecidableBuries (slots i)
      inferInstanceAs
        (Decidable
          ((lead.isSome = true ∧ (Tree.node lead address nr slots).Overfull) ∨
            ∃ i, (slots i).Buries))
  | .dangling _ _ => inferInstanceAs (Decidable False)

theorem plainExcisions_append (first second : List Event) :
    PlainExcisions (first ++ second) ↔
      PlainExcisions first ∧ PlainExcisions second := by
  constructor
  · intro plain
    exact
      ⟨fun slots member => plain slots (List.mem_append_left _ member),
        fun slots member => plain slots (List.mem_append_right _ member)⟩
  · rintro ⟨left, right⟩ slots member
    rcases List.mem_append.mp member with early | late
    · exact left slots early
    · exact right slots late

section Node

variable {σ : Type} {iterator : Leaf → σ → Bool × σ} {fails : Nat → Bool}
  {key : Leaf → List (Fin assocArrayFanOut)}

theorem compress_plainExcisions
    {variant : Variant} {address : Nat}
    {slots : Fin assocArrayFanOut → Tree} {p : Pass} {retries : List Event}
    (run : compress variant address slots = some (p, retries)) :
    PlainExcisions retries := by
  rcases compress_cases run with ⟨_, _, none⟩ | ⟨_, _, _, _, once⟩
  · rw [none]
    intro slots member
    cases member
  · rw [once]
    intro slots member
    rw [List.mem_singleton] at member
    cases member

/-- With the patch a node with at most as many leaves as slots keeps a meta
pointer exactly if it is overfull. -/
theorem compressed_plain_iff
    {address : Nat} {slots : Fin assocArrayFanOut → Tree} {p : Pass}
    {retries : List Event}
    (counted : ∀ i, (slots i).Counted)
    (whole : ∀ i, (slots i).Whole)
    (run : compress .patched address slots = some (p, retries))
    (few : p.nr ≤ assocArrayFanOut) :
    Plain p.slots ↔
      ¬ (slotLeafCount slots = assocArrayFanOut ∧
        Crowded 0 slots (List.finRange assocArrayFanOut)) := by
  obtain ⟨done, noMore⟩ := compress_spec counted whole run
  have plainIff : Plain p.slots ↔ ¬ p.retained = true := by
    rw [done.retained_iff]
    constructor
    · rintro plain ⟨i, isNode⟩
      rw [plain i] at isNode
      cases isNode
    · intro plain i
      exact Bool.eq_false_iff.mpr fun isNode => plain ⟨i, isNode⟩
  rw [plainIff]
  apply not_congr
  have nrEq := done.nr_eq
  by_cases full : p.nr = assocArrayFanOut
  · rcases compress_cases run with
      ⟨once, _, _⟩ | ⟨first, firstRun, again, _, _⟩
    · have total : slotLeafCount slots = assocArrayFanOut := by omega
      have retains :=
        compressPass_retained_iff counted whole (Nat.le_of_eq total) once
      rw [total, Nat.sub_self] at retains
      rw [retains]
      exact ⟨fun crowded => ⟨total, crowded⟩, fun both => both.2⟩
    · obtain ⟨_, _, less⟩ := Variant.retries_nr_lt again
      rw [(Compressed.of_pass counted whole firstRun).nr_eq] at less
      omega
  · have less : p.nr < assocArrayFanOut := by omega
    rw [Variant.retries, Bool.and_eq_false_iff, decide_eq_false_iff_not] at noMore
    rcases noMore with notRetained | notFew
    · rw [notRetained]
      constructor
      · intro impossible
        cases impossible
      · rintro ⟨total, _⟩
        omega
    · exact absurd less notFew

theorem finish_plainExcisions_iff
    {lead : Option Lead} {address : Nat}
    {slots : Fin assocArrayFanOut → Tree} {t : Tree} {events : List Event}
    (collected : ∀ i, (slots i).Collected)
    (run : finish .patched lead address slots = some (t, events)) :
    PlainExcisions events ↔
      ¬ (lead.isSome = true ∧ slotLeafCount slots = assocArrayFanOut ∧
        Crowded 0 slots (List.finRange assocArrayFanOut)) := by
  have counted := fun i => (collected i).counted
  have whole := fun i => (collected i).whole
  obtain ⟨p, retries, compressed, done, _, shape⟩ :=
    finish_cases counted whole run
  have retriesPlain := compress_plainExcisions compressed
  have nrEq := done.nr_eq
  rcases shape with ⟨sole, eventsEq⟩ | ⟨_, few, _, eventsEq⟩ |
    ⟨_, many, _, eventsEq⟩
  · have large := (soleShortcut_large collected done sole).1
    rw [eventsEq]
    refine ⟨fun _ overfull => ?_, fun _ => retriesPlain⟩
    have total := overfull.2.1
    omega
  · have plainIff := compressed_plain_iff counted whole compressed few
    rw [eventsEq, plainExcisions_append]
    cases lead with
    | none =>
        constructor
        · rintro _ ⟨impossible, _⟩
          cases impossible
        · refine fun _ => ⟨retriesPlain, ?_⟩
          intro removed member
          cases member
    | some front =>
        rw [Option.isSome_some]
        simp only [true_and]
        rw [← plainIff]
        constructor
        · rintro ⟨_, plain⟩ i
          exact plain _ (List.mem_singleton_self _) i
        · intro plain
          refine ⟨retriesPlain, ?_⟩
          intro removed member
          rw [Option.map_some, Option.toList_some, List.mem_singleton,
            Event.excisedShortcut.injEq] at member
          rw [member]
          exact plain
  · rw [eventsEq]
    refine ⟨fun _ overfull => ?_, fun _ => retriesPlain⟩
    have total := overfull.2.1
    omega

theorem SlotsPlaced.compressed
    {slots : Fin assocArrayFanOut → Tree} {p : Pass} {d : Nat}
    (placed : SlotsPlaced key d slots) (done : Compressed slots p) :
    SlotsPlaced key d p.slots := by
  intro i
  cases isMeta : (p.slots i).isMeta with
  | false =>
      refine ⟨fun isNode => ?_, Tree.placed_of_plain isMeta _⟩
      cases isNode
  | true =>
      have same := (done.nodes i isMeta).1
      rw [same] at isMeta ⊢
      exact ⟨fun _ => (placed i).1 isMeta, (placed i).2⟩

/-- The passes permute the leaves of a node. -/
theorem Compressed.mem_leaves_iff
    {slots : Fin assocArrayFanOut → Tree} {p : Pass} {object : Leaf}
    (done : Compressed slots p) :
    (∃ i, object ∈ (p.slots i).leaves) ↔ ∃ i, object ∈ (slots i).leaves := by
  have same :
      (↑(Tree.node none 0 0 p.slots).leaves : Multiset Leaf) =
        ↑(Tree.node none 0 0 slots).leaves := by
    rw [Tree.leaves_node_eq_bag, Tree.leaves_node_eq_bag, done.bag_eq]
  rw [← mem_node_leaves, ← mem_node_leaves]
  exact (Multiset.coe_eq_coe.mp same).mem_iff

theorem finish_placed
    {lead : Option Lead} {address level : Nat}
    {slots : Fin assocArrayFanOut → Tree} {t : Tree} {events : List Event}
    (collected : ∀ i, (slots i).Collected)
    (run : finish .patched lead address slots = some (t, events))
    (agrees : LeadAgrees key lead
      ((List.finRange assocArrayFanOut).flatMap fun i => (slots i).leaves))
    (placed : SlotsPlaced key (nodeLevel lead level) slots)
    (shallow :
      ¬ (lead.isSome = true ∧ slotLeafCount slots = assocArrayFanOut ∧
        Crowded 0 slots (List.finRange assocArrayFanOut))) :
    t.Placed key level := by
  have counted := fun i => (collected i).counted
  have whole := fun i => (collected i).whole
  obtain ⟨p, retries, compressed, done, _, shape⟩ :=
    finish_cases counted whole run
  rcases shape with ⟨sole, _⟩ | ⟨_, few, shape, _⟩ | ⟨_, _, shape, _⟩
  · -- The shortcut below skips to its own level wherever it hangs.
    obtain ⟨_, i, inner, child, nr, children, here, content⟩ :=
      soleShortcut_large collected done sole
    have below := (placed i).2
    rw [here, content] at below
    rw [content]
    exact below.rehang
  · rw [shape]
    refine ⟨trivial, ?_⟩
    cases lead with
    | none => exact placed.compressed done
    | some front =>
        -- The node moves up, so it must not have a meta pointer left.
        apply slotsPlaced_of_plain
        apply (compressed_plain_iff counted whole compressed few).mpr
        exact fun overfull => shallow ⟨rfl, overfull⟩
  · rw [shape]
    refine ⟨agrees.mono ?_, placed.compressed done⟩
    intro object member
    exact mem_node_leaves.mpr
      (done.mem_leaves_iff.mp (mem_node_leaves.mp member))

theorem nodeLevel_duplicateLead (lead : Option Lead) (next level : Nat) :
    nodeLevel (duplicateLead lead next) level = nodeLevel lead level := by
  cases lead <;> rfl

theorem LeadAgrees.duplicate
    {lead : Option Lead} {objects : List Leaf} (next : Nat)
    (agrees : LeadAgrees key lead objects) :
    LeadAgrees key (duplicateLead lead next) objects := by
  cases lead with
  | none => trivial
  | some front => exact agrees

/-- What `finish` looks at in the collected slots is what `Buries` looks at in
the survivors. -/
theorem overfull_congr
    {lead : Option Lead} {next : Nat}
    {filtered survive : Fin assocArrayFanOut → Tree}
    (agree : ∀ i, (filtered i).Agrees (survive i)) :
    ((duplicateLead lead next).isSome = true ∧
        slotLeafCount filtered = assocArrayFanOut ∧
        Crowded 0 filtered (List.finRange assocArrayFanOut)) ↔
      lead.isSome = true ∧ slotLeafCount survive = assocArrayFanOut ∧
        Crowded 0 survive (List.finRange assocArrayFanOut) := by
  rw [slotLeafCount_congr agree, Crowded.congr_of_agrees agree]
  cases lead <;> rfl

/-! ## The recursion -/

/-- The excisions of a collection are plain exactly if no overfull node is
buried behind a shortcut. -/
theorem collect_plainExcisions_iff :
    ∀ {old t : Tree} {ledger after : Ledger σ},
      collect .patched iterator fails old ledger = .done t after →
        (PlainExcisions after.trace ↔
          PlainExcisions ledger.trace ∧
            ¬ (survivors iterator old ledger.iteratorData).1.Buries)
  | .empty, t, ledger, after, run => by
      cases run
      exact ⟨fun plain => ⟨plain, fun impossible => impossible⟩, And.left⟩
  | .leaf object, t, ledger, after, run => by
      rw [collect, Outcome.done.injEq] at run
      rw [← run.2, plainExcisions_append, survivors]
      have nothing :
          PlainExcisions [.iterated object] ∧
            ¬ Tree.Buries
              (if (iterator object ledger.iteratorData).1 then .leaf object
                else .empty) := by
        refine ⟨fun slots member => ?_, ?_⟩
        · rw [List.mem_singleton] at member
          cases member
        · split <;> exact fun impossible => impossible
      exact
        ⟨fun plain => ⟨plain.1, nothing.2⟩, fun plain => ⟨plain.1, nothing.1⟩⟩
  | .dangling lead next, t, ledger, after, run => by
      cases run
  | .node lead address nr slots, t, ledger, after, run => by
      obtain ⟨filtered, ledgers, events, _, _, first, steps, finished, last⟩ :=
        collect_node_done run
      have agree := collect_slots_agree first steps
      have below :=
        forall_of_steps (fun k => PlainExcisions (ledgers k).trace) _
          fun i => collect_plainExcisions_iff (steps i)
      have here :=
        finish_plainExcisions_iff (fun i => collect_collected (steps i))
          finished
      rw [overfull_congr agree] at here
      rw [first] at below
      rw [last, plainExcisions_append, survivors_node, Tree.Buries, here,
        not_or, not_exists]
      have slotsEq :
          ∀ i : Fin assocArrayFanOut,
            (survivorSlots iterator slots ledger.iteratorData).1 i =
              (survivors iterator (slots i) (ledgers i.val).iteratorData).1 := by
        intro i
        have atSlot := survivors_slot (i := i) fun j _ => ⟨_, steps j⟩
        rw [first] at atSlot
        exact atSlot
      have childrenIff :
          (∀ i, ¬ (survivors iterator (slots i)
              (ledgers i.val).iteratorData).1.Buries) ↔
            ∀ i, ¬ ((survivorSlots iterator slots
              ledger.iteratorData).1 i).Buries :=
        forall_congr' fun i => by rw [slotsEq i]
      rw [childrenIff] at below
      constructor
      · rintro ⟨slotsPlain, nodePlain⟩
        obtain ⟨before, children⟩ := below.mp slotsPlain
        exact ⟨before, nodePlain, children⟩
      · rintro ⟨before, nodePlain, children⟩
        exact ⟨below.mpr ⟨before, children⟩, nodePlain⟩

/-- A collection without buried overfull nodes keeps every leaf where a walk
looks for it. -/
theorem collect_placed :
    ∀ {old t : Tree} {ledger after : Ledger σ} {level : Nat},
      collect .patched iterator fails old ledger = .done t after →
        old.Placed key level →
          ¬ (survivors iterator old ledger.iteratorData).1.Buries →
            t.Placed key level
  | .empty, t, ledger, after, level, run, _, _ => by
      cases run
      trivial
  | .leaf object, t, ledger, after, level, run, _, _ => by
      exact Tree.placed_of_plain (collect_isMeta run) level
  | .dangling lead next, t, ledger, after, level, run, _, _ => by
      cases run
  | .node lead address nr slots, t, ledger, after, level, run, placed,
      shallow => by
      obtain ⟨filtered, ledgers, events, _, _, first, steps, finished, _⟩ :=
        collect_node_done run
      have agree := collect_slots_agree first steps
      rw [survivors_node, Tree.Buries, not_or, not_exists] at shallow
      obtain ⟨hereShallow, belowShallow⟩ := shallow
      obtain ⟨agrees, slotsPlaced⟩ := placed
      apply finish_placed (fun i => collect_collected (steps i)) finished
      · apply (agrees.duplicate ledger.next).mono
        intro object member
        obtain ⟨i, member⟩ := mem_node_leaves.mp member
        exact mem_node_leaves.mpr ⟨i, collect_leaves_subset (steps i) member⟩
      · rw [nodeLevel_duplicateLead]
        intro i
        refine ⟨fun isNode object member => ?_, ?_⟩
        · rw [collect_isMeta (steps i)] at isNode
          exact
            (slotsPlaced i).1 isNode object
              (collect_leaves_subset (steps i) member)
        · apply collect_placed (steps i) (slotsPlaced i).2
          have atSlot := survivors_slot (i := i) fun j _ => ⟨_, steps j⟩
          rw [first] at atSlot
          rw [← atSlot]
          exact belowShallow i
      · rw [overfull_congr agree]
        exact hereShallow

/-! ## The call -/

/-- The published array is well placed. -/
def PlacedArray (key : Leaf → List (Fin assocArrayFanOut)) (final : Gc σ) :
    Prop :=
  ∃ t, WellFormed final.heap final.array t ∧ t.Placed key 0

/-- On every well-placed array a call that returns 0 leaves the array well
placed, taking shortcuts away only from nodes with leaves only, exactly if no
overfull node of survivors is buried behind a shortcut. -/
theorem gc_placed_iff
    {heap : Heap Object} {array : AssocArray} {old : Tree} {data : σ}
    {final : Gc σ}
    (wellFormed : WellFormed heap array old)
    (placed : old.Placed key 0)
    (exits : GcExits .patched iterator fails heap array data
      (.returned 0 final)) :
    (PlacedArray key final ∧ PlainExcisions final.trace) ↔
      ¬ (survivors iterator old data).1.Buries := by
  obtain ⟨t, after, collected, built, arrayEq, _, traceEq⟩ :=
    gc_returned_zero .patched iterator fails wellFormed exits
  have plainIff := collect_plainExcisions_iff collected
  change _ ↔ _ ∧ ¬ (survivors iterator old data).1.Buries at plainIff
  rw [← traceEq] at plainIff
  constructor
  · rintro ⟨_, plain⟩
    exact (plainIff.mp plain).2
  · intro shallow
    refine ⟨⟨t, ?_, collect_placed collected placed shallow⟩, ?_⟩
    · apply built.wellFormed arrayEq
      · rw [collect_isMeta collected]
        exact wellFormed.root_meta
      · exact (collect_collected collected).whole
    · apply plainIff.mpr
      refine ⟨?_, shallow⟩
      intro slots member
      cases member

end Node

/-! ## Keys -/

instance (key : Leaf → List (Fin assocArrayFanOut)) (lead : Option Lead)
    (objects : List Leaf) : Decidable (LeadAgrees key lead objects) :=
  match lead with
  | none => inferInstanceAs (Decidable True)
  | some front =>
      inferInstanceAs
        (Decidable
          (∀ object ∈ objects, ∀ n, n < front.key.level →
            (key object)[n]? = front.key.nibble n))

instance decidablePlaced (key : Leaf → List (Fin assocArrayFanOut)) :
    ∀ (level : Nat) (t : Tree), Decidable (t.Placed key level)
  | _, .empty => inferInstanceAs (Decidable True)
  | _, .leaf _ => inferInstanceAs (Decidable True)
  | level, .node lead _ _ slots =>
      have : ∀ i, Decidable
          ((slots i).Placed key (nodeLevel lead level + 1)) := fun i =>
        decidablePlaced key (nodeLevel lead level + 1) (slots i)
      inferInstanceAs
        (Decidable
          (LeadAgrees key lead
              ((List.finRange assocArrayFanOut).flatMap
                fun i => (slots i).leaves) ∧
            ∀ i,
              ((slots i).isMeta = true →
                ∀ object ∈ (slots i).leaves,
                  (key object)[nodeLevel lead level]? = some i) ∧
              (slots i).Placed key (nodeLevel lead level + 1)))
  | _, .dangling _ _ => inferInstanceAs (Decidable True)

/-- The keys of the leaves of `retryTree`. -/
def retryKey (object : Leaf) : List (Fin assocArrayFanOut) :=
  if object = exampleLeaf 15 then [0, 0, 14]
  else if object = exampleLeaf 16 then [0, 0, 15]
  else if object = exampleLeaf 17 then [1]
  else if object = exampleLeaf 18 then [2]
  else if object = exampleLeaf 19 ∨ object = exampleLeaf 20 then [3]
  else [0, 0, 13]

/-- The shortcut is excised in front of a node that is compressed twice, and every
leaf stays where its key leads to. -/
theorem gc_placed_retry :
    ∃ final,
      GcExits .patched rejectTwo (fun _ => false) retryHeap retryArray 0
          (.returned 0 final) ∧
        (∃ slots, .excisedShortcut slots ∈ final.trace) ∧
        PlacedArray retryKey final ∧ PlainExcisions final.trace := by
  obtain ⟨_, after, _, final, excised, _, _, exits, _, traceEq⟩ :=
    retryArray_returns .patched
      (fun _ after =>
        after.trace.any fun event =>
          match event with
          | .excisedShortcut _ => true
          | .iterated _ => false
          | .retried _ => false)
      (by decide +kernel)
  refine
    ⟨final, exits, ?_,
      (gc_placed_iff retryArray_wellFormed (by decide +kernel) exits).mpr
        (by decide +kernel)⟩
  obtain ⟨event, member, isExcision⟩ := List.any_eq_true.mp excised
  rw [traceEq]
  cases event with
  | excisedShortcut slots => exact ⟨slots, member⟩
  | iterated object => cases isExcision
  | retried node => cases isExcision

/-! ## A lost key -/

theorem oneWord_allocated : [0#64].length = keylen 8 :=
  rfl

/-- A shortcut over two levels in front of the node with sixteen survivors, and
a leaf beside it. -/
def buriedRootSlots (i : Fin assocArrayFanOut) : Tree :=
  if i = 0 then .node (some ⟨4, ⟨8, [0#64], oneWord_allocated⟩⟩) 1 17 jamSlots
  else if i = 1 then .leaf (exampleLeaf 17)
  else .empty

def buriedTree : Tree :=
  .node none 0 18 buriedRootSlots

def buriedHeap : Heap Object :=
  Heap.ofList
    [.node ⟨.null, 0, fun i => (buriedRootSlots i).ptr, 18⟩,
      .node ⟨.shortcut 4, 0, fun i => (jamSlots i).ptr, 17⟩,
      .node ⟨.node 1, 14, fun i => (lowSlots i).ptr, 2⟩,
      .node ⟨.node 1, 15, fun i => (deadSlots i).ptr, 1⟩,
      .shortcut ⟨.node 0, 0, .node 1, ⟨8, [0#64], oneWord_allocated⟩⟩]

def buriedArray : AssocArray :=
  ⟨.node 0, 18⟩

/-- All keys begin with the two nibbles of the shortcut. -/
def buriedKey (object : Leaf) : List (Fin assocArrayFanOut) :=
  if object = exampleLeaf 16 then [0, 0, 15] else [0, 0, 14]

theorem buriedArray_wellFormed :
    WellFormed buriedHeap buriedArray buriedTree where
  root_meta := rfl
  root_ptr := rfl
  whole := by
    intro i
    rw [buriedRootSlots]
    split
    · exact jamSlots_whole
    · split <;> trivial
  represented := by
    refine ⟨trivial, rfl, ?_⟩
    intro i
    rw [buriedRootSlots]
    split
    · next here =>
        subst here
        exact ⟨rfl, rfl, jamSlots_represented rfl rfl⟩
    · split <;> trivial

/-- What the call makes of the array is not well placed. -/
def Outcome.Misplaced {State : Type} :
    Outcome State Tree → Prop
  | .done t _ => ¬ t.Placed buriedKey 0
  | .enomem _ _ => False
  | .bug => False

instance {State : Type} :
    ∀ outcome : Outcome State Tree, Decidable outcome.Misplaced
  | .done t _ => inferInstanceAs (Decidable (¬ t.Placed buriedKey 0))
  | .enomem _ _ => inferInstanceAs (Decidable False)
  | .bug => inferInstanceAs (Decidable False)

/-- The shortcut is excised in front of a node that keeps a child: what was
looked up at level 2 now hangs at level 1. -/
theorem gc_misplaces :
    WellFormed buriedHeap buriedArray buriedTree ∧
      buriedTree.Placed buriedKey 0 ∧
      ∃ final,
        GcExits .patched rejectDead (fun _ => false) buriedHeap buriedArray ()
            (.returned 0 final) ∧
          ¬ PlacedArray buriedKey final := by
  refine ⟨buriedArray_wellFormed, by decide +kernel, ?_⟩
  have misplaced :
      (collect .patched rejectDead (fun _ => false) buriedTree
        (callLedger buriedHeap ())).Misplaced := by
    decide +kernel
  cases outcome :
      collect .patched rejectDead (fun _ => false) buriedTree
        (callLedger buriedHeap ()) with
  | enomem t after =>
      rw [outcome] at misplaced
      exact False.elim misplaced
  | bug =>
      rw [outcome] at misplaced
      exact False.elim misplaced
  | done t after =>
      rw [outcome] at misplaced
      obtain ⟨final, exits, published⟩ :=
        gc_collected_returns .patched rejectDead _ buriedArray_wellFormed rfl
          outcome
      refine ⟨final, exits, ?_⟩
      rintro ⟨other, wellFormed, placed⟩
      rw [wellFormed.unique published] at placed
      exact misplaced placed

end KernelStuff.AssocArrayGc
