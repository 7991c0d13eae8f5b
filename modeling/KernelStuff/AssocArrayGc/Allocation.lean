import KernelStuff.AssocArrayGc.Call

/-!
# Failing allocations

Allocation sites are visited in a fixed order, so the first failing one is
determined by the old tree.  The partial tree is closed under its own pointers
unless that site is the node behind a shortcut: the shortcut's duplicate still
has the `next_node` it was copied with.
-/

namespace KernelStuff.AssocArrayGc

open KernelStuff.Library

/-- What an allocation during the traversal is for. -/
inductive Site where
  | shortcut
  | node
  | nodeBehindShortcut
  deriving DecidableEq, Repr

def leadSites (lead : Option Lead) : List Site :=
  match lead with
  | none => [.node]
  | some _ => [.shortcut, .nodeBehindShortcut]

/-- The allocation sites of a tree in the order of the traversal. -/
def Tree.sites : Tree → List Site
  | .empty => []
  | .leaf _ => []
  | .node lead _ _ slots =>
      leadSites lead ++
        (List.finRange assocArrayFanOut).flatMap fun i => (slots i).sites
  | .dangling _ _ => []

/-- The first site whose allocation fails, when the first one would get the
address `base`. -/
def firstFailure (fails : Nat → Bool) : Nat → List Site → Option Site
  | _, [] => none
  | base, site :: rest =>
      if fails base then some site else firstFailure fails (base + 1) rest

theorem firstFailure_append (fails : Nat → Bool) :
    ∀ (base : Nat) (first second : List Site),
      firstFailure fails base (first ++ second) =
        (firstFailure fails base first).or
          (firstFailure fails (base + first.length) second)
  | base, [], second => rfl
  | base, site :: rest, second => by
      rw [List.cons_append, firstFailure, firstFailure, List.length_cons]
      split
      · rfl
      · rw [firstFailure_append fails (base + 1) rest second,
          Nat.add_right_comm, Nat.add_assoc]

theorem firstFailure_of_never :
    ∀ (base : Nat) (sites : List Site),
      firstFailure (fun _ => false) base sites = none
  | _, [] => rfl
  | base, _ :: rest => by
      rw [firstFailure, if_neg Bool.false_ne_true, firstFailure_of_never]

/-- A dangling shortcut of the tree leads to the object `x`. -/
def Tree.Escapes : Tree → Nat → Prop
  | .empty, _ => False
  | .leaf _, _ => False
  | .node _ _ _ slots, x => ∃ i, (slots i).Escapes x
  | .dangling _ nextNode, x => assocArrayPtrToMeta nextNode = some x

section Sites

variable {σ : Type} (variant : Variant) (iterator : Leaf → σ → Bool × σ)
  (fails : Nat → Bool)

/-- The outcome of a traversal whose allocation sites are `sites`: the first
failing one says whether what has been built is whole. -/
def FollowsSites {Result : Type} (fails : Nat → Bool) (base : Nat)
    (sites : List Site) (old : Nat → Prop) (whole : Result → Prop)
    (escapes : Result → Nat → Prop) : Outcome (Ledger σ) Result → Prop
  | .done _ after =>
      after.next = base + sites.length ∧ firstFailure fails base sites = none
  | .enomem result _ =>
      ∃ site,
        firstFailure fails base sites = some site ∧
          (site ≠ .nodeBehindShortcut → whole result) ∧
          (site = .nodeBehindShortcut → ∃ x, old x ∧ escapes result x)
  | .bug => True

variable {variant iterator fails} in
/-- Sites that did not fail may be put in front. -/
theorem FollowsSites.after
    {Result : Type} {base : Nat} {earlier sites : List Site} {old : Nat → Prop}
    {whole : Result → Prop} {escapes : Result → Nat → Prop}
    {outcome : Outcome (Ledger σ) Result}
    (follows : FollowsSites fails (base + earlier.length) sites old whole
      escapes outcome)
    (noFailure : firstFailure fails base earlier = none) :
    FollowsSites fails base (earlier ++ sites) old whole escapes outcome := by
  cases outcome with
  | bug => trivial
  | done result after =>
      obtain ⟨nextEq, laterNone⟩ := follows
      refine ⟨?_, ?_⟩
      · rw [nextEq, List.length_append, Nat.add_assoc]
      · rw [firstFailure_append, noFailure, Option.none_or, laterNone]
  | enomem result after =>
      obtain ⟨site, failure, facts⟩ := follows
      refine ⟨site, ?_, facts⟩
      rw [firstFailure_append, noFailure, Option.none_or, failure]

theorem collectSlots_followsSites
    {slots : Fin assocArrayFanOut → Tree}
    (child : ∀ (i : Fin assocArrayFanOut) (ledger : Ledger σ),
      FollowsSites fails ledger.next (slots i).sites (slots i).Owns Tree.Whole
        Tree.Escapes (collect variant iterator fails (slots i) ledger)) :
    ∀ (items : List (Fin assocArrayFanOut))
      (filtered : Fin assocArrayFanOut → Tree) (ledger : Ledger σ),
      (∀ i, (filtered i).Whole) →
        FollowsSites fails ledger.next
          (items.flatMap fun i => (slots i).sites)
          (fun x => ∃ i, (slots i).Owns x)
          (fun results => ∀ i, (results i).Whole)
          (fun results x => ∃ i, (results i).Escapes x)
          (collectSlots (fun i => collect variant iterator fails (slots i))
            items filtered ledger)
  | [], filtered, ledger, _ => ⟨rfl, rfl⟩
  | i :: rest, filtered, ledger, wholeSoFar => by
      have here := child i ledger
      rw [collectSlots, List.flatMap_cons]
      cases outcome : collect variant iterator fails (slots i) ledger with
      | bug => trivial
      | done t after =>
          rw [outcome] at here
          obtain ⟨nextEq, noFailure⟩ := here
          have wholeNow : ∀ j, (Function.update filtered i t j).Whole :=
            (Function.forall_update_iff filtered fun _ => Tree.Whole).mpr
              ⟨(collect_collected outcome).whole, fun j _ => wholeSoFar j⟩
          have onward :=
            collectSlots_followsSites child rest _ after wholeNow
          rw [nextEq] at onward
          exact onward.after noFailure
      | enomem t after =>
          rw [outcome] at here
          obtain ⟨site, failure, whole, escapes⟩ := here
          refine ⟨site, ?_, ?_, ?_⟩
          · rw [firstFailure_append, failure, Option.some_or]
          · intro elsewhere
            exact
              (Function.forall_update_iff filtered fun _ => Tree.Whole).mpr
                ⟨whole elsewhere, fun j _ => wholeSoFar j⟩
          · intro behind
            obtain ⟨x, owned, escapesHere⟩ := escapes behind
            refine ⟨x, ⟨i, owned⟩, i, ?_⟩
            rw [Function.update_self]
            exact escapesHere

/-- The first failing site decides how a collection ends, `BUG_ON`s apart. -/
theorem collect_followsSites (old : Tree) :
    ∀ (ledger : Ledger σ),
      FollowsSites fails ledger.next old.sites old.Owns Tree.Whole Tree.Escapes
        (collect variant iterator fails old ledger) := by
  induction old with
  | empty =>
      intro ledger
      exact ⟨rfl, rfl⟩
  | leaf object =>
      intro ledger
      exact ⟨rfl, rfl⟩
  | dangling lead next =>
      intro ledger
      trivial
  | node lead address nr slots inductionHypothesis =>
      intro ledger
      have loop :=
        collectSlots_followsSites variant iterator fails inductionHypothesis
          (List.finRange assocArrayFanOut) (fun _ => .empty)
          { ledger with next := afterLead lead ledger.next + 1 }
          (fun _ => trivial)
      have leadLength :
          afterLead lead ledger.next + 1 =
            ledger.next + (leadSites lead).length := by
        cases lead <;> rfl
      rw [collect, Tree.sites]
      split
      · next refused =>
          -- The shortcut itself.
          rw [Bool.and_eq_true] at refused
          obtain ⟨isBehind, refused⟩ := refused
          obtain ⟨front, isLead⟩ := Option.isSome_iff_exists.mp isBehind
          subst isLead
          refine ⟨.shortcut, ?_, fun _ => trivial, fun impossible => ?_⟩
          · rw [leadSites, List.cons_append, firstFailure, if_pos refused]
          · cases impossible
      next leadAllocated =>
        split
        · next refused =>
            cases lead with
            | none =>
                change fails ledger.next = true at refused
                refine ⟨.node, ?_, fun _ => trivial, fun impossible => ?_⟩
                · rw [leadSites, List.cons_append, firstFailure,
                    if_pos refused]
                · cases impossible
            | some front =>
                change fails (ledger.next + 1) = true at refused
                change ¬ fails ledger.next = true at leadAllocated
                refine
                  ⟨.nodeBehindShortcut, ?_, fun impossible => ?_,
                    fun _ => ⟨address, Or.inl rfl, rfl⟩⟩
                · rw [leadSites, List.cons_append, firstFailure,
                    if_neg leadAllocated, List.cons_append, firstFailure,
                    if_pos refused]
                · exact absurd rfl impossible
        next nodeAllocated =>
          have noFailure :
              firstFailure fails ledger.next (leadSites lead) = none := by
            cases lead with
            | none =>
                change ¬ fails ledger.next = true at nodeAllocated
                rw [leadSites, firstFailure, if_neg nodeAllocated]
                rfl
            | some front =>
                change ¬ fails (ledger.next + 1) = true at nodeAllocated
                change ¬ fails ledger.next = true at leadAllocated
                rw [leadSites, firstFailure, if_neg leadAllocated,
                  firstFailure, if_neg nodeAllocated]
                rfl
          cases outcome :
              collectSlots
                (fun i => collect variant iterator fails (slots i))
                (List.finRange assocArrayFanOut) (fun _ => .empty)
                { ledger with next := afterLead lead ledger.next + 1 } with
          | bug => trivial
          | done filtered after =>
              rw [outcome] at loop
              simp only [leadLength] at loop
              obtain ⟨nextEq, laterNone⟩ := loop.after noFailure
              rw [finishNode]
              cases finish variant (duplicateLead lead ledger.next)
                  (afterLead lead ledger.next) filtered with
              | none => trivial
              | some result => exact ⟨nextEq, laterNone⟩
          | enomem filtered after =>
              rw [outcome] at loop
              simp only [leadLength] at loop
              obtain ⟨site, failure, wholeness, escapes⟩ := loop.after noFailure
              refine ⟨site, failure, wholeness, ?_⟩
              intro behind
              obtain ⟨x, owned, escapesHere⟩ := escapes behind
              exact ⟨x, Or.inr (Or.inr owned), escapesHere⟩

/-- Without failing allocations a collection ends or stops at a `BUG_ON`. -/
theorem collect_ne_enomem
    {old t : Tree} {ledger after : Ledger σ} :
    collect variant iterator (fun _ => false) old ledger ≠ .enomem t after := by
  intro outcome
  have follows :=
    collect_followsSites variant iterator (fun _ => false) old ledger
  rw [outcome] at follows
  obtain ⟨site, failure, _⟩ := follows
  rw [firstFailure_of_never] at failure
  cases failure

end Sites

/-! ## Reachable objects -/

/-- A slot or the `next_node` of the object `a` points to `b`. -/
def PointsTo (cells : Nat → Option Object) (a b : Nat) : Prop :=
  match cells a with
  | some (.node content) =>
      ∃ i, assocArrayPtrToMeta (content.slots i) = some b
  | some (.shortcut content) => assocArrayPtrToMeta content.nextNode = some b
  | _ => False

/-- The object `b` is reached from the pointer `root`. -/
def ReachableFrom (cells : Nat → Option Object) (root : Ptr) (b : Nat) :
    Prop :=
  ∃ a, assocArrayPtrToMeta root = some a ∧
    Relation.ReflTransGen (PointsTo cells) a b

theorem pointsTo_node
    {cells : Nat → Option Object} {a b : Nat} {content : AssocArrayNode}
    (cell : cells a = some (.node content)) :
    PointsTo cells a b ↔
      ∃ i, assocArrayPtrToMeta (content.slots i) = some b := by
  rw [PointsTo, cell]

theorem pointsTo_shortcut
    {cells : Nat → Option Object} {a b : Nat} {content : AssocArrayShortcut}
    (cell : cells a = some (.shortcut content)) :
    PointsTo cells a b ↔ assocArrayPtrToMeta content.nextNode = some b := by
  rw [PointsTo, cell]

/-- A meta pointer to a represented tree leads to an object it owns. -/
theorem Tree.owns_of_ptr
    {t : Tree} {b : Nat} (leads : assocArrayPtrToMeta t.ptr = some b) :
    t.Owns b := by
  rcases t with _ | object | ⟨_ | front, address, nr, slots⟩ | ⟨lead, next⟩
  · cases leads
  · cases leads
  · cases leads
    exact Or.inl rfl
  · cases leads
    exact Or.inr (Or.inl ⟨front, rfl, rfl⟩)
  · cases leads
    rfl

/-- The objects of a whole tree point to objects of the tree. -/
theorem Tree.Represented.pointsTo
    {cells : Nat → Option Object} :
    ∀ {t : Tree} {back : Ptr} {index a b : Nat},
      t.Represented cells back index → t.Whole → t.Owns a →
        PointsTo cells a b → t.Owns b
  | .node lead address nr slots, back, index, a, b, represented, whole, owned,
      points => by
      obtain ⟨leadHeld, cell, children⟩ := represented
      rcases owned with same | ⟨front, isLead, same⟩ | ⟨i, inSlot⟩
      · subst same
        obtain ⟨i, leads⟩ := (pointsTo_node cell).mp points
        exact Or.inr (Or.inr ⟨i, Tree.owns_of_ptr leads⟩)
      · subst isLead
        subst same
        have leads := (pointsTo_shortcut leadHeld).mp points
        cases leads
        exact Or.inl rfl
      · exact Or.inr
          (Or.inr ⟨i, Represented.pointsTo (children i) (whole i) inSlot points⟩)
  | .dangling lead next, _, _, _, _, _, whole, _, _ => False.elim whole

theorem Tree.Represented.owns_of_reachable
    {cells : Nat → Option Object} {t : Tree} {back : Ptr} {index b : Nat}
    (represented : t.Represented cells back index)
    (whole : t.Whole)
    (reachable : ReachableFrom cells t.ptr b) :
    t.Owns b := by
  obtain ⟨a, leads, path⟩ := reachable
  induction path with
  | refl => exact Tree.owns_of_ptr leads
  | tail _ points inductionHypothesis =>
      exact represented.pointsTo whole inductionHypothesis points

/-- What a dangling shortcut leads to is reached. -/
theorem Tree.Represented.reachable_of_escapes
    {cells : Nat → Option Object} :
    ∀ {t : Tree} {back : Ptr} {index b : Nat},
      t.Represented cells back index → t.Escapes b →
        ReachableFrom cells t.ptr b
  | .node lead address nr slots, back, index, b, represented, escapes => by
      obtain ⟨leadHeld, cell, children⟩ := represented
      obtain ⟨i, inSlot⟩ := escapes
      obtain ⟨a, leads, path⟩ :=
        Represented.reachable_of_escapes (children i) inSlot
      have fromNode :
          Relation.ReflTransGen (PointsTo cells) address b :=
        Relation.ReflTransGen.head ((pointsTo_node cell).mpr ⟨i, leads⟩) path
      cases lead with
      | none => exact ⟨address, rfl, fromNode⟩
      | some front =>
          exact
            ⟨front.address, rfl,
              Relation.ReflTransGen.head ((pointsTo_shortcut leadHeld).mpr rfl)
                fromNode⟩
  | .dangling lead next, back, index, b, represented, escapes =>
      ⟨lead.address, rfl,
        Relation.ReflTransGen.single
          ((pointsTo_shortcut represented).mpr escapes)⟩

/-! ## The tree handed over -/

section HandedOver

variable {σ : Type}

/-- Every object reached from `new_root` was allocated during the call and has
not been freed, and none belongs to the old tree. -/
def SelfContained (heap : Heap Object) (old : Tree) (final : Gc σ) : Prop :=
  ∀ b, ReachableFrom final.heap.cells final.newRoot b →
    heap.next ≤ b ∧ (∃ content, final.heap.cells b = some content) ∧
      ¬ old.Owns b

theorem Built.selfContained
    {heap : Heap Object} {array : AssocArray} {old t : Tree} {final : Gc σ}
    (wellFormed : WellFormed heap array old)
    (built : Built heap t final) (whole : t.Whole) :
    SelfContained heap old final := by
  intro b reachable
  rw [built.newRoot_eq] at reachable
  have owned := built.represented.owns_of_reachable whole reachable
  have young := built.fresh b owned
  refine ⟨Nat.le_of_lt young, built.represented.live owned, ?_⟩
  intro isOld
  obtain ⟨content, live⟩ := wellFormed.represented.live isOld
  have below := Heap.lt_next_of_cells live
  omega

theorem Built.not_selfContained
    {heap : Heap Object} {old t : Tree} {final : Gc σ} {x : Nat}
    (built : Built heap t final) (isOld : old.Owns x) (escapes : t.Escapes x) :
    ¬ SelfContained heap old final := by
  intro contained
  apply (contained x _).2.2 isOld
  rw [built.newRoot_eq]
  exact built.represented.reachable_of_escapes escapes

/-- At every return after the edit script was allocated, the tree under
`new_root` consists of live objects of this call exactly if the first allocation
that fails, if any, is not the one of a node behind a shortcut. -/
theorem gc_selfContained_iff
    {iterator : Leaf → σ → Bool × σ} {fails : Nat → Bool}
    {heap : Heap Object} {array : AssocArray} {old : Tree} {data : σ}
    {value : Int} {final : Gc σ}
    (wellFormed : WellFormed heap array old)
    (allocated : fails heap.next = false)
    (exits : GcExits .patched iterator fails heap array data
      (.returned value final)) :
    SelfContained heap old final ↔
      firstFailure fails (heap.next + 1) old.sites ≠
        some .nodeBehindShortcut := by
  have refines :=
    gc_refines .patched iterator fails wellFormed data allocated
  have follows :=
    collect_followsSites .patched iterator fails old (callLedger heap data)
  change FollowsSites fails (heap.next + 1) _ _ _ _ _ at follows
  cases outcome :
      collect .patched iterator fails old (callLedger heap data) with
  | bug =>
      rw [outcome] at refines
      obtain ⟨check, after, other, _⟩ := refines
      cases Halts.unique exits other
  | done t after =>
      rw [outcome] at refines follows
      obtain ⟨last, other, run, _, stops, built, _⟩ := refines
      cases Halts.unique exits ⟨last, run, stops⟩
      obtain ⟨_, noFailure⟩ := follows
      rw [noFailure]
      exact
        ⟨fun _ => by simp,
          fun _ => built.selfContained wellFormed
            (collect_collected outcome).whole⟩
  | enomem t after =>
      rw [outcome] at refines follows
      obtain ⟨other, otherExits, built, _⟩ := refines
      cases Halts.unique exits otherExits
      obtain ⟨site, failure, whole, escapes⟩ := follows
      rw [failure]
      constructor
      · intro contained behind
        obtain ⟨x, isOld, escapesHere⟩ := escapes (Option.some.inj behind)
        exact built.not_selfContained isOld escapesHere contained
      · intro elsewhere
        exact built.selfContained wellFormed
          (whole fun behind => elsewhere (congrArg some behind))

/-- What is handed over when a node below a node gets no memory stands on its own:
the shortcut further up leads to a new node already. -/
theorem gc_selfContained_retry :
    ∃ final,
      GcExits .patched rejectTwo (fun address => address == 12) retryHeap
          retryArray 0 (.returned (-ENOMEM) final) ∧
        SelfContained retryHeap retryTree final := by
  obtain ⟨final, exits⟩ := retryArray_gives_up
  exact
    ⟨final, exits,
      (gc_selfContained_iff retryArray_wellFormed rfl exits).mpr
        (by decide +kernel)⟩

/-- A shortcut over two levels in front of a node with two leaves. -/
def behindTree : Tree :=
  .node (some ⟨1, exampleKey⟩) 0 0 pairSlots

def behindHeap : Heap Object :=
  Heap.ofList
    [.node ⟨.shortcut 1, 0, fun i => (pairSlots i).ptr, 0⟩,
      .shortcut ⟨.null, 0, .node 0, exampleKey⟩]

def behindArray : AssocArray :=
  ⟨.shortcut 1, 2⟩

theorem behindArray_wellFormed :
    WellFormed behindHeap behindArray behindTree where
  root_meta := rfl
  root_ptr := rfl
  whole := pairArray_wellFormed.whole
  represented :=
    ⟨rfl, rfl, fun i => Tree.represented_of_plain (pairSlots_plain i) _ _ _⟩

/-- The edit script gets address 2 and the duplicate of the shortcut address 3.
When the node's allocation fails, `new_root` is handed over while it leads to
the old node 0. -/
theorem gc_dangles_behind_shortcut :
    WellFormed behindHeap behindArray behindTree ∧
      ∃ final,
        GcExits .patched alternate (fun address => address == 4) behindHeap
            behindArray 0 (.returned (-ENOMEM) final) ∧
          ¬ SelfContained behindHeap behindTree final := by
  have refines :=
    gc_refines .patched alternate (fun address => address == 4)
      behindArray_wellFormed 0 rfl
  have outcome :
      collect .patched alternate (fun address => address == 4) behindTree
          (callLedger behindHeap 0) =
        .enomem (.dangling ⟨3, exampleKey⟩ (.node 0))
          { callLedger behindHeap 0 with next := 4 } := rfl
  rw [outcome] at refines
  obtain ⟨final, exits, built, _⟩ := refines
  exact
    ⟨behindArray_wellFormed, final, exits,
      built.not_selfContained (Or.inl rfl) rfl⟩

end HandedOver

end KernelStuff.AssocArrayGc
