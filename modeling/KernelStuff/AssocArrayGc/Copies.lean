import KernelStuff.AssocArrayGc.Rebuilding
import KernelStuff.AssocArrayGc.Collected

/-!
# Collecting a copy

The array the reproducer builds is a copy of the one in the dump: it has the same
shape, leaves and counts, and its nodes lie elsewhere.  The collector looks at
addresses only to follow them, so it does the same to both.  Here this is shown
for the collector as a function on trees, one part of it after the other.
-/

namespace KernelStuff.AssocArrayGc

open KernelStuff.Library

/-- Two trees without shortcuts of the same shape, with the same leaves and
counts. -/
inductive Tree.Copies : Tree → Tree → Prop
  | empty : Copies .empty .empty
  | leaf (object : Leaf) : Copies (.leaf object) (.leaf object)
  | node (address other nr : Nat)
      {slots children : Fin assocArrayFanOut → Tree}
      (alike : ∀ i, (slots i).Copies (children i)) :
      Copies (.node none address nr slots) (.node none other nr children)

namespace Tree

theorem Copies.of_isomorphic :
    ∀ {t u : Tree}, t.Leadless → t.Isomorphic u → t.Copies u
  | .empty, _, _, same => by
      rw [show _ = Tree.empty from same]
      exact .empty
  | .leaf object, _, _, same => by
      rw [show _ = Tree.leaf object from same]
      exact .leaf object
  | .node _ address nr slots, _, leadless, same => by
      obtain ⟨other, children, rfl, alike⟩ := same
      obtain ⟨rfl, plain⟩ := leadless
      exact .node address other nr fun i => .of_isomorphic (plain i) (alike i)
  | .dangling _ _, _, leadless, _ => False.elim leadless

theorem Copies.leadless {t u : Tree} (copies : t.Copies u) : t.Leadless := by
  induction copies with
  | empty => trivial
  | leaf object => trivial
  | node address other nr alike inductionHypothesis =>
      exact ⟨rfl, inductionHypothesis⟩

theorem Copies.isomorphic {t u : Tree} (copies : t.Copies u) :
    t.Isomorphic u := by
  induction copies with
  | empty => rfl
  | leaf object => rfl
  | node address other nr alike inductionHypothesis =>
      exact ⟨other, _, rfl, inductionHypothesis⟩

theorem Copies.null_iff {t u : Tree} (copies : t.Copies u) :
    t.ptr = .null ↔ u.ptr = .null := by
  cases copies with
  | empty => rfl
  | leaf object => rfl
  | node address other nr alike => simp [Tree.ptr]

theorem Copies.isLeaf_eq {t u : Tree} (copies : t.Copies u) :
    assocArrayPtrIsLeaf t.ptr = assocArrayPtrIsLeaf u.ptr := by
  cases copies with
  | empty => rfl
  | leaf object => rfl
  | node address other nr alike => rfl

theorem Copies.not_isShortcut {t u : Tree} (copies : t.Copies u) :
    (assocArrayPtrIsMeta t.ptr && assocArrayPtrIsShortcut t.ptr) = false ∧
      (assocArrayPtrIsMeta u.ptr && assocArrayPtrIsShortcut u.ptr) = false := by
  cases copies with
  | empty => exact ⟨rfl, rfl⟩
  | leaf object => exact ⟨rfl, rfl⟩
  | node address other nr alike => exact ⟨rfl, rfl⟩

end Tree

/-! ## One compress pass -/

/-- Two passes over copies that stand at the same point. -/
structure Pass.Copies (p q : Pass) : Prop where
  slots : ∀ i, (p.slots i).Copies (q.slots i)
  nr : p.nr = q.nr
  nrFree : p.nrFree = q.nrFree
  nextSlot : p.nextSlot = q.nextSlot
  retained : p.retained = q.retained

namespace Pass

theorem start_copies {slots children : Fin assocArrayFanOut → Tree}
    (alike : ∀ i, (slots i).Copies (children i)) :
    (start slots).Copies (start children) where
  slots := alike
  nr := by simp only [start, (alike _).isLeaf_eq, ne_eq, (alike _).null_iff]
  nrFree := by simp only [start, (alike _).null_iff]
  nextSlot := rfl
  retained := rfl

theorem copies_update {slots children : Fin assocArrayFanOut → Tree} {t u : Tree}
    (alike : ∀ i, (slots i).Copies (children i)) (slot : Fin assocArrayFanOut)
    (copies : t.Copies u) (i : Fin assocArrayFanOut) :
    (Function.update slots slot t i).Copies (Function.update children slot u i) := by
  by_cases same : i = slot
  · subst same
    rw [Function.update_self, Function.update_self]
    exact copies
  · rw [Function.update_of_ne same, Function.update_of_ne same]
    exact alike i

theorem seekFree_copies {slots children : Fin assocArrayFanOut → Tree}
    (alike : ∀ i, (slots i).Copies (children i)) (nextSlot : Nat) :
    seekFree (fun i => (slots i).ptr) nextSlot
      = seekFree (fun i => (children i).ptr) nextSlot := by
  simp only [seekFree, (alike _).null_iff]

theorem moveLeaf_copies {p q : Pass} (alike : p.Copies q) {t u : Tree}
    (copies : t.Copies u) :
    Option.Rel Pass.Copies (p.moveLeaf t) (q.moveLeaf u) := by
  cases copies with
  | empty => exact .some alike
  | node address other nr inside => exact .none
  | leaf object =>
      rw [moveLeaf, moveLeaf, seekFree_copies alike.slots, alike.nextSlot]
      cases seekFree (fun i => (q.slots i).ptr) q.nextSlot with
      | none => exact .none
      | some free =>
          exact .some
            { alike with
              slots := copies_update alike.slots free (.leaf object)
              nrFree := congrArg (· - 1) alike.nrFree
              nextSlot := rfl }

theorem openSlot_copies {p q : Pass} (alike : p.Copies q)
    (slot : Fin assocArrayFanOut) :
    (p.openSlot slot).Copies (q.openSlot slot) :=
  { alike with
    slots := copies_update alike.slots slot .empty
    nrFree := congrArg (· + 1) alike.nrFree
    nextSlot := by simp only [openSlot, alike.nextSlot] }

theorem foldSlot_copies {p q : Pass} (alike : p.Copies q)
    (slot : Fin assocArrayFanOut) :
    Option.Rel Pass.Copies (p.foldSlot slot) (q.foldSlot slot) := by
  have here := alike.slots slot
  rw [foldSlot, foldSlot]
  generalize p.slots slot = t, q.slots slot = u at here
  cases here with
  | empty => exact .some alike
  | leaf object => exact .some alike
  | @node address other nr slots children inside =>
      have counted : ({ p with nr := p.nr + nr } : Pass).Copies
          { q with nr := q.nr + nr } :=
        { alike with nr := congrArg (· + nr) alike.nr }
      simp only [Option.isSome_none, Bool.false_eq_true, if_false]
      by_cases fits : nr ≤ p.nrFree + 1
      · rw [if_pos fits, if_pos (alike.nrFree ▸ fits)]
        exact foldlM_rel (fun source other i related =>
          moveLeaf_copies related (inside i)) _ (openSlot_copies counted slot)
      · rw [if_neg fits, if_neg (alike.nrFree ▸ fits)]
        exact .some { counted with retained := rfl }

end Pass

theorem compressPass_copies {slots children : Fin assocArrayFanOut → Tree}
    (alike : ∀ i, (slots i).Copies (children i)) :
    Option.Rel Pass.Copies (compressPass slots) (compressPass children) :=
  foldlM_rel (fun _ _ slot related => Pass.foldSlot_copies related slot) _
    (Pass.start_copies alike)

/-! ## A whole node -/

/-- Results whose trees are copies; the events name addresses. -/
def ResultCopies {Result : Type} (alike : Result → Result → Prop)
    (first second : Result × List Event) : Prop :=
  alike first.1 second.1

theorem compress_copies (variant : Variant) (address other : Nat)
    {slots children : Fin assocArrayFanOut → Tree}
    (alike : ∀ i, (slots i).Copies (children i)) :
    Option.Rel (ResultCopies Pass.Copies) (compress variant address slots)
      (compress variant other children) := by
  have first := compressPass_copies alike
  rw [compress, compress]
  generalize compressPass slots = p, compressPass children = q at first
  cases first with
  | none => exact .none
  | @some p q copies =>
      have jumps : variant.retries p.retained p.nr
          = variant.retries q.retained q.nr := by
        rw [copies.retained, copies.nr]
      simp only [Option.bind_some, jumps]
      cases variant.retries q.retained q.nr with
      | false => exact .some copies
      | true =>
          have second := compressPass_copies copies.slots
          simp only [if_true]
          generalize compressPass p.slots = p', compressPass q.slots = q' at second
          cases second with
          | none => exact .none
          | some again => exact .some again

theorem soleShortcut_eq_none {p : Pass}
    (plain : ∀ i, (assocArrayPtrIsMeta (p.slots i).ptr &&
      assocArrayPtrIsShortcut (p.slots i).ptr) = false) :
    p.soleShortcut = none := by
  rw [Pass.soleShortcut]
  split
  · simp [plain]
  · rfl

theorem finish_copies (variant : Variant) (address other : Nat)
    {slots children : Fin assocArrayFanOut → Tree}
    (alike : ∀ i, (slots i).Copies (children i)) :
    Option.Rel (ResultCopies Tree.Copies) (finish variant none address slots)
      (finish variant none other children) := by
  have compressed := compress_copies variant address other alike
  rw [finish, finish]
  generalize compress variant address slots = first,
    compress variant other children = second at compressed
  cases compressed with
  | none => exact .none
  | @some first second copies =>
      obtain ⟨p, retries⟩ := first
      obtain ⟨q, others⟩ := second
      have copies : p.Copies q := copies
      have noneHere := soleShortcut_eq_none (p := p)
        fun i => (copies.slots i).not_isShortcut.1
      have noneThere := soleShortcut_eq_none (p := q)
        fun i => (copies.slots i).not_isShortcut.2
      have same := Tree.Copies.node address other p.nr copies.slots
      refine .some ?_
      simp only [ResultCopies, exciseTree, noneHere, noneThere, ← copies.nr]
      split
      · exact same
      · exact same

/-! ## The recursion -/

section Collecting

variable {σ : Type}

/-- Both runs have handed out the same number of addresses and asked the iterator
the same. -/
structure Ledger.Copies (base other : Nat) (first second : Ledger σ) : Prop where
  iteratorData : first.iteratorData = second.iteratorData
  next : ∃ k, first.next = base + k ∧ second.next = other + k

/-- Two runs end alike. -/
inductive Outcome.Copies {State Result : Type} (alike : Result → Result → Prop)
    (related : State → State → Prop) :
    Outcome State Result → Outcome State Result → Prop
  | done {result image : Result} {after imageAfter : State}
      (copies : alike result image) (states : related after imageAfter) :
      Copies alike related (.done result after) (.done image imageAfter)
  | enomem {result image : Result} {after imageAfter : State}
      (copies : alike result image) (states : related after imageAfter) :
      Copies alike related (.enomem result after) (.enomem image imageAfter)
  | bug : Copies alike related .bug .bug

theorem collectSlots_copies {State : Type} {related : State → State → Prop}
    {visit image : Fin assocArrayFanOut → State → Outcome State Tree}
    (each : ∀ i state other, related state other →
      (visit i state).Copies Tree.Copies related (image i other)) :
    ∀ (items : List (Fin assocArrayFanOut))
      {slots children : Fin assocArrayFanOut → Tree} {state other : State},
      (∀ i, (slots i).Copies (children i)) → related state other →
        (collectSlots visit items slots state).Copies
          (fun slots children => ∀ i, (slots i).Copies (children i)) related
          (collectSlots image items children other)
  | [], _, _, _, _, alike, states => .done alike states
  | i :: rest, slots, children, state, other, alike, states => by
      have first := each i state other states
      rw [collectSlots, collectSlots]
      generalize visit i state = here, image i other = there at first
      cases first with
      | done copies states =>
          exact collectSlots_copies each rest
            (Pass.copies_update alike i copies) states
      | enomem copies states =>
          exact .enomem (Pass.copies_update alike i copies) states
      | bug => exact .bug

variable (variant : Variant) (iterator : Leaf → σ → Bool × σ)
  {fails others : Nat → Bool} {base other : Nat}

theorem finishNode_copies (address copy : Nat)
    {first second : Outcome (Ledger σ) (Fin assocArrayFanOut → Tree)}
    (collected : first.Copies
      (fun slots children => ∀ i, (slots i).Copies (children i))
      (Ledger.Copies base other) second) :
    (finishNode variant none address first).Copies Tree.Copies
      (Ledger.Copies base other) (finishNode variant none copy second) := by
  cases collected with
  | bug => exact .bug
  | enomem alike states => exact .enomem (.node address copy 0 alike) states
  | @done slots children after imageAfter alike states =>
      have finished := finish_copies variant address copy alike
      rw [finishNode, finishNode]
      generalize finish variant none address slots = here,
        finish variant none copy children = there at finished
      cases finished with
      | none => exact .bug
      | some copies => exact .done copies ⟨states.iteratorData, states.next⟩

/-- A node without a shortcut in front of it. -/
theorem collect_node_none (address nr : Nat) (slots : Fin assocArrayFanOut → Tree)
    (ledger : Ledger σ) :
    collect variant iterator fails (.node none address nr slots) ledger =
      if fails ledger.next then .enomem .empty ledger
      else
        finishNode variant none ledger.next
          (collectSlots (fun i => collect variant iterator fails (slots i))
            (List.finRange assocArrayFanOut) (fun _ => .empty)
            { ledger with next := ledger.next + 1 }) := by
  rw [collect]
  rfl

/-- The collector does the same to a copy, if the same allocations fail. -/
theorem collect_copies
    (refused : ∀ k, fails (base + k) = others (other + k)) {t u : Tree}
    (copies : t.Copies u) :
    ∀ {ledger image : Ledger σ}, ledger.Copies base other image →
      (collect variant iterator fails t ledger).Copies Tree.Copies
        (Ledger.Copies base other) (collect variant iterator others u image) := by
  induction copies with
  | empty => exact fun states => .done .empty states
  | leaf object =>
      intro ledger image states
      rw [collect, collect, states.iteratorData]
      refine .done ?_ ⟨rfl, states.next⟩
      cases (iterator object image.iteratorData).1 with
      | false => exact .empty
      | true => exact .leaf object
  | node address otherAddress nr alike inductionHypothesis =>
      intro ledger image states
      obtain ⟨k, here, there⟩ := states.next
      have refusedNow : fails ledger.next = others image.next := by
        rw [here, there]
        exact refused k
      rw [collect_node_none, collect_node_none, refusedNow]
      by_cases failed : others image.next = true
      · rw [if_pos failed, if_pos failed]
        exact .enomem .empty ⟨states.iteratorData, states.next⟩
      · rw [if_neg failed, if_neg failed]
        have states : Ledger.Copies base other
            { ledger with next := ledger.next + 1 }
            { image with next := image.next + 1 } :=
          ⟨states.iteratorData, k + 1, congrArg (· + 1) here,
            congrArg (· + 1) there⟩
        have collected := collectSlots_copies
          (fun i _ _ => inductionHypothesis i) (List.finRange assocArrayFanOut)
          (fun _ => Tree.Copies.empty) states
        exact finishNode_copies variant ledger.next image.next collected

end Collecting

end KernelStuff.AssocArrayGc
