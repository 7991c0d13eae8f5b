import Mathlib.Algebra.Order.BigOperators.Group.Finset
import Mathlib.Algebra.Order.Group.Multiset
import KernelStuff.AssocArrayGc.Collector

/-!
# What one compress pass does

`Visited p q slots` collects everything a pass over `slots` can do to the node
under compression.  It holds of one iteration and composes, so every later fact
about a pass is read off one relation.
-/

namespace KernelStuff.AssocArrayGc

open KernelStuff.Library

/-- The leaves below a node's slots. -/
def bag (slots : Fin assocArrayFanOut → Tree) : Multiset Leaf :=
  ∑ i, (↑(slots i).leaves : Multiset Leaf)

def slotLeafCount (slots : Fin assocArrayFanOut → Tree) : Nat :=
  ∑ i, (slots i).leafCount

def emptyCount (slots : Fin assocArrayFanOut → Tree) : Nat :=
  ∑ i, if (slots i).ptr = .null then 1 else 0

/-- The leaves below a meta pointer; a leaf in the slot itself does not count. -/
def Tree.metaLeafCount (t : Tree) : Nat :=
  if t.isMeta then t.leafCount else 0

/-- Only leaves and empty slots. -/
def Plain (slots : Fin assocArrayFanOut → Tree) : Prop :=
  ∀ i, (slots i).isMeta = false

/-- A node without a shortcut in front of it that holds leaves only. -/
def Tree.Foldable : Tree → Prop
  | .node none _ _ slots => Plain slots
  | _ => False

/-! ## Slot measures -/

theorem card_bag (slots : Fin assocArrayFanOut → Tree) :
    (bag slots).card = slotLeafCount slots := by
  simp only [bag, slotLeafCount, Tree.leafCount, Multiset.card_sum,
    Multiset.coe_card]

theorem Tree.leaves_node_eq_bag
    (lead : Option Lead) (address nr : Nat)
    (slots : Fin assocArrayFanOut → Tree) :
    (↑(Tree.node lead address nr slots).leaves : Multiset Leaf) =
      bag slots := by
  rw [Tree.leaves, bag, Fin.sum_univ_def]
  induction List.finRange assocArrayFanOut with
  | nil => rfl
  | cons head tail inductionHypothesis =>
      rw [List.flatMap_cons, List.map_cons, List.sum_cons,
        ← inductionHypothesis, Multiset.coe_add]

theorem bag_update
    (slots : Fin assocArrayFanOut → Tree) (i : Fin assocArrayFanOut)
    (t : Tree) :
    bag (Function.update slots i t) + ↑(slots i).leaves =
      bag slots + ↑t.leaves :=
  sum_update_exchange (fun t : Tree => (↑t.leaves : Multiset Leaf)) slots i t

theorem emptyCount_update
    (slots : Fin assocArrayFanOut → Tree) (i : Fin assocArrayFanOut)
    (t : Tree) :
    emptyCount (Function.update slots i t) +
        (if (slots i).ptr = .null then 1 else 0) =
      emptyCount slots + (if t.ptr = .null then 1 else 0) :=
  sum_update_exchange (fun t : Tree => if t.ptr = .null then 1 else 0) slots i t

theorem Tree.leafCount_empty : Tree.empty.leafCount = 0 := rfl

theorem Tree.leafCount_leaf (object : Leaf) :
    (Tree.leaf object).leafCount = 1 := rfl

theorem Tree.metaLeafCount_of_plain {t : Tree} (plain : t.isMeta = false) :
    t.metaLeafCount = 0 := by
  simp [Tree.metaLeafCount, plain]

theorem Tree.metaLeafCount_of_meta {t : Tree} (isNode : t.isMeta = true) :
    t.metaLeafCount = t.leafCount := by
  simp [Tree.metaLeafCount, isNode]

/-- A node that counts its leaves records the leaves its slots hold. -/
theorem Tree.Counted.nr_eq_slotLeafCount
    {lead : Option Lead} {address nr : Nat}
    {slots : Fin assocArrayFanOut → Tree}
    (counted : (Tree.node lead address nr slots).Counted) :
    nr = slotLeafCount slots :=
  counted.nr_eq

theorem Tree.leafCount_node_eq
    (lead : Option Lead) (address nr : Nat)
    (slots : Fin assocArrayFanOut → Tree) :
    (Tree.node lead address nr slots).leafCount = slotLeafCount slots :=
  Tree.leafCount_node lead address nr slots

/-- The occupied slot `i` is not free. -/
theorem emptyCount_lt
    {slots : Fin assocArrayFanOut → Tree} {i : Fin assocArrayFanOut}
    (occupied : slots i ≠ .empty) :
    emptyCount slots < assocArrayFanOut := by
  have occupiedPtr : (slots i).ptr ≠ .null :=
    fun null => occupied ((Tree.ptr_eq_null_iff _).mp null)
  have bound :
      emptyCount slots <
        ∑ _j : Fin assocArrayFanOut, 1 := by
    apply Finset.sum_lt_sum
    · intro j _
      split <;> omega
    · exact ⟨i, Finset.mem_univ i, by simp [occupiedPtr]⟩
  simpa using bound

/-- If every slot but `i` may be free and all of them are counted, they are. -/
theorem empty_of_emptyCount
    {slots : Fin assocArrayFanOut → Tree} {i j : Fin assocArrayFanOut}
    (occupied : slots i ≠ .empty)
    (count : assocArrayFanOut ≤ emptyCount slots + 1)
    (different : j ≠ i) :
    slots j = .empty := by
  by_contra alsoOccupied
  have opened :=
    emptyCount_update slots j .empty
  have stillOccupied :
      Function.update slots j Tree.empty i ≠ .empty := by
    rw [Function.update_of_ne (Ne.symm different)]
    exact occupied
  have bound := emptyCount_lt stillOccupied
  have occupiedPtr : (slots j).ptr ≠ .null :=
    fun null => alsoOccupied ((Tree.ptr_eq_null_iff _).mp null)
  rw [if_neg occupiedPtr, Tree.ptr_empty, if_pos rfl] at opened
  omega

/-! ## Sound passes -/

/-- The counters describe the slots: `nrFree` counts the empty ones, and every
slot before `nextSlot` is occupied. -/
structure Pass.Sound (p : Pass) : Prop where
  nrFree_eq : p.nrFree = emptyCount p.slots
  dense : ∀ i : Fin assocArrayFanOut, i.val < p.nextSlot → p.slots i ≠ .empty
  counted : ∀ i, (p.slots i).Counted
  whole : ∀ i, (p.slots i).Whole

theorem Pass.start_sound
    {slots : Fin assocArrayFanOut → Tree}
    (counted : ∀ i, (slots i).Counted)
    (whole : ∀ i, (slots i).Whole) :
    (Pass.start slots).Sound where
  nrFree_eq := by
    simp only [Pass.start, emptyCount, countP_finRange_eq_sum,
      decide_eq_true_eq]
  dense := fun _ before => absurd before (Nat.not_lt_zero _)
  counted := counted
  whole := whole

theorem Pass.start_nr (slots : Fin assocArrayFanOut → Tree) :
    (Pass.start slots).nr + ∑ i, (slots i).metaLeafCount =
      slotLeafCount slots := by
  simp only [Pass.start, countP_finRange_eq_sum, slotLeafCount,
    ← Finset.sum_add_distrib]
  apply Finset.sum_congr rfl
  intro i _
  cases isMeta : (slots i).isMeta with
  | false =>
      rw [Tree.metaLeafCount_of_plain isMeta]
      rcases Tree.cases_of_not_isMeta isMeta with isEmpty | ⟨object, isLeaf⟩
      · simp [isEmpty, Tree.ptr, Tree.leafCount_empty]
      · simp [isLeaf, Tree.ptr, Tree.leafCount_leaf]
  | true =>
      rw [Tree.metaLeafCount_of_meta isMeta]
      have notLeaf : assocArrayPtrIsLeaf (slots i).ptr = false := by
        simp only [assocArrayPtrIsLeaf, Bool.not_eq_false']
        exact isMeta
      simp [notLeaf]

/-- The scan finds a free slot, and it is the first one at or after the start. -/
theorem seekFree_spec
    {slots : Fin assocArrayFanOut → Ptr} {nextSlot : Nat}
    {free : Fin assocArrayFanOut}
    (found : seekFree slots nextSlot = some free) :
    slots free = .null ∧ nextSlot ≤ free.val ∧
      ∀ i : Fin assocArrayFanOut,
        nextSlot ≤ i.val → i < free → slots i ≠ .null := by
  have passes := List.find?_some found
  simp only [Bool.and_eq_true, decide_eq_true_eq] at passes
  refine ⟨passes.2, passes.1, ?_⟩
  intro i after before null
  rw [seekFree, List.find?_eq_some_iff_getElem] at found
  obtain ⟨_, position, bound, atPosition, earlier⟩ := found
  have positionEq : position = free.val := by
    rw [← atPosition, List.getElem_finRange]
    rfl
  have rejected := earlier i.val (by omega)
  rw [List.getElem_finRange] at rejected
  simp [after, null] at rejected

theorem seekFree_isSome
    {slots : Fin assocArrayFanOut → Ptr} {nextSlot : Nat}
    {i : Fin assocArrayFanOut}
    (after : nextSlot ≤ i.val) (null : slots i = .null) :
    ∃ free, seekFree slots nextSlot = some free := by
  apply Option.isSome_iff_exists.mp
  rw [seekFree, List.find?_isSome]
  exact ⟨i, List.mem_finRange i, by simp [after, null]⟩

/-! ## Moving the leaves of a folded child -/

/-- `q` is `p` after `moved` has been put into free slots. -/
structure Moves (p q : Pass) (moved : Multiset Leaf) : Prop where
  sound : q.Sound
  bag_eq : bag q.slots = bag p.slots + moved
  nrFree_eq : q.nrFree + moved.card = p.nrFree
  nr_eq : q.nr = p.nr
  retained_eq : q.retained = p.retained
  kept : ∀ i, p.slots i ≠ .empty → q.slots i = p.slots i
  filled : ∀ i, p.slots i = .empty → (q.slots i).isMeta = false

theorem Moves.refl {p : Pass} (sound : p.Sound) : Moves p p 0 where
  sound := sound
  bag_eq := (add_zero _).symm
  nrFree_eq := rfl
  nr_eq := rfl
  retained_eq := rfl
  kept := fun _ _ => rfl
  filled := fun i isEmpty => by rw [isEmpty, Tree.isMeta_empty]

theorem Moves.trans {p q r : Pass} {first second : Multiset Leaf}
    (left : Moves p q first) (right : Moves q r second) :
    Moves p r (first + second) where
  sound := right.sound
  bag_eq := by rw [right.bag_eq, left.bag_eq, add_assoc]
  nrFree_eq := by
    have leftFree := left.nrFree_eq
    have rightFree := right.nrFree_eq
    rw [Multiset.card_add]
    omega
  nr_eq := right.nr_eq.trans left.nr_eq
  retained_eq := right.retained_eq.trans left.retained_eq
  kept := by
    intro i occupied
    have first := left.kept i occupied
    rw [← first] at occupied ⊢
    exact right.kept i occupied
  filled := by
    intro i isEmpty
    have plain := left.filled i isEmpty
    rcases Tree.cases_of_not_isMeta plain with stillEmpty | ⟨object, isLeaf⟩
    · exact right.filled i stillEmpty
    · rw [right.kept i (by rw [isLeaf]; simp)]
      exact plain

@[simp]
theorem Pass.fill_slots
    (p : Pass) (object : Leaf) (free : Fin assocArrayFanOut) :
    (p.fill object free).slots =
      Function.update p.slots free (.leaf object) := rfl

theorem Pass.moveLeaf_spec
    {p : Pass} {t : Tree}
    (sound : p.Sound)
    (plain : t.isMeta = false)
    (room : t.leafCount ≤ p.nrFree) :
    ∃ q, p.moveLeaf t = some q ∧ Moves p q ↑t.leaves := by
  rcases Tree.cases_of_not_isMeta plain with rfl | ⟨object, rfl⟩
  · exact ⟨p, rfl, Moves.refl sound⟩
  -- A free slot exists, and density puts it at or after `nextSlot`.
  have someFree : ∃ i, p.slots i = .empty := by
    by_contra noneFree
    have full : emptyCount p.slots = 0 := by
      apply Finset.sum_eq_zero
      intro i _
      rw [if_neg]
      exact fun null => noneFree ⟨i, (Tree.ptr_eq_null_iff _).mp null⟩
    rw [sound.nrFree_eq, full, Tree.leafCount_leaf] at room
    omega
  obtain ⟨i, isEmpty⟩ := someFree
  have after : p.nextSlot ≤ i.val := by
    by_contra before
    exact sound.dense i (by omega) isEmpty
  obtain ⟨free, found⟩ :
      ∃ free, seekFree (fun i => (p.slots i).ptr) p.nextSlot = some free :=
    seekFree_isSome after (by rw [isEmpty, Tree.ptr_empty])
  obtain ⟨freeNull, freeAfter, passed⟩ := seekFree_spec found
  have freeEmpty : p.slots free = .empty :=
    (Tree.ptr_eq_null_iff _).mp freeNull
  have bagEq := bag_update p.slots free (.leaf object)
  have freeEq := emptyCount_update p.slots free (.leaf object)
  rw [freeEmpty] at bagEq freeEq
  rw [Tree.ptr_empty, Tree.ptr_leaf, if_pos rfl, if_neg (by simp)] at freeEq
  refine ⟨p.fill object free, by rw [Pass.moveLeaf, found]; rfl, ?_⟩
  have nrFree := sound.nrFree_eq
  constructor
  · constructor
    · change p.nrFree - 1 = emptyCount (Function.update p.slots free (.leaf object))
      omega
    · intro j before
      change j.val < free.val + 1 at before
      by_cases same : j = free
      · subst same
        simp
      · rw [Pass.fill_slots, Function.update_of_ne same]
        by_cases early : j.val < p.nextSlot
        · exact sound.dense j early
        · intro isEmpty
          have earlier : j < free := by
            have apart : j.val ≠ free.val := fun eq => same (Fin.ext eq)
            exact Fin.lt_def.mpr (by omega)
          exact passed j (by omega) earlier
            (by rw [isEmpty, Tree.ptr_empty])
    · intro j
      rw [Pass.fill_slots]
      by_cases same : j = free
      · subst same
        rw [Function.update_self]
        trivial
      · rw [Function.update_of_ne same]
        exact sound.counted j
    · intro j
      rw [Pass.fill_slots]
      by_cases same : j = free
      · subst same
        rw [Function.update_self]
        trivial
      · rw [Function.update_of_ne same]
        exact sound.whole j
  · simpa [Tree.leaves] using bagEq
  · change p.nrFree - 1 + 1 = p.nrFree
    omega
  · rfl
  · rfl
  · intro j occupied
    rw [Pass.fill_slots, Function.update_of_ne]
    rintro rfl
    exact occupied freeEmpty
  · intro j isEmpty
    rw [Pass.fill_slots]
    by_cases same : j = free
    · subst same
      rw [Function.update_self, Tree.isMeta_leaf]
    · rw [Function.update_of_ne same, isEmpty, Tree.isMeta_empty]

/-- Moving a list of slots of a folded child. -/
theorem Pass.moveLeaves_spec
    {children : Fin assocArrayFanOut → Tree} (plain : Plain children) :
    ∀ (items : List (Fin assocArrayFanOut)) {p : Pass},
      p.Sound →
      (items.map fun i => (children i).leafCount).sum ≤ p.nrFree →
        ∃ q,
          items.foldlM (fun moved i => moved.moveLeaf (children i)) p =
              some q ∧
            Moves p q
              (items.map fun i => (↑(children i).leaves : Multiset Leaf)).sum
  | [], p, sound, _ => ⟨p, rfl, Moves.refl sound⟩
  | i :: rest, p, sound, room => by
      rw [List.map_cons, List.sum_cons] at room
      obtain ⟨middle, first, moves⟩ :=
        Pass.moveLeaf_spec sound (plain i) (by omega)
      have movedCount := moves.nrFree_eq
      rw [Multiset.coe_card] at movedCount
      change _ + (children i).leafCount = _ at movedCount
      obtain ⟨q, others, rest⟩ :=
        Pass.moveLeaves_spec plain rest moves.sound (by omega)
      refine ⟨q, ?_, ?_⟩
      · rw [List.foldlM_cons, first]
        exact others
      · rw [List.map_cons, List.sum_cons]
        exact moves.trans rest

/-- Moving the whole child. -/
theorem Pass.moveChild_spec
    {p : Pass} {children : Fin assocArrayFanOut → Tree}
    (sound : p.Sound)
    (plain : Plain children)
    (room : slotLeafCount children ≤ p.nrFree) :
    ∃ q,
      (List.finRange assocArrayFanOut).foldlM
          (fun moved i => moved.moveLeaf (children i)) p = some q ∧
        Moves p q (bag children) := by
  rw [bag, Fin.sum_univ_def]
  apply Pass.moveLeaves_spec plain _ sound
  rw [← Fin.sum_univ_def]
  exact room

/-! ## One iteration of the fold loop -/

/-- The pass once the child's leaves are counted and its slot is given up. -/
def Pass.opened (p : Pass) (slot : Fin assocArrayFanOut) (nr : Nat) : Pass :=
  { p with nr := p.nr + nr }.openSlot slot

@[simp]
theorem Pass.opened_slots (p : Pass) (slot : Fin assocArrayFanOut) (nr : Nat) :
    (p.opened slot nr).slots = Function.update p.slots slot .empty := rfl

theorem Pass.opened_sound
    {p : Pass} {slot : Fin assocArrayFanOut} (nr : Nat)
    (sound : p.Sound)
    (occupied : p.slots slot ≠ .empty) :
    (p.opened slot nr).Sound where
  nrFree_eq := by
    have opened := emptyCount_update p.slots slot .empty
    have occupiedPtr : (p.slots slot).ptr ≠ .null :=
      fun null => occupied ((Tree.ptr_eq_null_iff _).mp null)
    have nrFree := sound.nrFree_eq
    rw [if_neg occupiedPtr, Tree.ptr_empty, if_pos rfl] at opened
    change p.nrFree + 1 = emptyCount (Function.update p.slots slot .empty)
    omega
  dense := by
    intro i before
    change i.val < (if slot.val < p.nextSlot then slot.val else p.nextSlot)
      at before
    have early : i.val < p.nextSlot ∧ i ≠ slot := by
      split at before
      · exact ⟨by omega, Fin.ne_of_lt before⟩
      · refine ⟨before, ?_⟩
        rintro rfl
        omega
    rw [Pass.opened_slots, Function.update_of_ne early.2]
    exact sound.dense i early.1
  counted := by
    intro i
    rw [Pass.opened_slots]
    by_cases same : i = slot
    · subst same
      rw [Function.update_self]
      trivial
    · rw [Function.update_of_ne same]
      exact sound.counted i
  whole := by
    intro i
    rw [Pass.opened_slots]
    by_cases same : i = slot
    · subst same
      rw [Function.update_self]
      trivial
    · rw [Function.update_of_ne same]
      exact sound.whole i

/-- A child that holds leaves only and fits is folded. -/
theorem Pass.foldSlot_fold
    {p : Pass} {slot : Fin assocArrayFanOut} {address nr : Nat}
    {children : Fin assocArrayFanOut → Tree}
    (sound : p.Sound)
    (here : p.slots slot = .node none address nr children)
    (plain : Plain children)
    (fits : nr ≤ p.nrFree + 1) :
    ∃ q, p.foldSlot slot = some q ∧
      Moves (p.opened slot nr) q (bag children) := by
  have nrEq : nr = slotLeafCount children := by
    have counted := sound.counted slot
    rw [here] at counted
    exact counted.nr_eq_slotLeafCount
  have openedSound : (p.opened slot nr).Sound :=
    Pass.opened_sound nr sound (by rw [here]; simp)
  obtain ⟨q, moved, moves⟩ :=
    Pass.moveChild_spec openedSound plain (by rw [← nrEq]; exact fits)
  refine ⟨q, ?_, moves⟩
  rw [Pass.foldSlot, here]
  simp only [if_pos fits, Option.isSome_none, Bool.false_eq_true, if_false]
  exact moved

/-- A child with too many leaves is retained. -/
theorem Pass.foldSlot_retain
    {p : Pass} {slot : Fin assocArrayFanOut} {lead : Option Lead}
    {address nr : Nat} {children : Fin assocArrayFanOut → Tree}
    (here : p.slots slot = .node lead address nr children)
    (large : p.nrFree + 1 < nr) :
    p.foldSlot slot =
      some { p with nr := p.nr + nr, retained := true } := by
  rw [Pass.foldSlot, here]
  simp only [if_neg (by omega : ¬ nr ≤ p.nrFree + 1)]

theorem Pass.foldSlot_plain
    {p : Pass} {slot : Fin assocArrayFanOut}
    (plain : (p.slots slot).isMeta = false) :
    p.foldSlot slot = some p := by
  rcases Tree.cases_of_not_isMeta plain with isEmpty | ⟨object, isLeaf⟩
  · rw [Pass.foldSlot, isEmpty]
  · rw [Pass.foldSlot, isLeaf]

/-- Moving stops at the first slot that is not a leaf. -/
theorem Pass.moveLeaves_eq_none
    {children : Fin assocArrayFanOut → Tree} {i : Fin assocArrayFanOut}
    (isNode : (children i).isMeta = true) :
    ∀ (items : List (Fin assocArrayFanOut)) (p : Pass),
      i ∈ items →
        items.foldlM (fun moved j => moved.moveLeaf (children j)) p = none
  | [], _, member => by simp at member
  | j :: rest, p, member => by
      rw [List.foldlM_cons]
      cases moved : p.moveLeaf (children j) with
      | none => rfl
      | some q =>
          have later : i ∈ rest := by
            rcases List.mem_cons.mp member with same | later
            · subst same
              rcases content : children i with
                _ | object | ⟨lead, address, nr, slots⟩ | ⟨lead, next⟩
              · rw [content] at isNode
                cases isNode
              · rw [content] at isNode
                cases isNode
              all_goals
                rw [content] at moved
                cases moved
            · exact later
          exact Pass.moveLeaves_eq_none isNode rest q later

/-- An iteration fails exactly when a child that fits by its leaf count is behind
a shortcut or holds a meta pointer. -/
theorem Pass.foldSlot_eq_none_iff
    {p : Pass} {slot : Fin assocArrayFanOut} {lead : Option Lead}
    {address nr : Nat} {children : Fin assocArrayFanOut → Tree}
    (sound : p.Sound)
    (here : p.slots slot = .node lead address nr children) :
    p.foldSlot slot = none ↔
      nr ≤ p.nrFree + 1 ∧ ¬ (p.slots slot).Foldable := by
  constructor
  · intro failed
    have fits : nr ≤ p.nrFree + 1 := by
      by_contra large
      rw [Pass.foldSlot_retain here (by omega)] at failed
      cases failed
    refine ⟨fits, ?_⟩
    intro foldable
    rw [here] at foldable
    cases lead with
    | some front => exact foldable
    | none =>
        obtain ⟨q, folded, _⟩ := Pass.foldSlot_fold sound here foldable fits
        rw [failed] at folded
        cases folded
  · rintro ⟨fits, notFoldable⟩
    rw [here] at notFoldable
    rw [Pass.foldSlot, here]
    simp only [if_pos fits]
    cases lead with
    | some front => rfl
    | none =>
        have holdsMeta : ∃ i, (children i).isMeta = true := by
          by_contra noMeta
          apply notFoldable
          intro i
          exact Bool.eq_false_iff.mpr fun isNode => noMeta ⟨i, isNode⟩
        obtain ⟨i, isNode⟩ := holdsMeta
        exact Pass.moveLeaves_eq_none isNode _ _ (List.mem_finRange i)

/-- Whether a child is retained is decided by its leaf count alone. -/
theorem Pass.foldSlot_isMeta_iff
    {p q : Pass} {slot : Fin assocArrayFanOut} {lead : Option Lead}
    {address nr : Nat} {children : Fin assocArrayFanOut → Tree}
    (sound : p.Sound)
    (here : p.slots slot = .node lead address nr children)
    (step : p.foldSlot slot = some q) :
    (q.slots slot).isMeta = true ↔ p.nrFree + 1 < nr := by
  by_cases fits : nr ≤ p.nrFree + 1
  · have foldable : (p.slots slot).Foldable := by
      by_contra notFoldable
      rw [(Pass.foldSlot_eq_none_iff sound here).mpr
        ⟨fits, notFoldable⟩] at step
      cases step
    rw [here] at foldable
    cases lead with
    | some front => exact False.elim foldable
    | none =>
        obtain ⟨folded, foldedEq, moves⟩ :=
          Pass.foldSlot_fold sound here foldable fits
        rw [step] at foldedEq
        cases foldedEq
        have plainHere : (q.slots slot).isMeta = false := by
          apply moves.filled
          rw [Pass.opened_slots, Function.update_self]
        rw [plainHere]
        constructor
        · intro impossible
          cases impossible
        · intro large
          omega
  · rw [Pass.foldSlot_retain here (by omega)] at step
    cases step
    change (p.slots slot).isMeta = true ↔ _
    rw [here, Tree.isMeta_node]
    simp only [true_iff]
    omega

/-! ## Runs of the fold loop -/

/-- Everything the fold loop does to the node while it visits `visited`. -/
structure Visited (p q : Pass) (visited : List (Fin assocArrayFanOut)) :
    Prop where
  sound : q.Sound
  bag_eq : bag q.slots = bag p.slots
  nr_eq : q.nr = p.nr + (visited.map fun i => (p.slots i).metaLeafCount).sum
  kept : ∀ i, p.slots i ≠ .empty →
    i ∉ visited ∨ (p.slots i).isMeta = false → q.slots i = p.slots i
  filled : ∀ i, (p.slots i).isMeta = false → (q.slots i).isMeta = false
  retains : ∀ i ∈ visited, (q.slots i).isMeta = true →
    q.slots i = p.slots i ∧ 2 ≤ (p.slots i).leafCount
  retained_iff :
    q.retained = true ↔
      p.retained = true ∨ ∃ i ∈ visited, (q.slots i).isMeta = true

theorem Visited.refl {p : Pass} (sound : p.Sound) : Visited p p [] where
  sound := sound
  bag_eq := rfl
  nr_eq := rfl
  kept := fun _ _ _ => rfl
  filled := fun _ plain => plain
  retains := fun i member => by simp at member
  retained_iff := by simp

/-- A slot the loop has not come to still leads to the same subtree. -/
theorem Visited.metaLeafCount_eq
    {p q : Pass} {visited : List (Fin assocArrayFanOut)}
    (run : Visited p q visited) {i : Fin assocArrayFanOut}
    (unvisited : i ∉ visited) :
    (q.slots i).metaLeafCount = (p.slots i).metaLeafCount := by
  cases isMeta : (p.slots i).isMeta with
  | false =>
      rw [Tree.metaLeafCount_of_plain isMeta,
        Tree.metaLeafCount_of_plain (run.filled i isMeta)]
  | true =>
      rw [run.kept i _ (Or.inl unvisited)]
      rintro isEmpty
      rw [isEmpty] at isMeta
      cases isMeta

theorem Visited.trans
    {p q r : Pass} {first second : List (Fin assocArrayFanOut)}
    (left : Visited p q first)
    (right : Visited q r second)
    (disjoint : ∀ i ∈ second, i ∉ first) :
    Visited p r (first ++ second) where
  sound := right.sound
  bag_eq := right.bag_eq.trans left.bag_eq
  nr_eq := by
    have sameCounts :
        second.map (fun i => (q.slots i).metaLeafCount) =
          second.map fun i => (p.slots i).metaLeafCount :=
      List.map_congr_left fun i member =>
        left.metaLeafCount_eq (disjoint i member)
    rw [right.nr_eq, left.nr_eq, sameCounts, List.map_append,
      List.sum_append, Nat.add_assoc]
  kept := by
    intro i occupied why
    have first : q.slots i = p.slots i := by
      apply left.kept i occupied
      rcases why with unvisited | plain
      · exact Or.inl fun member =>
          unvisited (List.mem_append_left _ member)
      · exact Or.inr plain
    rw [← first] at occupied why ⊢
    apply right.kept i occupied
    rcases why with unvisited | plain
    · exact Or.inl fun member =>
        unvisited (List.mem_append_right _ member)
    · exact Or.inr plain
  filled := fun i plain => right.filled i (left.filled i plain)
  retains := by
    intro i member isNode
    have beforeNode : (q.slots i).isMeta = true := by
      by_contra plain
      rw [right.filled i (Bool.eq_false_iff.mpr plain)] at isNode
      cases isNode
    have occupied : p.slots i ≠ .empty := by
      intro isEmpty
      have plain := left.filled i (by rw [isEmpty, Tree.isMeta_empty])
      rw [plain] at beforeNode
      cases beforeNode
    rcases List.mem_append.mp member with early | late
    · obtain ⟨same, two⟩ := left.retains i early beforeNode
      refine ⟨?_, two⟩
      rw [← same] at occupied ⊢
      apply right.kept i occupied
      exact Or.inl fun late => disjoint i late early
    · obtain ⟨same, two⟩ := right.retains i late isNode
      have first : q.slots i = p.slots i :=
        left.kept i occupied (Or.inl (disjoint i late))
      rw [first] at same two
      exact ⟨same, two⟩
  retained_iff := by
    rw [right.retained_iff, left.retained_iff]
    constructor
    · rintro ((before | ⟨i, early, isNode⟩) | ⟨i, late, isNode⟩)
      · exact Or.inl before
      · refine Or.inr ⟨i, List.mem_append_left _ early, ?_⟩
        rw [right.kept i _ (Or.inl fun late => disjoint i late early)]
        · exact isNode
        · intro isEmpty
          rw [isEmpty] at isNode
          cases isNode
      · exact Or.inr ⟨i, List.mem_append_right _ late, isNode⟩
    · rintro (before | ⟨i, member, isNode⟩)
      · exact Or.inl (Or.inl before)
      · rcases List.mem_append.mp member with early | late
        · refine Or.inl (Or.inr ⟨i, early, ?_⟩)
          by_contra plain
          rw [right.filled i (Bool.eq_false_iff.mpr plain)] at isNode
          cases isNode
        · exact Or.inr ⟨i, late, isNode⟩

/-- What one iteration can do: pass over a leaf or an empty slot, retain a child
with at least two leaves, or fold one. -/
theorem Pass.foldSlot_visited
    {p q : Pass} {slot : Fin assocArrayFanOut}
    (sound : p.Sound)
    (step : p.foldSlot slot = some q) :
    Visited p q [slot] := by
  cases isMeta : (p.slots slot).isMeta with
  | false =>
      rw [Pass.foldSlot_plain isMeta] at step
      cases step
      constructor
      · exact sound
      · rfl
      · simp [Tree.metaLeafCount_of_plain isMeta]
      · exact fun _ _ _ => rfl
      · exact fun _ plain => plain
      · intro i member isNode
        rw [List.mem_singleton.mp member, isMeta] at isNode
        cases isNode
      · simp [isMeta]
  | true =>
      obtain ⟨lead, address, nr, children, here⟩ :=
        Tree.exists_node_of_isMeta (sound.whole slot) isMeta
      have countedHere := sound.counted slot
      rw [here] at countedHere
      have nrEq := countedHere.nr_eq_slotLeafCount
      have leafCountHere : (p.slots slot).leafCount = nr := by
        rw [here, Tree.leafCount_node_eq, ← nrEq]
      by_cases fits : nr ≤ p.nrFree + 1
      · -- Folded: the child holds leaves only, or the step would have failed.
        have foldable : (p.slots slot).Foldable := by
          by_contra notFoldable
          rw [(Pass.foldSlot_eq_none_iff sound here).mpr
            ⟨fits, notFoldable⟩] at step
          cases step
        rw [here] at foldable
        cases lead with
        | some front => exact False.elim foldable
        | none =>
            obtain ⟨folded, foldedEq, moves⟩ :=
              Pass.foldSlot_fold sound here foldable fits
            rw [step] at foldedEq
            cases foldedEq
            have plainHere : (q.slots slot).isMeta = false := by
              apply moves.filled
              rw [Pass.opened_slots, Function.update_self]
            constructor
            · exact moves.sound
            · have exchanged := bag_update p.slots slot .empty
              rw [here, Tree.leaves_node_eq_bag] at exchanged
              rw [moves.bag_eq, Pass.opened_slots, exchanged]
              exact add_zero _
            · rw [moves.nr_eq]
              simp [Pass.opened, Pass.openSlot,
                Tree.metaLeafCount_of_meta isMeta, leafCountHere]
            · intro i occupied why
              have different : i ≠ slot := by
                rintro rfl
                rcases why with unvisited | plain
                · simp at unvisited
                · rw [isMeta] at plain
                  cases plain
              rw [moves.kept i, Pass.opened_slots,
                Function.update_of_ne different]
              rw [Pass.opened_slots, Function.update_of_ne different]
              exact occupied
            · intro i plain
              by_cases same : i = slot
              · subst same
                exact plainHere
              · by_cases isEmpty : p.slots i = .empty
                · apply moves.filled
                  rw [Pass.opened_slots, Function.update_of_ne same]
                  exact isEmpty
                · rw [moves.kept i, Pass.opened_slots,
                    Function.update_of_ne same]
                  · exact plain
                  · rw [Pass.opened_slots, Function.update_of_ne same]
                    exact isEmpty
            · intro i member isNode
              rw [List.mem_singleton.mp member, plainHere] at isNode
              cases isNode
            · rw [moves.retained_eq]
              simp [Pass.opened, Pass.openSlot, plainHere]
      · rw [Pass.foldSlot_retain here (by omega)] at step
        cases step
        constructor
        · exact ⟨sound.nrFree_eq, sound.dense, sound.counted, sound.whole⟩
        · rfl
        · simp [Tree.metaLeafCount_of_meta isMeta, leafCountHere]
        · exact fun _ _ _ => rfl
        · exact fun _ plain => plain
        · intro i member _
          rw [List.mem_singleton.mp member, leafCountHere]
          exact ⟨rfl, by omega⟩
        · simp [isMeta]

/-- What a run of the fold loop does. -/
theorem foldSlots_visited :
    ∀ {items : List (Fin assocArrayFanOut)} {p q : Pass},
      p.Sound → items.Nodup →
        items.foldlM Pass.foldSlot p = some q → Visited p q items
  | [], p, q, sound, _, run => by
      cases run
      exact Visited.refl sound
  | i :: rest, p, q, sound, nodup, run => by
      rw [List.foldlM_cons] at run
      obtain ⟨middle, first, others⟩ := Option.bind_eq_some_iff.mp run
      have step := Pass.foldSlot_visited sound first
      have later :=
        foldSlots_visited step.sound (List.nodup_cons.mp nodup).2 others
      apply Visited.trans step later
      intro j member atHead
      rw [List.mem_singleton.mp atHead] at member
      exact (List.nodup_cons.mp nodup).1 member

end KernelStuff.AssocArrayGc
