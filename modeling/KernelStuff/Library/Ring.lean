import Mathlib.Data.List.Nodup
import Mathlib.Logic.Function.Basic

/-!
# Rings of nodes

The circular doubly linked lists of an operating system kernel: a head and its
entries, each with a pointer to the next node and one to the previous node.
`Links.Ring` says which list of entries the pointers stand for, and every
operation on the pointers is an operation on that list.
-/

namespace KernelStuff.Library

universe u

section Ring

variable {Node : Type u}

/-- The pointers of all nodes. -/
structure Links (Node : Type u) where
  next : Node → Node
  prev : Node → Node

namespace Links

/-- The pointers lead from `source` over the nodes to `target`, and back. -/
def Chain (links : Links Node) : Node → List Node → Node → Prop
  | source, [], target => links.next source = target ∧ links.prev target = source
  | source, node :: rest, target =>
      links.next source = node ∧ links.prev node = source ∧
        links.Chain node rest target

/-- The entries behind a head. -/
structure Ring (links : Links Node) (head : Node) (nodes : List Node) : Prop where
  chain : links.Chain head nodes head
  nodup : (head :: nodes).Nodup

theorem chain_append (links : Links Node) {source target node : Node}
    {left right : List Node} :
    links.Chain source (left ++ node :: right) target ↔
      links.Chain source left node ∧ links.Chain node right target := by
  induction left generalizing source with
  | nil => exact and_assoc.symm
  | cons first rest inductionHypothesis =>
      rw [List.cons_append, Chain, Chain, inductionHypothesis]
      simp only [and_assoc]

/-- A chain depends only on the pointers along it. -/
theorem Chain.congr {links other : Links Node} {source target : Node}
    {nodes : List Node}
    (chain : links.Chain source nodes target)
    (next : ∀ node ∈ source :: nodes, other.next node = links.next node)
    (prev : ∀ node ∈ nodes ++ [target], other.prev node = links.prev node) :
    other.Chain source nodes target := by
  induction nodes generalizing source with
  | nil =>
      rw [Chain, next source List.mem_cons_self,
        prev target (List.mem_singleton_self target)]
      exact chain
  | cons node rest inductionHypothesis =>
      obtain ⟨here, back, onward⟩ := chain
      refine ⟨?_, ?_, ?_⟩
      · rw [next source List.mem_cons_self, here]
      · rw [prev node List.mem_cons_self, back]
      · apply inductionHypothesis onward
        · intro later member
          exact next later (List.mem_cons_of_mem _ member)
        · intro later member
          exact prev later (List.mem_cons_of_mem _ member)

/-! ## Walking -/

section Walking

variable {links : Links Node} {head : Node} {nodes : List Node}

theorem Ring.next_head (ring : links.Ring head nodes) :
    links.next head = nodes.head?.getD head := by
  cases nodes with
  | nil => exact ring.chain.1
  | cons node rest => exact ring.chain.1

theorem Ring.next_node {left right : List Node} {node : Node}
    (ring : links.Ring head (left ++ node :: right)) :
    links.next node = right.head?.getD head := by
  have chain := ((links.chain_append).mp ring.chain).2
  cases right with
  | nil => exact chain.1
  | cons other rest => exact chain.1

/-- The last entry is the one before the head. -/
theorem Ring.prev_head {last : Node}
    (ring : links.Ring head (nodes ++ [last])) : links.prev head = last :=
  ((links.chain_append).mp ring.chain).2.2

theorem Ring.next_head_eq_iff (ring : links.Ring head nodes) :
    links.next head = head ↔ nodes = [] := by
  rw [ring.next_head]
  cases nodes with
  | nil => simp
  | cons node rest =>
      have distinct : head ≠ node := by
        intro same
        have fresh := (List.nodup_cons.mp ring.nodup).1
        exact fresh (same ▸ List.mem_cons_self)
      simp [distinct.symm]

variable [DecidableEq Node]

/-- The nodes from `node` on, up to the head. -/
def walk (links : Links Node) (head : Node) : Nat → Node → Option (List Node)
  | 0, _ => none
  | fuel + 1, node =>
      if node = head then some []
      else (links.walk head fuel (links.next node)).map fun rest => node :: rest

theorem Ring.walk_node (left right : List Node)
    (ring : links.Ring head (left ++ right)) :
    ∀ {fuel : Nat}, right.length < fuel →
      links.walk head fuel (right.head?.getD head) = some right := by
  induction right generalizing left with
  | nil =>
      intro fuel enough
      obtain ⟨fuel, is⟩ := Nat.exists_eq_succ_of_ne_zero (Nat.ne_of_gt enough)
      subst is
      exact if_pos rfl
  | cons node rest inductionHypothesis =>
      intro fuel enough
      obtain ⟨fuel, is⟩ :=
        Nat.exists_eq_succ_of_ne_zero (Nat.ne_of_gt (Nat.zero_lt_of_lt enough))
      subst is
      have distinct : node ≠ head := by
        intro same
        apply (List.nodup_cons.mp ring.nodup).1
        rw [← same]
        exact List.mem_append_right _ List.mem_cons_self
      have onward := ring.next_node
      rw [← List.singleton_append, ← List.append_assoc] at ring
      rw [List.head?_cons, Option.getD_some, walk, if_neg distinct, onward,
        inductionHypothesis (left ++ [node]) ring (Nat.lt_of_succ_lt_succ enough)]
      rfl

/-- Enough steps lead round the ring. -/
theorem Ring.walk_eq (ring : links.Ring head nodes) {fuel : Nat}
    (enough : nodes.length < fuel) :
    links.walk head fuel (links.next head) = some nodes := by
  rw [ring.next_head]
  exact Ring.walk_node [] nodes ring enough

end Walking

/-! ## Changing a ring -/

section Changes

variable [DecidableEq Node]

/-- Point both links of the head to itself. -/
def initHead (links : Links Node) (head : Node) : Links Node where
  next := Function.update links.next head head
  prev := Function.update links.prev head head

theorem initHead_ring (links : Links Node) (head : Node) :
    (links.initHead head).Ring head [] where
  chain := ⟨Function.update_self _ _ _, Function.update_self _ _ _⟩
  nodup := List.nodup_singleton head

/-- Put `node` between the last entry and the head. -/
def addTail (links : Links Node) (node head : Node) : Links Node where
  next :=
    Function.update (Function.update links.next node head) (links.prev head) node
  prev :=
    Function.update (Function.update links.prev head node) node (links.prev head)

/-- Unlink `node`; its own pointers become `poison`. -/
def del (links : Links Node) (poison : Node × Node) (node : Node) :
    Links Node where
  next :=
    Function.update
      (Function.update links.next (links.prev node) (links.next node)) node
      poison.1
  prev :=
    Function.update
      (Function.update links.prev (links.next node) (links.prev node)) node
      poison.2

variable {links : Links Node} {head : Node} {nodes : List Node}

theorem Ring.addTail (ring : links.Ring head nodes) {node : Node}
    (fresh : node ∉ head :: nodes) :
    (links.addTail node head).Ring head (nodes ++ [node]) := by
  have notHead : node ≠ head := fun same => fresh (same ▸ List.mem_cons_self)
  constructor
  · rcases List.eq_nil_or_concat' nodes with none | ⟨before, last, is⟩
    · subst none
      have back := ring.chain.2
      refine ⟨?_, ?_, ?_, ?_⟩
      · simp [Links.addTail, back]
      · simp [Links.addTail, back]
      · simp [Links.addTail, back, notHead]
      · simp [Links.addTail, notHead.symm]
    · subst is
      have back := ring.prev_head
      obtain ⟨chain, -⟩ := (links.chain_append).mp ring.chain
      have distinct := ring.nodup
      rw [← List.cons_append] at distinct
      have lastNew : last ∉ head :: before := by
        intro member
        exact
          (List.nodup_append.mp distinct).2.2 last member last
            (List.mem_singleton_self last) rfl
      have nodeNew : ∀ other ∈ head :: (before ++ [last]), other ≠ node :=
        fun other member same => fresh (same ▸ member)
      rw [List.append_assoc, List.singleton_append]
      apply (Links.chain_append _).mpr
      constructor
      · apply chain.congr
        · intro other member
          have notLast : other ≠ last := fun same => lastNew (same ▸ member)
          have notNode : other ≠ node := by
            apply nodeNew
            rw [← List.cons_append]
            exact List.mem_append_left _ member
          simp [Links.addTail, back, notLast, notNode]
        · intro other member
          have notNode := nodeNew other (List.mem_cons_of_mem _ member)
          have notHead : other ≠ head := by
            intro same
            exact (List.nodup_cons.mp ring.nodup).1 (same ▸ member)
          simp [Links.addTail, notNode, notHead]
      · have notLast : node ≠ last := by
          intro same
          apply nodeNew last _ same.symm
          simp
        refine ⟨?_, ?_, ?_, ?_⟩
        · simp [Links.addTail, back]
        · simp [Links.addTail, back]
        · simp [Links.addTail, back, notLast]
        · simp [Links.addTail, notHead.symm]
  · rw [← List.cons_append, List.nodup_append]
    refine ⟨ring.nodup, List.nodup_singleton node, ?_⟩
    intro other member last isLast same
    rw [List.mem_singleton.mp isLast] at same
    exact fresh (same ▸ member)

/-- Unlinking the first entry. -/
theorem Ring.del_first {node : Node} (poison : Node × Node)
    (ring : links.Ring head (node :: nodes)) :
    (links.del poison node).Ring head nodes := by
  obtain ⟨here, back, onward⟩ := ring.chain
  obtain ⟨headNew, rest⟩ := List.nodup_cons.mp ring.nodup
  obtain ⟨nodeNew, distinct⟩ := List.nodup_cons.mp rest
  rw [List.mem_cons, not_or] at headNew
  constructor
  · cases nodes with
    | nil =>
        refine ⟨?_, ?_⟩
        · simp [Links.del, back, headNew.1, onward.1]
        · simp [Links.del, onward.1, headNew.1, back]
    | cons first others =>
        obtain ⟨toFirst, -, chain⟩ := onward
        have firstNotNode : first ≠ node :=
          fun same => nodeNew (same ▸ List.mem_cons_self)
        refine ⟨?_, ?_, ?_⟩
        · simp [Links.del, back, headNew.1, toFirst]
        · simp [Links.del, toFirst, firstNotNode, back]
        · apply chain.congr
          · intro other member
            have notNode : other ≠ node := fun same => nodeNew (same ▸ member)
            have notHead : other ≠ head := fun same => headNew.2 (same ▸ member)
            simp [Links.del, back, notNode, notHead]
          · intro other member
            have notFirst : other ≠ first := by
              intro same
              subst same
              rcases List.mem_append.mp member with inOthers | isHead
              · exact (List.nodup_cons.mp distinct).1 inOthers
              · apply headNew.2
                rw [← List.mem_singleton.mp isHead]
                exact List.mem_cons_self
            have notNode : other ≠ node := by
              intro same
              subst same
              rcases List.mem_append.mp member with inOthers | isHead
              · exact nodeNew (List.mem_cons_of_mem _ inOthers)
              · exact headNew.1 (List.mem_singleton.mp isHead).symm
            simp [Links.del, toFirst, notFirst, notNode]
  · exact List.nodup_cons.mpr ⟨headNew.2, distinct⟩

end Changes

end Links

end Ring

end KernelStuff.Library
