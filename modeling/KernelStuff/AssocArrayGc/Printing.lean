import KernelStuff.AssocArrayGc.Copies
import KernelStuff.Library.Scanning

/-!
# Printing the array

The reproducer prints the array before and after it is collected.  The printout
is text: each line is indented by its level and names a slot, a kind of pointer
and a word.  A shortcut makes the program stop at an assertion.

The printing function calls itself, and so takes fuel.
-/

namespace KernelStuff.AssocArrayGc

open KernelStuff.Library

abbrev Text := List Char

/-! ## The functions -/

/-- How a printing function ends. -/
inductive PrintEnd where
  | finished
  | assertion
  | wildPointer
  | outOfFuel
  deriving DecidableEq

/-- What is written to standard output, and the end. -/
structure Printed where
  text : Text
  ending : PrintEnd
  deriving DecidableEq

def Printed.written (text : Text) : Printed := ⟨text, .finished⟩

/-- Go on if the first part came to its end. -/
def Printed.andThen (first next : Printed) : Printed :=
  match first.ending with
  | .finished => ⟨first.text ++ next.text, next.ending⟩
  | _ => first

def Printed.sequence : List Printed → Printed
  | [] => .written []
  | first :: rest => first.andThen (.sequence rest)

/-- `%p` of a pointer that is not null. -/
def pointerText (word : BitVec 64) : Text :=
  '0' :: 'x' :: Nat.toDigits 16 word.toNat

/-- The function `prefix`. -/
def indentation (level index : Nat) : Text :=
  List.replicate (3 * level) ' ' ++
    if level = 0 then [] else '[' :: Nat.toDigits 16 index ++ [']', ' ']

def assocArrayPrintPtr (location : Nat → BitVec 64) (heap : Heap Object) :
    Nat → Ptr → Nat → Nat → Printed
  | 0, _, _, _ => ⟨[], .outOfFuel⟩
  | fuel + 1, ptr, level, index =>
      if ptr = .null then .written []
      else
        (Printed.written (indentation level index)).andThen <|
          if !assocArrayPtrIsMeta ptr then
            .written
              ("LEAF: ".toList ++ pointerText (ptr.toWord location) ++ ['\n'])
          else if assocArrayPtrIsNode ptr then
            match assocArrayPtrToMeta ptr with
            | none => ⟨[], .wildPointer⟩
            | some node =>
                (Printed.written
                  ("NODE: ".toList ++ pointerText (location node) ++ ['\n'])).andThen <|
                  match heap.cells node with
                  | some (.node content) =>
                      .sequence ((List.finRange assocArrayFanOut).map fun i =>
                        assocArrayPrintPtr location heap fuel (content.slots i)
                          (level + 1) i)
                  | _ => ⟨[], .wildPointer⟩
          else ⟨"SHORTCUT: not implemented\n".toList, .assertion⟩

def assocArrayPrint (location : Nat → BitVec 64) (heap : Heap Object) (fuel : Nat)
    (array : AssocArray) : Printed :=
  assocArrayPrintPtr location heap fuel array.root 0 0

/-! ## The printout of a tree -/

/-- A line about a leaf or a node. -/
structure Line where
  level : Nat
  index : Nat
  isNode : Bool
  word : BitVec 64
  deriving DecidableEq

def Line.text (line : Line) : Text :=
  indentation line.level line.index ++
    ((if line.isNode then "NODE: ".toList else "LEAF: ".toList) ++
      pointerText line.word ++ ['\n'])

namespace Tree

/-- The printout of the tree in slot `index` on the given level. -/
def printed (location : Nat → BitVec 64) : Tree → Nat → Nat → Printed
  | .empty, _, _ => .written []
  | .leaf object, level, index =>
      .written (Line.text ⟨level, index, false, object.word⟩)
  | .node none address _ slots, level, index =>
      (Printed.written (Line.text ⟨level, index, true, location address⟩)).andThen
        (.sequence ((List.finRange assocArrayFanOut).map fun i =>
          (slots i).printed location (level + 1) i))
  | .node (some _) _ _ _, level, index | .dangling _ _, level, index =>
      ⟨indentation level index ++ "SHORTCUT: not implemented\n".toList, .assertion⟩

/-- The lines of a tree without shortcuts. -/
def lines (location : Nat → BitVec 64) : Tree → Nat → Nat → List Line
  | .empty, _, _ => []
  | .leaf object, level, index => [⟨level, index, false, object.word⟩]
  | .node _ address _ slots, level, index =>
      ⟨level, index, true, location address⟩ ::
        (List.finRange assocArrayFanOut).flatMap fun i =>
          (slots i).lines location (level + 1) i
  | .dangling _ _, _, _ => []

end Tree

/-! ## The heap and the tree -/

section Represented

variable {location : Nat → BitVec 64} {heap : Heap Object}

/-- The first step of fuel is enough. -/
theorem enough_of_succ {Result : Type} {run : Nat → Result} {result : Result}
    (depth : Nat) (steps : ∀ fuel, depth ≤ fuel → run (fuel + 1) = result) :
    ∃ depth, ∀ fuel, depth ≤ fuel → run fuel = result := by
  refine ⟨depth + 1, fun fuel deep => ?_⟩
  cases fuel with
  | zero => omega
  | succ fuel => exact steps fuel (by omega)

theorem assocArrayPrintPtr_node
    {address : Nat} {content : AssocArrayNode}
    (held : heap.cells address = some (.node content)) (fuel level index : Nat) :
    assocArrayPrintPtr location heap (fuel + 1) (.node address) level index =
      (Printed.written (Line.text ⟨level, index, true, location address⟩)).andThen
        (.sequence ((List.finRange assocArrayFanOut).map fun i =>
          assocArrayPrintPtr location heap fuel (content.slots i) (level + 1) i)) := by
  rw [assocArrayPrintPtr]
  simp [held, Printed.andThen, Printed.written, Line.text, assocArrayPtrIsMeta,
    assocArrayPtrIsNode, assocArrayPtrIsShortcut, assocArrayPtrToMeta]

/-- The function prints the tree its pointer leads to. -/
theorem assocArrayPrintPtr_represented (location : Nat → BitVec 64) :
    ∀ {t : Tree} {back : Ptr} {slot : Nat}, t.Represented heap.cells back slot →
      ∀ level index, ∃ depth, ∀ fuel, depth ≤ fuel →
        assocArrayPrintPtr location heap fuel t.ptr level index =
          t.printed location level index
  | .empty, _, _, _, _, _ => enough_of_succ 0 fun _ _ => rfl
  | .leaf _, _, _, _, _, _ => enough_of_succ 0 fun _ _ => rfl
  | .node (some _) _ _ _, _, _, _, _, _ => enough_of_succ 0 fun _ _ => rfl
  | .dangling _ _, _, _, _, _, _ => enough_of_succ 0 fun _ _ => rfl
  | .node none address nr slots, _, _, represented, level, index => by
      obtain ⟨-, held, children⟩ := represented
      have every := fun i =>
        assocArrayPrintPtr_represented location (children i) (level + 1) i.val
      choose depth enough using every
      apply enough_of_succ (Finset.univ.sup depth)
      intro fuel deep
      have slotsPrinted : ∀ i : Fin assocArrayFanOut,
          assocArrayPrintPtr location heap fuel (slots i).ptr (level + 1) i =
            (slots i).printed location (level + 1) i := by
        intro i
        apply enough i fuel
        exact (Finset.le_sup (f := depth) (Finset.mem_univ i)).trans deep
      rw [Tree.ptr, assocArrayPrintPtr_node held, Tree.printed]
      simp only [slotsPrinted]

end Represented

/-! ## How the printout ends -/

theorem Printed.sequence_finished {Item : Type} {shown : Item → Printed}
    {text : Item → Text} :
    ∀ {items : List Item},
      (∀ item ∈ items, shown item = .written (text item)) →
        Printed.sequence (items.map shown) = .written (items.flatMap text)
  | [], _ => rfl
  | item :: rest, every => by
      rw [List.map_cons, Printed.sequence, every item List.mem_cons_self,
        Printed.sequence_finished fun other member =>
          every other (List.mem_cons_of_mem _ member)]
      rfl

theorem Printed.sequence_assertion {Item : Type} {shown : Item → Printed} :
    ∀ {items : List Item},
      (∀ item ∈ items, (shown item).ending = .finished ∨
        (shown item).ending = .assertion) →
      (∃ item ∈ items, (shown item).ending ≠ .finished) →
        (Printed.sequence (items.map shown)).ending = .assertion
  | [], _, stops => by simp at stops
  | item :: rest, every, stops => by
      rw [List.map_cons, Printed.sequence, Printed.andThen]
      cases every item List.mem_cons_self with
      | inr stopped => rw [stopped]; exact stopped
      | inl finished =>
          rw [finished]
          apply Printed.sequence_assertion fun other member =>
            every other (List.mem_cons_of_mem _ member)
          obtain ⟨other, member, stopped⟩ := stops
          cases List.mem_cons.mp member with
          | inl same => exact absurd finished (same ▸ stopped)
          | inr later => exact ⟨other, later, stopped⟩

namespace Tree

/-- A tree without shortcuts is printed line by line. -/
theorem printed_of_leadless (location : Nat → BitVec 64) :
    ∀ {t : Tree}, t.Leadless → ∀ level index,
      t.printed location level index =
        .written ((t.lines location level index).flatMap Line.text)
  | .empty, _, _, _ => rfl
  | .leaf object, _, level, index => by
      rw [printed, lines, List.flatMap_singleton]
  | .node lead address nr slots, leadless, level, index => by
      obtain ⟨rfl, plain⟩ := leadless
      have every : ∀ i ∈ List.finRange assocArrayFanOut,
          (slots i).printed location (level + 1) i =
            .written (((slots i).lines location (level + 1) i).flatMap Line.text) :=
        fun i _ => printed_of_leadless location (plain i) (level + 1) i
      rw [printed, Printed.sequence_finished every, lines, List.flatMap_cons,
        List.flatMap_assoc]
      rfl
  | .dangling _ _, leadless, _, _ => False.elim leadless

/-- The printout stops at an assertion exactly if there is a shortcut. -/
theorem printed_ending (location : Nat → BitVec 64) :
    ∀ (t : Tree) (level index : Nat),
      (t.Leadless → (t.printed location level index).ending = .finished) ∧
        (¬ t.Leadless → (t.printed location level index).ending = .assertion)
  | .empty, _, _ => ⟨fun _ => rfl, fun leadless => absurd trivial leadless⟩
  | .leaf _, _, _ => ⟨fun _ => rfl, fun leadless => absurd trivial leadless⟩
  | .dangling _ _, _, _ => ⟨False.elim, fun _ => rfl⟩
  | .node (some _) _ _ _, _, _ => by
      refine ⟨fun leadless => ?_, fun _ => rfl⟩
      cases leadless.1
  | .node none address nr slots, level, index => by
      refine ⟨fun leadless => ?_, fun shortcut => ?_⟩
      · rw [printed_of_leadless location leadless]
        rfl
      · have children := fun i : Fin assocArrayFanOut =>
          printed_ending location (slots i) (level + 1) i
        apply Printed.sequence_assertion
        · intro i _
          by_cases plain : (slots i).Leadless
          · exact .inl ((children i).1 plain)
          · exact .inr ((children i).2 plain)
        · have some : ∃ i, ¬ (slots i).Leadless := by
            by_contra none
            exact shortcut ⟨rfl, fun i => not_not.mp fun not => none ⟨i, not⟩⟩
          obtain ⟨i, not⟩ := some
          exact ⟨i, List.mem_finRange i, by rw [(children i).2 not]; decide⟩

end Tree

/-- Printing an array shows its lines and comes to an end if no shortcut is in
it, and otherwise stops at an assertion. -/
theorem assocArrayPrint_ends
    {heap : Heap Object} {array : AssocArray} {t : Tree}
    (wellFormed : WellFormed heap array t) (location : Nat → BitVec 64) :
    ∃ depth, ∀ fuel, depth ≤ fuel →
      (t.Leadless →
        assocArrayPrint location heap fuel array =
          .written ((t.lines location 0 0).flatMap Line.text)) ∧
      (¬ t.Leadless →
        (assocArrayPrint location heap fuel array).ending = .assertion) := by
  obtain ⟨depth, enough⟩ :=
    assocArrayPrintPtr_represented location wellFormed.represented 0 0
  refine ⟨depth, fun fuel deep => ?_⟩
  rw [assocArrayPrint, wellFormed.root_ptr, enough fuel deep]
  exact ⟨fun leadless => t.printed_of_leadless location leadless 0 0,
    (t.printed_ending location 0 0).2⟩

theorem tower_leadless (root child : Nat) :
    (Tree.node none root 3 (towerSlots child)).Leadless := by
  refine ⟨rfl, fun i => ?_⟩
  rw [towerSlots]
  split
  · trivial
  · split
    · exact ⟨rfl, fun j => leadless_of_plain (pairSlots_plain j)⟩
    · trivial

theorem retryTree_not_leadless : ¬ retryTree.Leadless := by
  intro leadless
  cases (leadless.2 0).1

/-- The tower is printed, and the array with a shortcut is not. -/
theorem assocArrayPrint_ends_tower :
    ∃ depth, ∀ fuel, depth ≤ fuel →
      assocArrayPrint (BitVec.ofNat 64) towerHeap fuel ⟨.node 0, 3⟩ =
          .written (((Tree.node none 0 3 (towerSlots 1)).lines (BitVec.ofNat 64)
            0 0).flatMap Line.text) ∧
        (assocArrayPrint (BitVec.ofNat 64) retryHeap fuel retryArray).ending =
          .assertion := by
  obtain ⟨depth, tower⟩ :=
    assocArrayPrint_ends towerArray_wellFormed (BitVec.ofNat 64)
  obtain ⟨otherDepth, retry⟩ :=
    assocArrayPrint_ends retryArray_wellFormed (BitVec.ofNat 64)
  refine ⟨max depth otherDepth, fun fuel deep => ⟨?_, ?_⟩⟩
  · exact (tower fuel (by omega)).1 (tower_leadless 0 1)
  · exact (retry fuel (by omega)).2 retryTree_not_leadless

end KernelStuff.AssocArrayGc
