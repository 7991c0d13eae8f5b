import KernelStuff.AssocArrayGc.Printing

/-!
# The printout determines the array

A line is read from the left: the indentation tells the level, the brackets the
slot, and the rest the pointer.  The lines below a node fall into one block for
each slot, which starts with the line of that slot.  So a printout shows one
tree only, up to the addresses that the words stand for.
-/

namespace KernelStuff.AssocArrayGc

open KernelStuff.Library

/-! ## One line -/

/-- The root has no slot. -/
def Line.Proper (line : Line) : Prop :=
  line.level = 0 → line.index = 0

theorem mem_hex {excluded : Char}
    (each : ∀ digit, digit < 16 → id (Nat.digitChar digit) ≠ excluded) (n : Nat) :
    excluded ∉ Nat.toDigits 16 n := by
  intro member
  have symbols : ∀ symbol ∈ (Nat.toDigits 16 n).map id, symbol ≠ excluded :=
    mem_toDigits (by decide) each n
  rw [List.map_id] at symbols
  exact symbols excluded member rfl

theorem bracket_not_mem_hex (n : Nat) : ']' ∉ Nat.toDigits 16 n :=
  mem_hex (by decide) n

theorem newline_not_mem_hex (n : Nat) : '\n' ∉ Nat.toDigits 16 n :=
  mem_hex (by decide) n

/-- A number that ends at a character which is no digit reads back. -/
theorem hex_inj {stop : Char} (noDigit : ∀ n, stop ∉ Nat.toDigits 16 n)
    {first second : Nat} {rest other : Text}
    (same : Nat.toDigits 16 first ++ stop :: rest =
      Nat.toDigits 16 second ++ stop :: other) : first = second ∧ rest = other := by
  have differs : ∀ n, ∀ char ∈ Nat.toDigits 16 n, (char != stop) = true := by
    intro n char member
    exact bne_iff_ne.mpr fun same => noDigit n (same ▸ member)
  have stops : ∀ text, Library.StopsAt (· != stop) (stop :: text) := by
    intro text char here
    cases here
    exact bne_self_eq_false stop
  obtain ⟨digits, rests⟩ :=
    run_inj (· != stop) (differs first) (differs second) (stops rest) (stops other)
      same
  exact ⟨toDigits_sixteen_injective digits, (List.cons.inj rests).2⟩

/-- What stands behind the blanks of a line. -/
def Line.body (line : Line) : Text :=
  (if line.level = 0 then [] else '[' :: Nat.toDigits 16 line.index ++ [']', ' ']) ++
    ((if line.isNode then "NODE: ".toList else "LEAF: ".toList) ++
      pointerText line.word ++ ['\n'])

theorem Line.text_eq (line : Line) :
    line.text = List.replicate (3 * line.level) ' ' ++ line.body := by
  rw [Line.text, indentation, List.append_assoc]
  rfl

theorem Line.body_stopsAt (line : Line) (rest : Text) :
    Library.StopsAt (· == ' ') (line.body ++ rest) := by
  intro char here
  rw [Line.body] at here
  split at here
  · split at here
    · cases here
      rfl
    · cases here
      rfl
  · cases here
    rfl

/-- The kind and the word of a line. -/
theorem pointer_inj {isNode other : Bool} {word image : BitVec 64} {rest tail : Text}
    (same :
      (if isNode then "NODE: ".toList else "LEAF: ".toList) ++
          (pointerText word ++ '\n' :: rest) =
        (if other then "NODE: ".toList else "LEAF: ".toList) ++
          (pointerText image ++ '\n' :: tail)) :
    isNode = other ∧ word = image ∧ rest = tail := by
  have kinds : isNode = other := by
    cases isNode with
    | false =>
        cases other with
        | false => rfl
        | true => cases same
    | true =>
        cases other with
        | false => cases same
        | true => rfl
  subst kinds
  have words := List.append_cancel_left same
  obtain ⟨number, rests⟩ :=
    hex_inj newline_not_mem_hex (List.cons.inj (List.cons.inj words).2).2
  exact ⟨rfl, BitVec.eq_of_toNat_eq number, rests⟩

/-- A line in front of other text is told apart. -/
theorem Line.text_inj {line other : Line} (proper : line.Proper)
    (otherProper : other.Proper) {rest tail : Text}
    (same : line.text ++ rest = other.text ++ tail) : line = other ∧ rest = tail := by
  rw [Line.text_eq, Line.text_eq, List.append_assoc, List.append_assoc] at same
  obtain ⟨blanks, bodies⟩ :=
    run_inj (· == ' ')
      (fun char member => by rw [List.eq_of_mem_replicate member]; rfl)
      (fun char member => by rw [List.eq_of_mem_replicate member]; rfl)
      (line.body_stopsAt rest) (other.body_stopsAt tail) same
  obtain ⟨level, index, isNode, word⟩ := line
  obtain ⟨otherLevel, otherIndex, otherIsNode, image⟩ := other
  have levels : level = otherLevel := by
    have lengths := congrArg List.length blanks
    simp only [List.length_replicate] at lengths
    omega
  subst levels
  by_cases root : level = 0
  · have indices : index = otherIndex := (proper root).trans (otherProper root).symm
    simp only [Line.body, root, if_true, List.nil_append, List.append_assoc,
      List.cons_append] at bodies
    obtain ⟨kinds, words, rests⟩ := pointer_inj bodies
    rw [indices, kinds, words]
    exact ⟨rfl, rests⟩
  · simp only [Line.body, root, if_false, List.cons_append, List.append_assoc,
      List.cons.injEq, true_and, List.nil_append] at bodies
    obtain ⟨indices, behind⟩ := hex_inj bracket_not_mem_hex bodies
    obtain ⟨kinds, words, rests⟩ := pointer_inj (List.cons.inj behind).2
    rw [indices, kinds, words]
    exact ⟨rfl, rests⟩

theorem Line.text_ne_nil (line : Line) : line.text ≠ [] := by
  rw [Line.text, ← List.append_assoc]
  exact List.append_ne_nil_of_right_ne_nil _ (List.cons_ne_nil _ _)

/-- A text of lines shows its lines. -/
theorem lines_inj :
    ∀ {lines others : List Line}, (∀ line ∈ lines, line.Proper) →
      (∀ line ∈ others, line.Proper) →
      lines.flatMap Line.text = others.flatMap Line.text → lines = others
  | [], [], _, _, _ => rfl
  | [], other :: _, _, _, same => by
      rw [List.flatMap_cons] at same
      exact absurd (List.append_eq_nil_iff.mp same.symm).1 other.text_ne_nil
  | line :: _, [], _, _, same => by
      rw [List.flatMap_cons] at same
      exact absurd (List.append_eq_nil_iff.mp same).1 line.text_ne_nil
  | line :: rest, other :: tail, proper, otherProper, same => by
      rw [List.flatMap_cons, List.flatMap_cons] at same
      obtain ⟨heads, rests⟩ :=
        Line.text_inj (proper line List.mem_cons_self)
          (otherProper other List.mem_cons_self) same
      rw [heads, lines_inj (fun line member => proper line (List.mem_cons_of_mem _ member))
        (fun line member => otherProper line (List.mem_cons_of_mem _ member)) rests]

/-! ## The lines of a tree -/

namespace Tree

variable (location : Nat → BitVec 64)

/-- The slot a line on the given level belongs to. -/
def slotMark (level : Nat) (line : Line) : Option Nat :=
  if line.level = level then some line.index else none

theorem le_level_of_mem_lines :
    ∀ {t : Tree} {level index : Nat},
      ∀ line ∈ t.lines location level index, level ≤ line.level
  | .empty, _, _, _, impossible => by cases impossible
  | .leaf _, _, _, line, member => by
      rw [lines, List.mem_singleton] at member
      rw [member]
  | .node _ _ _ slots, level, _, line, member => by
      rw [lines, List.mem_cons] at member
      cases member with
      | inl first => rw [first]
      | inr below =>
          obtain ⟨i, _, inside⟩ := List.mem_flatMap.mp below
          exact Nat.le_of_succ_le (le_level_of_mem_lines line inside)
  | .dangling _ _, _, _, _, impossible => by cases impossible

theorem lines_proper (t : Tree) : ∀ line ∈ t.lines location 0 0, line.Proper := by
  intro line member root
  cases t with
  | empty => cases member
  | leaf object =>
      rw [lines, List.mem_singleton] at member
      rw [member]
  | node lead address nr slots =>
      rw [lines, List.mem_cons] at member
      cases member with
      | inl first => rw [first]
      | inr below =>
          obtain ⟨i, _, inside⟩ := List.mem_flatMap.mp below
          have deep := le_level_of_mem_lines location line inside
          omega
  | dangling lead next => cases member

/-- The lines of a subtree start with the line of its slot. -/
theorem lines_headed (t : Tree) (level index : Nat) :
    Headed (slotMark level) index (t.lines location level index) := by
  cases t with
  | empty => exact .inl rfl
  | dangling lead next => exact .inl rfl
  | leaf object =>
      exact .inr ⟨_, [], rfl, if_pos rfl, fun _ member => by cases member⟩
  | node lead address nr slots =>
      refine .inr ⟨_, _, rfl, if_pos rfl, fun line member => ?_⟩
      obtain ⟨i, _, inside⟩ := List.mem_flatMap.mp member
      have deep := le_level_of_mem_lines location line inside
      exact if_neg (by omega)

theorem Copies.leaves_eq {t u : Tree} (copies : t.Copies u) :
    t.leaves = u.leaves := by
  induction copies with
  | empty => rfl
  | leaf object => rfl
  | node address other nr alike inductionHypothesis =>
      simp only [leaves, inductionHypothesis]

/-- Trees with the same lines are copies of each other. -/
theorem copies_of_lines (image : Nat → BitVec 64) :
    ∀ {t u : Tree} {level index : Nat}, t.Leadless → u.Leadless →
      t.Counted → u.Counted →
        t.lines location level index = u.lines image level index → t.Copies u
  | .empty, u, level, index, _, leadless, _, _, same => by
      cases u with
      | empty => exact .empty
      | leaf object => cases same
      | node lead address nr slots => cases same
      | dangling lead next => exact False.elim leadless
  | .leaf object, u, level, index, _, leadless, _, _, same => by
      cases u with
      | empty => cases same
      | leaf other =>
          have words : object.word = other.word := by
            simp only [lines, List.cons.injEq, Line.mk.injEq, true_and,
              and_true] at same
            exact same
          have objects : object = other := by
            cases object
            cases other
            cases words
            rfl
          exact objects ▸ .leaf object
      | node lead address nr slots =>
          simp [lines] at same
      | dangling lead next => exact False.elim leadless
  | .node lead address nr slots, u, level, index, leadless, otherLeadless, counted,
      otherCounted, same => by
      cases u with
      | empty => cases same
      | leaf object => simp [lines] at same
      | dangling lead next => exact False.elim otherLeadless
      | node otherLead other otherNr children =>
          obtain ⟨rfl, plain⟩ := leadless
          obtain ⟨rfl, otherPlain⟩ := otherLeadless
          rw [lines, lines, List.cons.injEq] at same
          have blocks :=
            Headed.recovered Fin.val_injective
              (List.nodup_finRange assocArrayFanOut)
              (fun i _ => lines_headed location (slots i) (level + 1) i)
              (fun i _ => lines_headed image (children i) (level + 1) i) same.2
          have alike : ∀ i, (slots i).Copies (children i) := fun i =>
            copies_of_lines image (plain i) (otherPlain i) (counted.2 i)
              (otherCounted.2 i) (blocks i (List.mem_finRange i))
          have counts : nr = otherNr := by
            rw [counted.1, otherCounted.1]
            simp only [(alike _).leaves_eq]
          exact counts ▸ .node address other nr alike
  | .dangling _ _, _, _, _, leadless, _, _, _, _ => False.elim leadless

end Tree

/-- Two arrays whose counts are right and whose printouts come to an end with the
same text have the same shape, leaves and counts. -/
theorem assocArrayPrint_determines
    {heap otherHeap : Heap Object} {array other : AssocArray} {t u : Tree}
    (wellFormed : WellFormed heap array t) (counted : t.Counted)
    (otherWellFormed : WellFormed otherHeap other u) (otherCounted : u.Counted)
    (location image : Nat → BitVec 64) :
    ∃ depth, ∀ fuel, depth ≤ fuel →
      (assocArrayPrint location heap fuel array).ending = .finished →
        assocArrayPrint location heap fuel array =
            assocArrayPrint image otherHeap fuel other →
          t.Copies u := by
  obtain ⟨depth, enough⟩ :=
    assocArrayPrintPtr_represented location wellFormed.represented 0 0
  obtain ⟨otherDepth, otherEnough⟩ :=
    assocArrayPrintPtr_represented image otherWellFormed.represented 0 0
  refine ⟨max depth otherDepth, fun fuel deep finished same => ?_⟩
  have shown := enough fuel (by omega)
  have otherShown := otherEnough fuel (by omega)
  rw [assocArrayPrint, wellFormed.root_ptr, shown] at finished same
  rw [assocArrayPrint, otherWellFormed.root_ptr, otherShown] at same
  have leadless : t.Leadless := by
    by_contra shortcut
    rw [(t.printed_ending location 0 0).2 shortcut] at finished
    cases finished
  have otherLeadless : u.Leadless := by
    by_contra shortcut
    rw [same, (u.printed_ending image 0 0).2 shortcut] at finished
    cases finished
  rw [t.printed_of_leadless location leadless,
    u.printed_of_leadless image otherLeadless] at same
  have lines := lines_inj (t.lines_proper location) (u.lines_proper image)
    (congrArg Printed.text same)
  exact Tree.copies_of_lines location image leadless otherLeadless counted otherCounted
    lines

theorem tower_counted (root child : Nat) :
    (Tree.node none root 3 (towerSlots child)).Counted := by
  refine ⟨rfl, fun i => ?_⟩
  rw [towerSlots]
  split
  · trivial
  · split
    · refine ⟨by decide, fun j => ?_⟩
      rw [pairSlots]
      split
      · trivial
      · split <;> trivial
    · trivial

/-- The tower with its nodes at each other's address. -/
def swappedHeap : Heap Object :=
  Heap.ofList
    [.node ⟨.node 1, 4, fun i => (pairSlots i).ptr, 2⟩,
      .node ⟨.null, 0, fun i => (towerSlots 0 i).ptr, 3⟩]

/-- Where the nodes of `swappedHeap` are in memory. -/
def swapped (address : Nat) : BitVec 64 :=
  BitVec.ofNat 64 (1 - address)

/-- The two towers have one printout, and are copies of each other. -/
theorem assocArrayPrint_determines_tower :
    (∃ fuel,
      (assocArrayPrint (BitVec.ofNat 64) towerHeap fuel ⟨.node 0, 3⟩).ending =
          .finished ∧
        assocArrayPrint (BitVec.ofNat 64) towerHeap fuel ⟨.node 0, 3⟩ =
          assocArrayPrint swapped swappedHeap fuel ⟨.node 1, 3⟩) ∧
      (Tree.node none 0 3 (towerSlots 1)).Copies
        (.node none 1 3 (towerSlots 0)) := by
  have swappedArray_wellFormed :
      WellFormed swappedHeap ⟨.node 1, 3⟩ (.node none 1 3 (towerSlots 0)) :=
    tower_wellFormed rfl rfl
  obtain ⟨depth, determines⟩ :=
    assocArrayPrint_determines towerArray_wellFormed (tower_counted 0 1)
      swappedArray_wellFormed (tower_counted 1 0) (BitVec.ofNat 64) swapped
  obtain ⟨towerDepth, tower⟩ :=
    assocArrayPrint_ends towerArray_wellFormed (BitVec.ofNat 64)
  obtain ⟨swappedDepth, other⟩ :=
    assocArrayPrint_ends swappedArray_wellFormed swapped
  have shown :=
    (tower (max depth (max towerDepth swappedDepth)) (by omega)).1
      (tower_leadless 0 1)
  have otherShown :=
    (other (max depth (max towerDepth swappedDepth)) (by omega)).1
      (tower_leadless 1 0)
  have sameLines :
      (Tree.node none 0 3 (towerSlots 1)).lines (BitVec.ofNat 64) 0 0 =
        (Tree.node none 1 3 (towerSlots 0)).lines swapped 0 0 := by
    decide +kernel
  rw [← sameLines] at otherShown
  have finished :
      (assocArrayPrint (BitVec.ofNat 64) towerHeap
        (max depth (max towerDepth swappedDepth)) ⟨.node 0, 3⟩).ending =
          .finished := by
    rw [shown]
    rfl
  exact
    ⟨⟨_, finished, shown.trans otherShown.symm⟩,
      determines _ (by omega) finished (shown.trans otherShown.symm)⟩

end KernelStuff.AssocArrayGc
