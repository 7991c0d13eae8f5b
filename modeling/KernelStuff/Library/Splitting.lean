import Mathlib.Data.List.Infix

/-!
# Splitting at a separator

`Splits separator items blocks` says that `blocks` is the leftmost
non-overlapping split of `items`.  Every list has exactly one, and the first
occurrence that it rests on stays the first one when more items follow.
-/

namespace KernelStuff.Library

section Splitting

variable {Item : Type*} {separator : List Item}

/-! ## Occurrences -/

def OccursAt (separator items : List Item) (i : Nat) : Prop :=
  separator <+: items.drop i

/-- A found occurrence lies within the list. -/
theorem OccursAt.le_length
    {items : List Item} {i : Nat} (occurs : OccursAt separator items i)
    (nonempty : separator ≠ []) : i + separator.length ≤ items.length := by
  have length := occurs.length_le
  have positive := List.length_pos_of_ne_nil nonempty
  rw [List.length_drop] at length
  omega

/-- A list around its first occurrence. -/
theorem OccursAt.eq_append
    {items : List Item} {i : Nat} (occurs : OccursAt separator items i) :
    items =
      items.take i ++ separator ++ items.drop (i + separator.length) := by
  obtain ⟨rest, split⟩ := occurs
  have tail : items.drop (i + separator.length) = rest := by
    rw [← List.drop_drop, ← split, List.drop_left]
  rw [tail, List.append_assoc, split, List.take_append_drop]

/-- Whether there is an occurrence shows before anything follows it. -/
theorem occursAt_append_iff
    {items : List Item} {i : Nat} (more : List Item)
    (within : i + separator.length ≤ items.length) :
    OccursAt separator (items ++ more) i ↔ OccursAt separator items i := by
  have inside : separator.length ≤ (items.drop i).length := by
    rw [List.length_drop]
    omega
  rw [OccursAt, OccursAt, List.drop_append_of_le_length (by omega)]
  constructor
  · intro occurs
    exact
      List.prefix_of_prefix_length_le occurs (List.prefix_append _ _) inside
  · intro occurs
    exact occurs.trans (List.prefix_append _ _)

/-! ## Splits -/

/-- A block ends at the first occurrence of the separator, and the rest is split
in the same way; the last block goes to the end. -/
inductive Splits (separator : List Item) :
    List Item → List (List Item) → Prop where
  | last {items : List Item} :
      (∀ i, ¬ OccursAt separator items i) → Splits separator items [items]
  | next {block rest : List Item} {blocks : List (List Item)} :
      (∀ i, i < block.length →
        ¬ OccursAt separator (block ++ separator ++ rest) i) →
      Splits separator rest blocks →
      Splits separator (block ++ separator ++ rest) (block :: blocks)

theorem Splits.ne_nil {items : List Item} {blocks : List (List Item)}
    (splits : Splits separator items blocks) : blocks ≠ [] := by
  cases splits <;> exact List.cons_ne_nil _ _

/-- Nothing is lost or repeated. -/
theorem Splits.intercalate_eq {items : List Item} {blocks : List (List Item)}
    (splits : Splits separator items blocks) :
    separator.intercalate blocks = items := by
  induction splits with
  | last _ => exact List.intercalate_singleton
  | @next block rest blocks _ others inductionHypothesis =>
      rw [List.intercalate_cons_of_ne_nil others.ne_nil, inductionHypothesis]

/-- The blocks without the last one if that is empty. -/
def withoutEmptyLast : List (List Item) → List (List Item)
  | [] => []
  | [[]] => []
  | block :: rest => block :: withoutEmptyLast rest

theorem withoutEmptyLast_append
    (front : List (List Item)) {blocks : List (List Item)}
    (nonempty : blocks ≠ []) :
    withoutEmptyLast (front ++ blocks) = front ++ withoutEmptyLast blocks := by
  induction front with
  | nil => rfl
  | cons block rest inductionHypothesis =>
      have more : rest ++ blocks ≠ [] :=
        List.append_ne_nil_of_right_ne_nil _ nonempty
      obtain ⟨next, others, split⟩ := List.exists_cons_of_ne_nil more
      rw [List.cons_append, split, List.cons_append, ← inductionHypothesis,
        split]
      cases block <;> rfl

/-! ## Searching -/

variable [DecidableEq Item]

/-- The position of the first occurrence. -/
def findIndex (separator : List Item) : List Item → Option Nat
  | [] => if separator = [] then some 0 else none
  | item :: rest =>
      if separator.isPrefixOf (item :: rest) then some 0
      else (findIndex separator rest).map (· + 1)

theorem findIndex_eq_none :
    ∀ {items : List Item}, findIndex separator items = none →
      ∀ i, ¬ OccursAt separator items i
  | [], missing, i, occurs => by
      rw [OccursAt, List.drop_nil, List.prefix_nil] at occurs
      rw [findIndex, if_pos occurs] at missing
      cases missing
  | item :: rest, missing, i, occurs => by
      rw [findIndex] at missing
      split at missing
      · cases missing
      · next notHere =>
          rw [List.isPrefixOf_iff_prefix] at notHere
          rw [Option.map_eq_none_iff] at missing
          cases i with
          | zero => exact notHere occurs
          | succ i => exact findIndex_eq_none missing i occurs

theorem findIndex_eq_some :
    ∀ {items : List Item} {ix : Nat}, findIndex separator items = some ix →
      OccursAt separator items ix ∧
        ∀ i, i < ix → ¬ OccursAt separator items i
  | [], ix, found => by
      rw [findIndex] at found
      split at found
      · next isNil =>
          cases found
          exact ⟨isNil ▸ List.nil_prefix, nofun⟩
      · cases found
  | item :: rest, ix, found => by
      rw [findIndex] at found
      split at found
      · next here =>
          cases found
          exact ⟨List.isPrefixOf_iff_prefix.mp here, nofun⟩
      · next notHere =>
          rw [List.isPrefixOf_iff_prefix] at notHere
          obtain ⟨before, foundBefore, rfl⟩ := Option.map_eq_some_iff.mp found
          obtain ⟨occurs, first⟩ := findIndex_eq_some foundBefore
          refine ⟨occurs, ?_⟩
          intro i earlier
          cases i with
          | zero => exact notHere
          | succ i => exact first i (by omega)

/-- More items do not change the first occurrence. -/
theorem findIndex_append
    (nonempty : separator ≠ []) {items : List Item} {ix : Nat}
    (found : findIndex separator items = some ix) (more : List Item) :
    findIndex separator (items ++ more) = some ix := by
  induction items generalizing ix with
  | nil =>
      rw [findIndex, if_neg nonempty] at found
      cases found
  | cons item rest inductionHypothesis =>
      rw [findIndex] at found
      split at found
      · next here =>
          cases found
          rw [List.isPrefixOf_iff_prefix] at here
          rw [List.cons_append, findIndex, if_pos]
          rw [List.isPrefixOf_iff_prefix, ← List.cons_append]
          exact here.trans (List.prefix_append _ _)
      · next notHere =>
          obtain ⟨before, foundBefore, rfl⟩ := Option.map_eq_some_iff.mp found
          have within :=
            (findIndex_eq_some foundBefore).1.le_length nonempty
          have stillNotHere : ¬ separator <+: item :: (rest ++ more) := by
            intro here
            apply notHere
            rw [List.isPrefixOf_iff_prefix]
            apply List.prefix_of_prefix_length_le here
            · rw [← List.cons_append]
              exact List.prefix_append _ _
            · rw [List.length_cons]
              omega
          rw [List.cons_append, findIndex, if_neg
            (mt List.isPrefixOf_iff_prefix.mp stillNotHere),
            inductionHypothesis foundBefore, Option.map_some]

/-! ## Finding a split -/

namespace Splits

/-- The program's way to find the first block. -/
theorem ofFindIndex {items : List Item} {ix : Nat}
    {blocks : List (List Item)}
    (found : findIndex separator items = some ix)
    (others :
      Splits separator (items.drop (ix + separator.length)) blocks) :
    Splits separator items (items.take ix :: blocks) := by
  obtain ⟨occurs, first⟩ := findIndex_eq_some found
  have around := occurs.eq_append
  have splits :
      Splits separator
        (items.take ix ++ separator ++ items.drop (ix + separator.length))
        (items.take ix :: blocks) := by
    apply next _ others
    intro i earlier
    rw [← around]
    apply first
    rw [List.length_take] at earlier
    omega
  rw [← around] at splits
  exact splits

/-- The first block is found by looking for the separator. -/
theorem eq_of_findIndex {items : List Item} {ix : Nat}
    {blocks : List (List Item)} (splits : Splits separator items blocks)
    (found : findIndex separator items = some ix) :
    ∃ others,
      blocks = items.take ix :: others ∧
        Splits separator (items.drop (ix + separator.length)) others := by
  obtain ⟨occurs, first⟩ := findIndex_eq_some found
  cases splits with
  | last nowhere => exact absurd occurs (nowhere ix)
  | @next block rest others earlier tail =>
      have here :
          OccursAt separator (block ++ separator ++ rest) block.length := by
        rw [OccursAt, List.append_assoc, List.drop_left]
        exact List.prefix_append _ _
      have same : ix = block.length := by
        by_contra different
        rcases Nat.lt_or_gt_of_ne different with before | after
        · exact earlier ix before occurs
        · exact first block.length after here
      subst same
      refine ⟨others, ?_, ?_⟩
      · rw [List.append_assoc, List.take_left]
      · rw [← List.length_append, List.drop_left]
        exact tail

theorem eq_of_findIndex_none {items : List Item} {blocks : List (List Item)}
    (splits : Splits separator items blocks)
    (missing : findIndex separator items = none) : blocks = [items] := by
  have nowhere := findIndex_eq_none missing
  cases splits with
  | last _ => rfl
  | @next block rest others earlier tail =>
      apply absurd _ (nowhere block.length)
      rw [OccursAt, List.append_assoc, List.drop_left]
      exact List.prefix_append _ _

/-- The first block ends where the separator is found first. -/
theorem head_eq
    {head rest : List Item} {blocks : List (List Item)}
    (splits : Splits separator (head ++ separator ++ rest) (head :: blocks))
    (nonempty : separator ≠ []) :
    (∀ i, i < head.length → ¬ OccursAt separator (head ++ separator) i) ∧
      Splits separator rest blocks := by
  have here :
      OccursAt separator (head ++ separator ++ rest) head.length := by
    rw [OccursAt, List.append_assoc, List.drop_left]
    exact List.prefix_append _ _
  cases found : findIndex separator (head ++ separator ++ rest) with
  | none => exact absurd here (findIndex_eq_none found head.length)
  | some ix =>
      obtain ⟨occurs, first⟩ := findIndex_eq_some found
      obtain ⟨others, same, tail⟩ := splits.eq_of_findIndex found
      obtain ⟨headEq, rfl⟩ := List.cons.inj same
      have notLater : ix ≤ head.length := by
        by_contra later
        exact first head.length (by omega) here
      have within := occurs.le_length nonempty
      have length := congrArg List.length headEq
      rw [List.length_take] at length
      have atEnd : ix = head.length := by omega
      subst atEnd
      constructor
      · intro i earlier
        have fits : i + separator.length ≤ (head ++ separator).length := by
          rw [List.length_append]
          omega
        rw [← occursAt_append_iff rest fits]
        exact first i earlier
      · rw [← List.length_append, List.drop_left] at tail
        exact tail

/-- There is a split. -/
theorem exists_splits (nonempty : separator ≠ []) (items : List Item) :
    ∃ blocks, Splits separator items blocks := by
  cases found : findIndex separator items with
  | none => exact ⟨[items], last (findIndex_eq_none found)⟩
  | some ix =>
      have within := (findIndex_eq_some found).1.le_length nonempty
      have positive := List.length_pos_of_ne_nil nonempty
      have shorter :
          (items.drop (ix + separator.length)).length < items.length := by
        rw [List.length_drop]
        omega
      obtain ⟨others, rest⟩ :=
        exists_splits nonempty (items.drop (ix + separator.length))
      exact ⟨_, ofFindIndex found rest⟩
termination_by items.length

/-- There is only one. -/
theorem unique (nonempty : separator ≠ []) {items : List Item}
    {blocks other : List (List Item)}
    (left : Splits separator items blocks)
    (right : Splits separator items other) : blocks = other := by
  cases found : findIndex separator items with
  | none =>
      rw [left.eq_of_findIndex_none found, right.eq_of_findIndex_none found]
  | some ix =>
      obtain ⟨rest, rfl, leftRest⟩ := left.eq_of_findIndex found
      obtain ⟨otherRest, rfl, rightRest⟩ :=
        right.eq_of_findIndex found
      have within := (findIndex_eq_some found).1.le_length nonempty
      have positive := List.length_pos_of_ne_nil nonempty
      have shorter :
          (items.drop (ix + separator.length)).length < items.length := by
        rw [List.length_drop]
        omega
      rw [unique nonempty leftRest rightRest]
termination_by items.length

end Splits

end Splitting

end KernelStuff.Library
