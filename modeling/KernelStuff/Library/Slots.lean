import Mathlib.Algebra.BigOperators.Fin
import Mathlib.Algebra.BigOperators.Group.Finset.Piecewise
import Mathlib.Data.List.FinRange
import Mathlib.Data.List.Sort

/-!
# Arrays of slots

A fixed-size array is a function on `Fin n`, and overwriting one slot is
`Function.update`.  Sums over the slots follow an overwrite by exchanging one
summand, so they are stated without subtraction.
-/

namespace KernelStuff.Library

universe u v

section Slots

variable {n : Nat} {Content : Type u}

/-- Overwriting a slot exchanges one summand. -/
theorem sum_update_exchange
    {Total : Type v} [AddCommMonoid Total]
    (measure : Content → Total)
    (slots : Fin n → Content) (index : Fin n) (content : Content) :
    ∑ i, measure (Function.update slots index content i) +
        measure (slots index) =
      ∑ i, measure (slots i) + measure content := by
  have split :
      ∀ total : Fin n → Total,
        ∑ i, total i =
          total index + ∑ i ∈ Finset.univ.erase index, total i :=
    fun total => (Finset.add_sum_erase _ total (Finset.mem_univ index)).symm
  have elsewhere :
      ∑ i ∈ Finset.univ.erase index,
          measure (Function.update slots index content i) =
        ∑ i ∈ Finset.univ.erase index, measure (slots i) := by
    apply Finset.sum_congr rfl
    intro i member
    rw [Function.update_of_ne (Finset.ne_of_mem_erase member)]
  rw [split fun i => measure (Function.update slots index content i),
    split fun i => measure (slots i), elsewhere, Function.update_self]
  ac_rfl

/-- Counting is a sum of indicators. -/
theorem countP_eq_sum_map (test : Content → Bool) (items : List Content) :
    items.countP test =
      (items.map fun item => if test item then 1 else 0).sum := by
  induction items with
  | nil => rfl
  | cons head tail inductionHypothesis =>
      rw [List.countP_cons, List.map_cons, List.sum_cons, inductionHypothesis,
        Nat.add_comm]

theorem countP_finRange_eq_sum (test : Fin n → Bool) :
    (List.finRange n).countP test = ∑ i, if test i then 1 else 0 := by
  rw [Fin.sum_univ_def, countP_eq_sum_map]

/-- A measure that vanishes off a list without duplicates is summed over the
list. -/
theorem sum_eq_list_sum
    {Total : Type v} [AddCommMonoid Total]
    (measure : Fin n → Total) {items : List (Fin n)}
    (nodup : items.Nodup)
    (vanishes : ∀ i, i ∉ items → measure i = 0) :
    ∑ i, measure i = (items.map measure).sum := by
  rw [← List.sum_toFinset measure nodup]
  symm
  apply Finset.sum_subset (Finset.subset_univ _)
  intro i _ absent
  exact vanishes i fun member => absent (List.mem_toFinset.mpr member)

/-- The slots before and after one slot are the smaller and the larger ones. -/
theorem finRange_split
    {before after : List (Fin n)} {i : Fin n}
    (split : List.finRange n = before ++ i :: after) :
    (∀ j, j ∈ before ↔ j < i) ∧ ∀ j, j ∈ after ↔ i < j := by
  have sorted := (List.sortedLT_finRange n).pairwise
  rw [split] at sorted
  obtain ⟨_, later, across⟩ := List.pairwise_append.mp sorted
  have beforeLt : ∀ j, j ∈ before → j < i :=
    fun j member => across j member i List.mem_cons_self
  have afterLt : ∀ j, j ∈ after → i < j :=
    fun j member => (List.pairwise_cons.mp later).1 j member
  have located : ∀ j, j ∈ before ∨ j = i ∨ j ∈ after := by
    intro j
    have member := List.mem_finRange j
    rw [split, List.mem_append, List.mem_cons] at member
    exact member
  constructor
  · intro j
    refine ⟨beforeLt j, fun less => ?_⟩
    rcases located j with early | same | late
    · exact early
    · exact absurd less (by rw [same]; exact lt_irrefl i)
    · exact absurd less (lt_asymm (afterLt j late))
  · intro j
    refine ⟨afterLt j, fun less => ?_⟩
    rcases located j with early | same | late
    · exact absurd less (lt_asymm (beforeLt j early))
    · exact absurd less (by rw [same]; exact lt_irrefl i)
    · exact late

/-- Two runs over the slots that start together and take the same steps up to
slot `m` stay together up to there. -/
theorem steps_unique
    {State : Type v} {m : Nat} (next : Fin n → State → State)
    {first second : Nat → State}
    (start : first 0 = second 0)
    (left : ∀ i : Fin n, i.val < m → first (i.val + 1) = next i (first i.val))
    (right : ∀ i : Fin n, i.val < m →
      second (i.val + 1) = next i (second i.val)) :
    ∀ k, k ≤ m → k ≤ n → first k = second k := by
  intro k
  induction k with
  | zero => exact fun _ _ => start
  | succ k inductionHypothesis =>
      intro within bound
      rw [left ⟨k, bound⟩ within, right ⟨k, bound⟩ within,
        inductionHypothesis (by omega) (by omega)]

/-- What every slot appends to in turn ends with the parts of all slots in
order. -/
theorem append_of_steps (values : Nat → List Content) :
    ∀ {n : Nat} (parts : Fin n → List Content),
      (∀ i : Fin n, values (i.val + 1) = values i.val ++ parts i) →
        values n = values 0 ++ (List.finRange n).flatMap parts
  | 0, parts, _ => by
      rw [List.finRange_zero, List.flatMap_nil, List.append_nil]
  | n + 1, parts, steps => by
      have earlier :=
        append_of_steps values (fun i : Fin n => parts i.castSucc)
          fun i => steps i.castSucc
      have last := steps (Fin.last n)
      rw [Fin.val_last, earlier] at last
      rw [last, List.finRange_succ_last, List.flatMap_append, List.flatMap_map,
        List.flatMap_singleton, List.append_assoc]

/-- A property that every slot narrows by a condition of its own. -/
theorem forall_of_steps (holds : Nat → Prop) :
    ∀ {n : Nat} (part : Fin n → Prop),
      (∀ i : Fin n, holds (i.val + 1) ↔ holds i.val ∧ part i) →
        (holds n ↔ holds 0 ∧ ∀ i, part i)
  | 0, part, _ => ⟨fun held => ⟨held, fun i => i.elim0⟩, fun held => held.1⟩
  | n + 1, part, steps => by
      have earlier :=
        forall_of_steps holds (fun i : Fin n => part i.castSucc)
          fun i => steps i.castSucc
      have last := steps (Fin.last n)
      rw [Fin.val_last, earlier] at last
      rw [last, Fin.forall_fin_succ', and_assoc]

end Slots

end KernelStuff.Library
