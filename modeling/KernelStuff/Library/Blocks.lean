import Mathlib.Data.Vector.Defs
import Mathlib.Data.List.Basic
import Mathlib.Data.List.ModifyLast

/-!
# Blocks of a fixed size

A growing buffer kept as a list of blocks of `n` items.  Its content is the
blocks' items in order, cut off at the length in use.
-/

namespace KernelStuff.Library

universe u

/-- A block of `n` items. -/
abbrev Block (Content : Type u) (n : Nat) := List.Vector Content n

section Blocks

variable {Content : Type u} {n : Nat}

/-- Overwrite the items of a block from `offset` on, as far as they fit. -/
def Block.put (block : Block Content n) (offset : Nat) (items : List Content) :
    Block Content n :=
  ⟨(block.toList.take offset ++ items ++
      block.toList.drop (offset + items.length)).take n, by
    rw [List.length_take, List.length_append, List.length_append,
      List.length_take, List.length_drop, block.toList_length]
    omega⟩

theorem Block.put_toList
    (block : Block Content n) {offset : Nat} {items : List Content}
    (fits : offset + items.length ≤ n) :
    (block.put offset items).toList =
      block.toList.take offset ++ items ++
        block.toList.drop (offset + items.length) := by
  apply List.take_of_length_le
  rw [List.length_append, List.length_append, List.length_take,
    List.length_drop, block.toList_length]
  omega

/-- The items of all blocks. -/
def items (blocks : List (Block Content n)) : List Content :=
  blocks.flatMap fun block => block.toList

theorem items_append (first second : List (Block Content n)) :
    items (first ++ second) = items first ++ items second :=
  List.flatMap_append

theorem items_length (blocks : List (Block Content n)) :
    (items blocks).length = blocks.length * n := by
  induction blocks with
  | nil => exact (Nat.zero_mul n).symm
  | cons head tail inductionHypothesis =>
      change (head.toList ++ items tail).length = _
      rw [List.length_append, inductionHypothesis, head.toList_length,
        List.length_cons, Nat.succ_mul, Nat.add_comm]

/-- Overwriting the last block from `offset` on changes nothing before it. -/
theorem take_items_put
    (before : List (Block Content n)) (block : Block Content n)
    {offset length : Nat} {values : List Content}
    (within : offset ≤ n) (early : length ≤ before.length * n + offset) :
    (items (before ++ [block.put offset values])).take length =
      (items (before ++ [block])).take length := by
  have head :
      (block.put offset values).toList.take offset =
        block.toList.take offset := by
    change ((block.toList.take offset ++ values ++ _).take n).take offset = _
    rw [List.take_take, Nat.min_eq_left within, List.append_assoc,
      List.take_append_of_le_length, List.take_take, Nat.min_self]
    rw [List.length_take, block.toList_length]
    omega
  have short : length - (items before).length ≤ offset := by
    rw [items_length]
    omega
  simp only [items_append, List.take_append]
  congr 1
  change ((block.put offset values).toList ++ []).take _ =
    (block.toList ++ []).take _
  rw [List.append_nil, List.append_nil]
  have both := congrArg (List.take (length - (items before).length)) head
  rw [List.take_take, List.take_take, Nat.min_eq_left short] at both
  exact both

/-- Writing right behind the content appends to it. -/
theorem take_items_put_append
    (before : List (Block Content n)) (block : Block Content n)
    {offset : Nat} {values : List Content}
    (fits : offset + values.length ≤ n) :
    (items (before ++ [block.put offset values])).take
        (before.length * n + offset + values.length) =
      (items (before ++ [block])).take (before.length * n + offset) ++
        values := by
  have total : (items before).length = before.length * n :=
    items_length before
  have first :
      (items [block.put offset values]).take (offset + values.length) =
        block.toList.take offset ++ values := by
    change ((block.put offset values).toList ++ []).take _ = _
    rw [List.append_nil, block.put_toList fits]
    apply List.take_left'
    rw [List.length_append, List.length_take, block.toList_length]
    omega
  have second :
      (items [block]).take offset = block.toList.take offset := by
    change (block.toList ++ []).take _ = _
    rw [List.append_nil]
  rw [items_append, items_append, Nat.add_assoc, ← total,
    List.take_length_add_append, List.take_length_add_append, first, second,
    List.append_assoc]

/-- Items that do not cross a block border can be taken from the block. -/
theorem take_drop_items
    {blocks : List (Block Content n)} {q r length : Nat}
    {block : Block Content n} {rest : List (Block Content n)}
    (found : blocks.drop q = block :: rest)
    (fits : r + length ≤ n) :
    (block.toList.drop r).take length =
      ((items blocks).drop (q * n + r)).take length := by
  have bound : q ≤ blocks.length := by
    by_contra beyond
    rw [List.drop_of_length_le (by omega)] at found
    cases found
  have split := List.take_append_drop q blocks
  rw [found] at split
  have before : (items (blocks.take q)).length = q * n := by
    rw [items_length, List.length_take, Nat.min_eq_left bound]
  rw [← split, items_append, ← before, ← List.drop_drop, List.drop_left]
  change _ = ((block.toList ++ items rest).drop r).take length
  have enough : r ≤ block.toList.length := by
    rw [block.toList_length]
    omega
  rw [List.drop_append_of_le_length enough, List.take_append_of_le_length]
  rw [List.length_drop, block.toList_length]
  omega

end Blocks

end KernelStuff.Library
