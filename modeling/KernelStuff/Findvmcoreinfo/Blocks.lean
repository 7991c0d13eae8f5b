import KernelStuff.Library.Splitting

/-!
# The script findvmcoreinfo

The script searches what `strings` finds in a core file for something that looks
like a vmcoreinfo.  `yield_blocks` reads the output in chunks of any size and
cuts it into blocks at a separator.
-/

namespace KernelStuff.Findvmcoreinfo

open KernelStuff.Library

/-- With an empty separator `yield_blocks` yields empty blocks for ever. -/
structure Separator where
  bytes : List UInt8
  nonempty : bytes ≠ []

section Blocks

variable (sep : Separator)

theorem drop_lt {buf : List UInt8} {ix : Nat}
    (found : findIndex sep.bytes buf = some ix) :
    (buf.drop (ix + sep.bytes.length)).length < buf.length := by
  have within := (findIndex_eq_some found).1.le_length sep.nonempty
  have positive := List.length_pos_of_ne_nil sep.nonempty
  rw [List.length_drop]
  omega

/-- The inner loop: the blocks it yields, and what remains in `buf`. -/
def cutBlocks (buf : List UInt8) : List (List UInt8) × List UInt8 :=
  match _found : findIndex sep.bytes buf with
  | none => ([], buf)
  | some ix =>
      let after := cutBlocks (buf.drop (ix + sep.bytes.length))
      (buf.take ix :: after.1, after.2)
termination_by buf.length
decreasing_by exact drop_lt sep _found

/-- What is yielded at the end. -/
def lastBlock (buf : List UInt8) : List (List UInt8) :=
  if buf = [] then [] else [buf]

/-- `yield_blocks` from the state `buf` on.  The list holds what the reads
return; the reads after it return nothing. -/
def yieldBlocks : List (List UInt8) → List UInt8 → List (List UInt8)
  | [], buf => lastBlock buf
  | data :: reads, buf =>
      if data.length = 0 then lastBlock buf
      else
        let (blocks, rest) := cutBlocks sep (buf ++ data)
        blocks ++ yieldBlocks reads rest

end Blocks

/-- `b"||||"`. -/
def bars : Separator where
  bytes := [124, 124, 124, 124]
  nonempty := List.cons_ne_nil _ _

def contains (needle block : List UInt8) : Bool :=
  (findIndex needle block).isSome

/-- `b"OSRELEASE="`, `b"PAGESIZE="` and `b"SYMBOL("`. -/
def looksLikeVmcoreinfo (block : List UInt8) : Bool :=
  contains [79, 83, 82, 69, 76, 69, 65, 83, 69, 61] block &&
    contains [80, 65, 71, 69, 83, 73, 90, 69, 61] block &&
    contains [83, 89, 77, 66, 79, 76, 40] block

/-- What `main` writes to the output file, if anything. -/
def main (reads : List (List UInt8)) : Option (List UInt8) :=
  (yieldBlocks bars reads []).find? looksLikeVmcoreinfo

/-! ## Splitting as the stream arrives -/

section Splitting

variable (sep : Separator)

theorem findIndex_nil : findIndex sep.bytes [] = none :=
  if_neg sep.nonempty

theorem cutBlocks_of_none {buf : List UInt8}
    (missing : findIndex sep.bytes buf = none) :
    cutBlocks sep buf = ([], buf) := by
  rw [cutBlocks]
  split
  · rfl
  · next found => cases missing.symm.trans found

theorem cutBlocks_of_some {buf : List UInt8} {ix : Nat}
    (found : findIndex sep.bytes buf = some ix) :
    cutBlocks sep buf =
      (buf.take ix ::
          (cutBlocks sep (buf.drop (ix + sep.bytes.length))).1,
        (cutBlocks sep (buf.drop (ix + sep.bytes.length))).2) := by
  rw [cutBlocks]
  split
  · next missing => cases missing.symm.trans found
  · next foundAgain =>
      cases foundAgain.symm.trans found
      rfl

/-- The inner loop yields the first blocks of the whole stream, and leaves
nothing to be found. -/
theorem cutBlocks_splits
    (buf : List UInt8) {more : List UInt8} {blocks : List (List UInt8)}
    (splits : Splits sep.bytes (buf ++ more) blocks) :
    ∃ others,
      blocks = (cutBlocks sep buf).1 ++ others ∧
        Splits sep.bytes ((cutBlocks sep buf).2 ++ more) others ∧
        findIndex sep.bytes (cutBlocks sep buf).2 = none := by
  induction buf using cutBlocks.induct sep generalizing blocks with
  | case1 buf missing =>
      rw [cutBlocks_of_none sep missing]
      exact ⟨blocks, rfl, splits, missing⟩
  | case2 buf ix found inductionHypothesis =>
      have within := (findIndex_eq_some found).1.le_length sep.nonempty
      obtain ⟨rest, rfl, restSplits⟩ :=
        splits.eq_of_findIndex (findIndex_append sep.nonempty found more)
      rw [List.drop_append_of_le_length within] at restSplits
      obtain ⟨others, rfl, tail, nothing⟩ := inductionHypothesis restSplits
      rw [cutBlocks_of_some sep found]
      refine ⟨others, ?_, tail, nothing⟩
      rw [List.take_append_of_le_length (by omega), List.cons_append]

theorem lastBlock_eq (buf : List UInt8) :
    lastBlock buf = withoutEmptyLast [buf] := by
  cases buf <;> rfl

/-- The loop, when what was read so far has been cut. -/
theorem yieldBlocks_splits (later : List (List UInt8)) :
    ∀ {chunks : List (List UInt8)} {buf : List UInt8}
      {blocks : List (List UInt8)},
      (∀ chunk ∈ chunks, chunk ≠ []) → findIndex sep.bytes buf = none →
        Splits sep.bytes (buf ++ chunks.flatten) blocks →
          yieldBlocks sep (chunks ++ [] :: later) buf = withoutEmptyLast blocks
  | [], buf, blocks, _, missing, splits => by
      rw [List.flatten_nil, List.append_nil] at splits
      rw [splits.eq_of_findIndex_none missing, ← lastBlock_eq]
      rfl
  | chunk :: chunks, buf, blocks, nonempty, missing, splits => by
      obtain ⟨chunkNonempty, othersNonempty⟩ := List.forall_mem_cons.mp nonempty
      rw [List.flatten_cons, ← List.append_assoc] at splits
      obtain ⟨others, rfl, tail, nothing⟩ := cutBlocks_splits sep _ splits
      have rest := yieldBlocks_splits later othersNonempty nothing tail
      rw [List.cons_append, yieldBlocks, if_neg
        (mt List.length_eq_zero_iff.mp chunkNonempty),
        withoutEmptyLast_append _ tail.ne_nil]
      exact congrArg (_ ++ ·) rest

end Splitting

/-- The blocks are those of the split of the whole stream, however it was
read. -/
theorem yieldBlocks_eq_split
    (sep : Separator) {chunks : List (List UInt8)}
    (nonempty : ∀ chunk ∈ chunks, chunk ≠ []) (later : List (List UInt8)) :
    ∃ blocks,
      (∀ other,
        Splits sep.bytes chunks.flatten other ↔ other = blocks) ∧
        sep.bytes.intercalate blocks = chunks.flatten ∧
        yieldBlocks sep (chunks ++ [] :: later) [] =
          withoutEmptyLast blocks := by
  obtain ⟨blocks, splits⟩ :=
    Splits.exists_splits sep.nonempty chunks.flatten
  refine ⟨blocks, ?_, splits.intercalate_eq, ?_⟩
  · intro other
    constructor
    · exact fun otherSplits => otherSplits.unique sep.nonempty splits
    · rintro rfl
      exact splits
  · exact yieldBlocks_splits sep later nonempty (findIndex_nil sep) splits

/-- Two bars at the end of a chunk and two in the next one are a separator. -/
theorem yieldBlocks_eq_split_cutBars :
    ∃ blocks,
      (∀ other,
        Splits bars.bytes [65, 124, 124, 124, 124, 66] other ↔
          other = blocks) ∧
        bars.bytes.intercalate blocks = [65, 124, 124, 124, 124, 66] ∧
        yieldBlocks bars ([[65, 124, 124], [124, 124, 66]] ++ [[]]) [] =
          withoutEmptyLast blocks := by
  have nonempty : ∀ chunk ∈ [[65, 124, 124], [124, 124, 66]],
      chunk ≠ ([] : List UInt8) := by
    decide
  exact yieldBlocks_eq_split bars nonempty []

/-- What is written depends on the stream only. -/
theorem main_eq_of_flatten_eq
    {chunks other : List (List UInt8)}
    (nonempty : ∀ chunk ∈ chunks, chunk ≠ [])
    (otherNonempty : ∀ chunk ∈ other, chunk ≠ [])
    (same : chunks.flatten = other.flatten) :
    main (chunks ++ [[]]) = main (other ++ [[]]) := by
  obtain ⟨blocks, splits, -, yielded⟩ :=
    yieldBlocks_eq_split bars nonempty []
  obtain ⟨otherBlocks, otherSplits, -, otherYielded⟩ :=
    yieldBlocks_eq_split bars otherNonempty []
  rw [same] at splits
  have sameBlocks : otherBlocks = blocks :=
    (splits otherBlocks).mp ((otherSplits otherBlocks).mpr rfl)
  rw [main, main, yielded, otherYielded, sameBlocks]

end KernelStuff.Findvmcoreinfo
