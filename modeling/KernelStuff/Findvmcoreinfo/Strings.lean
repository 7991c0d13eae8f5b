import KernelStuff.Findvmcoreinfo.Blocks

/-!
# What findvmcoreinfo gets from strings

The script lets `strings` print a separator after every string it finds.  The
blocks are those strings again as long as no string, followed by its separator,
shows one too early: a string that ends in a bar is cut short, and the bar goes
to the next one.
-/

namespace KernelStuff.Findvmcoreinfo

open KernelStuff.Library

/-- What `strings --output-separator` prints. -/
def stringsOutput (sep : Separator) (strings : List (List UInt8)) :
    List UInt8 :=
  strings.flatMap fun string => string ++ sep.bytes

/-- The first separator in sight is the one behind the string. -/
def EndsAtSeparator (sep : Separator) (string : List UInt8) : Prop :=
  ∀ i, i < string.length → ¬ OccursAt sep.bytes (string ++ sep.bytes) i

section Strings

variable (sep : Separator)

theorem stringsOutput_cons (string : List UInt8) (rest : List (List UInt8)) :
    stringsOutput sep (string :: rest) =
      string ++ sep.bytes ++ stringsOutput sep rest := by
  rw [stringsOutput, List.flatMap_cons]
  rfl

/-- Behind the last separator there is an empty block. -/
theorem stringsOutput_splits
    {strings : List (List UInt8)}
    (ends : ∀ string ∈ strings, EndsAtSeparator sep string) :
    Splits sep.bytes (stringsOutput sep strings) (strings ++ [[]]) := by
  induction strings with
  | nil => exact .last (findIndex_eq_none (findIndex_nil sep))
  | cons string rest inductionHypothesis =>
      obtain ⟨endsHere, endsLater⟩ := List.forall_mem_cons.mp ends
      rw [stringsOutput_cons, List.cons_append]
      apply Splits.next _ (inductionHypothesis endsLater)
      intro i earlier
      rw [occursAt_append_iff]
      · exact endsHere i earlier
      · rw [List.length_append]
        omega

theorem endsAtSeparator_of_splits
    {strings blocks : List (List UInt8)}
    (splits : Splits sep.bytes (stringsOutput sep strings) blocks)
    (same : withoutEmptyLast blocks = strings) :
    ∀ string ∈ strings, EndsAtSeparator sep string := by
  induction strings generalizing blocks with
  | nil => simp
  | cons string rest inductionHypothesis =>
      rw [stringsOutput_cons] at splits
      obtain ⟨block, others, blocksEq⟩ :=
        List.exists_cons_of_ne_nil splits.ne_nil
      subst blocksEq
      have blockEq : block = string := by
        cases others with
        | nil =>
            cases block with
            | nil => simp [withoutEmptyLast] at same
            | cons first bytes => exact (List.cons.inj same).1
        | cons next others =>
            cases block with
            | nil => exact (List.cons.inj same).1
            | cons first bytes => exact (List.cons.inj same).1
      subst blockEq
      obtain ⟨endsHere, tail⟩ := splits.head_eq sep.nonempty
      have restEq : withoutEmptyLast others = rest := by
        have split := withoutEmptyLast_append [block] tail.ne_nil
        rw [List.singleton_append, same, List.singleton_append] at split
        exact (List.cons.inj split).2.symm
      exact
        List.forall_mem_cons.mpr
          ⟨endsHere, inductionHypothesis tail restEq⟩

end Strings

/-- However the output of `strings` is read, the blocks are the strings again
exactly when every string ends at its separator, and then the script writes the
first string that looks like a vmcoreinfo. -/
theorem findvmcoreinfo_strings
    {chunks strings : List (List UInt8)}
    (nonempty : ∀ chunk ∈ chunks, chunk ≠ [])
    (printed : chunks.flatten = stringsOutput bars strings) :
    (yieldBlocks bars (chunks ++ [[]]) [] = strings ↔
      ∀ string ∈ strings, EndsAtSeparator bars string) ∧
    ((∀ string ∈ strings, EndsAtSeparator bars string) →
      main (chunks ++ [[]]) = strings.find? looksLikeVmcoreinfo) := by
  obtain ⟨blocks, isSplit, -, yielded⟩ :=
    yieldBlocks_eq_split bars nonempty []
  have splits := (isSplit blocks).mpr rfl
  rw [printed] at splits
  have recovered :
      (∀ string ∈ strings, EndsAtSeparator bars string) →
        yieldBlocks bars (chunks ++ [[]]) [] = strings := by
    intro ends
    have blocksEq :=
      splits.unique bars.nonempty (stringsOutput_splits bars ends)
    rw [yielded, blocksEq, withoutEmptyLast_append _ (List.cons_ne_nil _ _)]
    simp [withoutEmptyLast]
  refine ⟨⟨?_, recovered⟩, ?_⟩
  · intro same
    rw [yielded] at same
    exact endsAtSeparator_of_splits bars splits same
  · intro ends
    rw [main, recovered ends]

/-- The three texts that the script looks for, on a line each. -/
def shortNote : List UInt8 :=
  [79, 83, 82, 69, 76, 69, 65, 83, 69, 61, 10, 80, 65, 71, 69, 83, 73, 90, 69, 61,
    10, 83, 89, 77, 66, 79, 76, 40]

/-- `A`, the note and `B`, cut within two of the separators. -/
def noteChunks : List (List UInt8) :=
  [[65, 124], [124, 124, 124] ++ shortNote ++ [124, 124, 124],
    [124, 66, 124, 124, 124, 124]]

theorem findvmcoreinfo_strings_note :
    yieldBlocks bars (noteChunks ++ [[]]) [] = [[65], shortNote, [66]] ∧
      main (noteChunks ++ [[]]) = some shortNote := by
  have nonempty : ∀ chunk ∈ noteChunks, chunk ≠ [] := by decide
  have ends : ∀ string ∈ [[65], shortNote, [66]], EndsAtSeparator bars string := by
    unfold EndsAtSeparator OccursAt
    decide +kernel
  have printed :
      noteChunks.flatten = stringsOutput bars [[65], shortNote, [66]] := by
    decide
  obtain ⟨recovers, writes⟩ := findvmcoreinfo_strings nonempty printed
  refine ⟨recovers.mpr ends, ?_⟩
  rw [writes ends]
  decide +kernel

/-- A bar at the end of a string goes to the next one. -/
example :
    yieldBlocks bars
        ([[65, 124, 124, 124], [124, 124, 66, 124, 124, 124, 124]] ++ [[]]) [] =
      [[65], [124, 66]] := by
  decide +kernel

end KernelStuff.Findvmcoreinfo
