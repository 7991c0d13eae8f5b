import KernelStuff.AssocArrayGc.Machine
import KernelStuff.Library.Loops

/-!
# What a step can do

Whatever the state, a step only adds to the record of writes and to the trace,
and leaves the array alone until the new tree is published.
-/

namespace KernelStuff.AssocArrayGc

open KernelStuff.Library

section Accesses

variable {σ : Type} {stopped : Exit σ → Prop} (faults : stopped .fault)

include faults

theorem loadNode_ends (heap : Heap Object) (target : Option Nat) :
    Ends (fun loaded : Nat × AssocArrayNode =>
        target = some loaded.1 ∧ loaded.1 < heap.next)
      stopped (loadNode heap target) := by
  cases target with
  | none => exact faults
  | some address =>
      rw [loadNode]
      split
      · next content live => exact ⟨rfl, Heap.lt_next_of_cells live⟩
      · exact faults

theorem loadShortcut_ends (heap : Heap Object) (target : Option Nat) :
    Ends (fun loaded : Nat × AssocArrayShortcut =>
        target = some loaded.1 ∧ loaded.1 < heap.next)
      stopped (loadShortcut heap target) := by
  cases target with
  | none => exact faults
  | some address =>
      rw [loadShortcut]
      split
      · next content live => exact ⟨rfl, Heap.lt_next_of_cells live⟩
      · exact faults

theorem storeSlot_ends
    {before : Heap Object} (heap : Heap Object) (target : Option Nat)
    (slot : Nat) (value : Ptr) (records : before.Records heap) :
    Ends before.Records stopped (storeSlot heap target slot value) := by
  rw [storeSlot]
  apply (loadNode_ends faults heap target).bind
  rintro ⟨address, content⟩ ⟨_, allocated⟩
  dsimp only
  split
  · exact records.andStore allocated _
  · exact faults

end Accesses

/-! ## One compress pass -/

section Compress

variable {σ : Type}

/-- The exits of a step that starts in `s`. -/
def StopsFrom (s : Gc σ) : Exit σ → Prop
  | .returned _ final => s.heap.Records final.heap ∧ final.trace = s.trace
  | .bug _ heap => s.heap.Records heap
  | .fault => True

/-- A leaf is moved by one store; the cell `limit` stays allocated. -/
theorem moveLeaf_ends
    (s : Gc σ) (limit newN child : Nat) (fold : Fold)
    (i : Fin assocArrayFanOut)
    (here : s.heap.Records fold.heap ∧ limit < fold.heap.next) :
    Ends
      (fun moved : Fold =>
        s.heap.Records moved.heap ∧ limit < moved.heap.next)
      (StopsFrom s) (moveLeaf newN child fold i) := by
  rw [moveLeaf]
  apply (loadNode_ends trivial fold.heap (some child)).bind
  rintro ⟨_, source⟩ _
  apply Ends.ite
  · intro _
    exact here
  · intro _
    apply Ends.ite
    · intro _
      exact here.1
    · intro _
      apply (loadNode_ends trivial fold.heap (some newN)).bind
      rintro ⟨address, content⟩ ⟨_, allocated⟩
      dsimp only
      split
      · exact here.1
      · exact ⟨here.1.andStore allocated _, here.2⟩

/-- The child is freed last, after its leaves have moved. -/
theorem foldSlot_ends
    (s : Gc σ) (newN : Nat) (fold : Fold) (slot : Fin assocArrayFanOut)
    (records : s.heap.Records fold.heap) :
    Ends (fun folded : Fold => s.heap.Records folded.heap) (StopsFrom s)
      (foldSlot newN fold slot) := by
  rw [foldSlot]
  apply (loadNode_ends trivial fold.heap (some newN)).bind
  rintro ⟨address, content⟩ ⟨_, allocated⟩
  dsimp only
  apply Ends.ite
  · intro _
    exact records
  · intro _
    have counted :=
      fun nr => records.andStore allocated
        (.node { content with nrLeavesOnBranch := nr })
    apply Ends.ite
    · intro _
      apply (loadShortcut_ends trivial _ _).bind
      rintro ⟨_, shortcut⟩ _
      apply (loadNode_ends trivial _ _).bind
      rintro ⟨child, childContent⟩ _
      apply Ends.ite
      · intro _
        exact counted _
      · intro _
        exact counted _
    · intro _
      apply (loadNode_ends trivial _ _).bind
      rintro ⟨child, childContent⟩ ⟨_, childAllocated⟩
      apply Ends.ite
      · intro _
        apply Ends.ite
        · intro impossible
          cases impossible
        · intro _
          refine
            Ends.bind (Ends.foldlM (moveLeaf_ends s child newN child) _ ?_) ?_
          · exact ⟨(counted _).andStore allocated _, childAllocated⟩
          · rintro moved ⟨movedRecords, stillAllocated⟩
            exact movedRecords.andFree stillAllocated
      · intro _
        exact counted _

end Compress

/-! ## One step -/

section Blocks

variable {σ : Type}

/-- What a step from `s` that moves on leaves. -/
structure Advances (s next : Gc σ) : Prop where
  records : s.heap.Records next.heap
  trace_prefix : s.trace <+: next.trace
  array_eq : next.array = s.array
  edit_eq : s.label ≠ .entry → next.edit = s.edit

theorem Advances.of_heap
    {s next : Gc σ} (records : s.heap.Records next.heap)
    (traceEq : next.trace = s.trace) (arrayEq : next.array = s.array)
    (editEq : next.edit = s.edit) :
    Advances s next where
  records := records
  trace_prefix := by rw [traceEq]
  array_eq := arrayEq
  edit_eq := fun _ => editEq

theorem storePtr_ends
    (s : Gc σ) (before : Gc σ) (value : Ptr) (records : before.heap.Records s.heap) :
    Ends
      (fun next : Gc σ =>
        before.heap.Records next.heap ∧ next.trace = s.trace ∧
          next.array = s.array ∧ next.edit = s.edit)
      (StopsFrom before) (storePtr s value) := by
  rw [storePtr]
  split
  · trivial
  · exact ⟨records, rfl, rfl, rfl⟩
  · apply (loadShortcut_ends trivial _ _).bind
    rintro ⟨address, content⟩ ⟨_, allocated⟩
    exact ⟨records.andStore allocated _, rfl, rfl, rfl⟩
  · apply (loadNode_ends trivial _ _).bind
    rintro ⟨address, content⟩ ⟨_, allocated⟩
    exact ⟨records.andStore allocated _, rfl, rfl, rfl⟩

theorem entry_ends (fails : Nat → Bool) (s : Gc σ) (label : s.label = .entry) :
    Ends (Advances s) (StopsFrom s) (entry fails s) := by
  apply Ends.ite
  · intro _
    exact ⟨Heap.Records.refl _, rfl⟩
  · intro _
    apply Ends.ite
    · intro _
      exact ⟨Heap.Records.refl _, rfl⟩
    · intro _
      exact
        ⟨(Heap.Records.refl _).andAlloc _, List.prefix_rfl, rfl,
          fun elsewhere => absurd label elsewhere⟩

theorem descend_ends (fails : Nat → Bool) (s : Gc σ) :
    Ends (Advances s) (StopsFrom s) (descend fails s) := by
  rw [descend]
  have stays := Heap.Records.refl s.heap
  apply Ends.ite
  · intro _
    apply (loadShortcut_ends trivial _ _).bind
    rintro ⟨_, shortcut⟩ _
    apply Ends.ite
    · intro _
      exact Advances.of_heap stays rfl rfl rfl
    · intro _
      apply (storePtr_ends _ s _ (stays.andAlloc _)).bind
      rintro linked ⟨records, traceEq, arrayEq, editEq⟩
      exact Advances.of_heap records traceEq arrayEq editEq
  · intro _
    exact Advances.of_heap stays rfl rfl rfl

theorem duplicateNode_ends (fails : Nat → Bool) (s : Gc σ) :
    Ends (Advances s) (StopsFrom s) (duplicateNode fails s) := by
  rw [duplicateNode]
  have stays := Heap.Records.refl s.heap
  apply Ends.ite
  · intro _
    exact Advances.of_heap stays rfl rfl rfl
  · intro _
    apply (loadNode_ends trivial _ _).bind
    rintro ⟨node, content⟩ _
    apply (storePtr_ends _ s _ (stays.andAlloc _)).bind
    rintro linked ⟨records, traceEq, arrayEq, editEq⟩
    exact Advances.of_heap records traceEq arrayEq editEq

theorem continueNode_ends (iterator : Leaf → σ → Bool × σ) (s : Gc σ) :
    Ends (Advances s) (StopsFrom s) (continueNode iterator s) := by
  rw [continueNode]
  have stays := Heap.Records.refl s.heap
  split
  · apply (loadNode_ends trivial _ _).bind
    rintro ⟨_, content⟩ _
    dsimp only
    split
    · exact Advances.of_heap stays rfl rfl rfl
    · next object _ =>
        apply Ends.ite
        · intro _
          apply (storeSlot_ends trivial _ _ _ _ stays).bind
          intro heap records
          exact ⟨records, List.prefix_append _ _, rfl, fun _ => rfl⟩
        · intro _
          exact ⟨stays, List.prefix_append _ _, rfl, fun _ => rfl⟩
    · apply (loadNode_ends trivial _ _).bind
      rintro ⟨newN, _⟩ _
      exact Advances.of_heap stays rfl rfl rfl
  · exact Advances.of_heap stays rfl rfl rfl

theorem retryCompress_ends (variant : Variant) (s : Gc σ) :
    Ends (Advances s) (StopsFrom s) (retryCompress variant s) := by
  rw [retryCompress]
  apply (loadNode_ends trivial _ _).bind
  rintro ⟨newN, content⟩ ⟨_, allocated⟩
  refine Ends.bind (Ends.foldlM (foldSlot_ends s newN) _ ?_) ?_
  · exact (Heap.Records.refl _).andStore allocated _
  · intro fold records
    apply (loadNode_ends trivial _ _).bind
    rintro ⟨_, folded⟩ _
    apply Ends.ite
    · intro _
      exact ⟨records, List.prefix_append _ _, rfl, fun _ => rfl⟩
    · intro _
      exact Advances.of_heap records rfl rfl rfl

theorem attach_ends
    (s : Gc σ) (heap : Heap Object) (ptr newParent : Ptr) (slot : Nat)
    (records : s.heap.Records heap) :
    Ends (Advances s) (StopsFrom s) (attach s heap ptr newParent slot) := by
  rw [attach]
  apply (loadShortcut_ends trivial _ _).bind
  rintro ⟨newS, content⟩ ⟨_, allocated⟩
  apply Ends.ite
  · intro _
    exact Advances.of_heap (records.andStore allocated _) rfl rfl rfl
  · intro _
    apply (storeSlot_ends trivial _ _ _ _ (records.andStore allocated _)).bind
    intro heap stored
    exact Advances.of_heap stored rfl rfl rfl

theorem exciseNode_ends
    (s : Gc σ) (newN : Nat) (content : AssocArrayNode) (ptr : Ptr)
    (allocated : newN < s.heap.next) :
    Ends (Advances s) (StopsFrom s) (exciseNode s newN content ptr) := by
  rw [exciseNode]
  have freed := (Heap.Records.refl s.heap).andFree allocated
  apply Ends.ite
  · intro _
    apply (loadShortcut_ends trivial _ _).bind
    rintro ⟨preceding, shortcut⟩ ⟨_, precedingAllocated⟩
    exact attach_ends s _ _ _ _ (freed.andFree precedingAllocated)
  · intro _
    exact attach_ends s _ _ _ _ freed

theorem exciseShortcut_ends
    (s : Gc σ) (newN : Nat) (content : AssocArrayNode)
    (allocated : newN < s.heap.next) :
    Ends (Advances s) (StopsFrom s) (exciseShortcut s newN content) := by
  rw [exciseShortcut]
  have stays := Heap.Records.refl s.heap
  apply Ends.ite
  · intro _
    exact Advances.of_heap stays rfl rfl rfl
  · intro _
    apply Ends.ite
    · intro _
      apply (loadShortcut_ends trivial _ _).bind
      rintro ⟨newS, shortcut⟩ ⟨_, shortcutAllocated⟩
      apply Ends.ite
      · intro _
        have excised := fun moved : Object =>
          (stays.andStore allocated moved).andFree shortcutAllocated
        apply Ends.ite
        · intro _
          exact ⟨excised _, List.prefix_append _ _, rfl, fun _ => rfl⟩
        · intro _
          apply (storeSlot_ends trivial _ _ _ _ (excised _)).bind
          intro heap stored
          exact ⟨stored, List.prefix_append _ _, rfl, fun _ => rfl⟩
      · intro _
        exact Advances.of_heap stays rfl rfl rfl
    · intro _
      exact Advances.of_heap stays rfl rfl rfl

theorem excise_ends (s : Gc σ) :
    Ends (Advances s) (StopsFrom s) (excise s) := by
  rw [excise]
  apply (loadNode_ends trivial _ _).bind
  rintro ⟨newN, content⟩ ⟨_, allocated⟩
  apply Ends.ite
  · intro _
    apply Ends.ite
    · intro _
      exact exciseNode_ends s newN content _ allocated
    · intro _
      exact exciseShortcut_ends s newN content allocated
  · intro _
    exact exciseShortcut_ends s newN content allocated

theorem ascendOldTree_ends (s : Gc σ) :
    Ends (Advances s) (StopsFrom s) (ascendOldTree s) := by
  rw [ascendOldTree]
  have stays := Heap.Records.refl s.heap
  apply (loadNode_ends trivial _ _).bind
  rintro ⟨_, content⟩ _
  apply Ends.ite
  · intro _
    apply (loadShortcut_ends trivial _ _).bind
    rintro ⟨_, shortcut⟩ _
    apply Ends.ite
    · intro _
      exact Advances.of_heap stays rfl rfl rfl
    · intro _
      exact Advances.of_heap stays rfl rfl rfl
  · intro _
    apply Ends.ite
    · intro _
      exact stays
    · intro _
      exact Advances.of_heap stays rfl rfl rfl

theorem gcComplete_ends (s : Gc σ) :
    Ends (Advances s) (StopsFrom s) (gcComplete s) := by
  rw [gcComplete]
  split
  · next script live =>
      exact
        ⟨(Heap.Records.refl _).andStore (Heap.lt_next_of_cells live) _, rfl⟩
  · trivial

theorem enomem_ends (s : Gc σ) (allocated : s.edit < s.heap.next) :
    Ends (Advances s) (StopsFrom s) (enomem s) :=
  ⟨(Heap.Records.refl _).andFree allocated, rfl⟩

section Run

/-- The edit script has been allocated once `entry` is left. -/
def EditAllocated (s : Gc σ) : Prop :=
  s.label ≠ .entry → s.edit < s.heap.next

variable {variant : Variant} {iterator : Leaf → σ → Bool × σ}
  {fails : Nat → Bool}

variable (variant iterator fails) in
theorem gcStep_ends {s : Gc σ} (edited : EditAllocated s) :
    Ends (Advances s) (StopsFrom s) (gcStep variant iterator fails s) := by
  rw [gcStep]
  split
  · next label => exact entry_ends fails s label
  · exact descend_ends fails s
  · exact duplicateNode_ends fails s
  · exact continueNode_ends iterator s
  · exact retryCompress_ends variant s
  · exact excise_ends s
  · exact ascendOldTree_ends s
  · exact gcComplete_ends s
  · next label => exact enomem_ends s (edited (by rw [label]; decide))

theorem gcStep_advances
    {s next : Gc σ} (edited : EditAllocated s)
    (moves : gcStep variant iterator fails s = .ok next) :
    Advances s next := by
  have ends := gcStep_ends variant iterator fails edited
  rw [moves] at ends
  exact ends

theorem gcStep_editAllocated
    {s next : Gc σ} (edited : EditAllocated s)
    (moves : gcStep variant iterator fails s = .ok next) :
    EditAllocated next := by
  have advances := gcStep_advances edited moves
  intro _
  by_cases label : s.label = .entry
  · rw [gcStep, label] at moves
    dsimp only [entry] at moves
    split at moves
    · cases moves
    · split at moves
      · cases moves
      · cases moves
        exact Nat.lt_succ_self _
  · rw [advances.edit_eq label]
    exact Nat.lt_of_lt_of_le (edited label) advances.records.next_le

/-- What a run from `start` leaves when it comes to `s`. -/
structure Continues (start s : Gc σ) : Prop where
  edited : EditAllocated s
  records : start.heap.Records s.heap
  trace_prefix : start.trace <+: s.trace
  array_eq : s.array = start.array

theorem reaches_continues
    {start s : Gc σ} (edited : EditAllocated start)
    (run : Reaches (gcStep variant iterator fails) start s) :
    Continues start s := by
  refine Reaches.invariant ?_ run ?_
  · intro source target moves before
    have advances := gcStep_advances before.edited moves
    exact
      ⟨gcStep_editAllocated before.edited moves,
        before.records.trans advances.records,
        before.trace_prefix.trans advances.trace_prefix,
        advances.array_eq.trans before.array_eq⟩
  · exact
      ⟨edited, Heap.Records.refl _, List.prefix_rfl, rfl⟩

theorem gcCall_editAllocated
    (heap : Heap Object) (array : AssocArray) (data : σ) :
    EditAllocated (gcCall heap array data) :=
  fun elsewhere => absurd rfl elsewhere

/-- The exit of a call, seen from a state on the way to it. -/
theorem gcExits_stopsFrom
    {heap : Heap Object} {array : AssocArray} {data : σ} {s : Gc σ}
    {exit : Exit σ}
    (run : Reaches (gcStep variant iterator fails) (gcCall heap array data) s)
    (exits : GcExits variant iterator fails heap array data exit) :
    ∃ last, Continues s last ∧ StopsFrom last exit := by
  have edited :=
    (reaches_continues (gcCall_editAllocated heap array data) run).edited
  obtain ⟨last, onward, stops⟩ := exits.of_reaches_source run
  have continues := reaches_continues edited onward
  have ends := gcStep_ends variant iterator fails continues.edited
  rw [stops] at ends
  exact ⟨last, continues, ends⟩

end Run

end Blocks

end KernelStuff.AssocArrayGc
