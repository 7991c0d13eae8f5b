import KernelStuff.AssocArrayGc.Compress
import KernelStuff.Library.Loops

/-!
# When a pass retains a child, and when it stops at a `BUG_ON`

Both questions are answered by leaf counts.  A pass over a node with at most
`assocArrayFanOut` leaves retains a child exactly when some meta pointer is
followed by more meta pointers than there are leaves below those (`Crowded`).
A pass stops exactly when it comes to a child with `assocArrayFanOut` leaves
that is not ready to be folded while everything else in the node has gone.
-/

namespace KernelStuff.AssocArrayGc

open KernelStuff.Library

/-! ## A whole pass -/

theorem compressPass_visited
    {slots : Fin assocArrayFanOut → Tree} {q : Pass}
    (counted : ∀ i, (slots i).Counted)
    (whole : ∀ i, (slots i).Whole)
    (run : compressPass slots = some q) :
    Visited (Pass.start slots) q (List.finRange assocArrayFanOut) :=
  foldSlots_visited (Pass.start_sound counted whole) (List.nodup_finRange _) run

/-- After a pass the node records the leaves of its subtree. -/
theorem Visited.nr_eq_slotLeafCount
    {slots : Fin assocArrayFanOut → Tree} {q : Pass}
    (run : Visited (Pass.start slots) q (List.finRange assocArrayFanOut)) :
    q.nr = slotLeafCount slots := by
  rw [run.nr_eq, ← Pass.start_nr slots, Fin.sum_univ_def]
  rfl

theorem Visited.slotLeafCount_eq
    {p q : Pass} {visited : List (Fin assocArrayFanOut)}
    (run : Visited p q visited) :
    slotLeafCount q.slots = slotLeafCount p.slots := by
  rw [← card_bag, ← card_bag, run.bag_eq]

theorem Visited.start_retained_iff
    {slots : Fin assocArrayFanOut → Tree} {q : Pass}
    (run : Visited (Pass.start slots) q (List.finRange assocArrayFanOut)) :
    q.retained = true ↔ ∃ i, (q.slots i).isMeta = true := by
  rw [run.retained_iff]
  constructor
  · rintro (impossible | ⟨i, _, isNode⟩)
    · cases impossible
    · exact ⟨i, isNode⟩
  · rintro ⟨i, isNode⟩
    exact Or.inr ⟨i, List.mem_finRange i, isNode⟩

/-! ## Counting -/

/-- Every slot is empty, a leaf or a meta pointer. -/
theorem slot_balance (slots : Fin assocArrayFanOut → Tree) :
    emptyCount slots + slotLeafCount slots +
        ∑ i, (if (slots i).isMeta then 1 else 0) =
      assocArrayFanOut + ∑ i, (slots i).metaLeafCount := by
  have slotwise :
      ∀ i,
        (if (slots i).ptr = .null then 1 else 0) + (slots i).leafCount +
            (if (slots i).isMeta then 1 else 0) =
          1 + (slots i).metaLeafCount := by
    intro i
    cases isMeta : (slots i).isMeta with
    | false =>
        rw [Tree.metaLeafCount_of_plain isMeta]
        rcases Tree.cases_of_not_isMeta isMeta with isEmpty | ⟨object, isLeaf⟩
        · simp [isEmpty, Tree.leafCount_empty]
        · simp [isLeaf, Tree.leafCount_leaf]
    | true =>
        rw [Tree.metaLeafCount_of_meta isMeta]
        have occupied : (slots i).ptr ≠ .null := by
          intro null
          rw [(Tree.ptr_eq_null_iff _).mp null] at isMeta
          cases isMeta
        simp [occupied]
        omega
  simp only [emptyCount, slotLeafCount, ← Finset.sum_add_distrib]
  rw [Finset.sum_congr rfl fun i _ => slotwise i, Finset.sum_add_distrib]
  simp

/-- The same balance when every meta pointer is in a list of slots. -/
theorem slot_balance_of_metas
    {slots : Fin assocArrayFanOut → Tree}
    {items : List (Fin assocArrayFanOut)}
    (nodup : items.Nodup)
    (metas : ∀ i, (slots i).isMeta = true → i ∈ items) :
    emptyCount slots + slotLeafCount slots +
        items.countP (fun i => (slots i).isMeta) =
      assocArrayFanOut + (items.map fun i => (slots i).metaLeafCount).sum := by
  have balance := slot_balance slots
  have plain : ∀ i, i ∉ items → (slots i).isMeta = false := by
    intro i absent
    exact Bool.eq_false_iff.mpr fun isNode => absent (metas i isNode)
  rw [sum_eq_list_sum (fun i => (slots i).metaLeafCount) nodup
      fun i absent => Tree.metaLeafCount_of_plain (plain i absent),
    sum_eq_list_sum (fun i => if (slots i).isMeta then 1 else 0) nodup
      fun i absent => by rw [plain i absent]; rfl] at balance
  rw [← balance, countP_eq_sum_map]

/-! ## Retaining -/

/-- Some meta pointer in the list is followed by more meta pointers than there
are leaves below those, even with `slack` more leaves. -/
def Crowded (slack : Nat) (slots : Fin assocArrayFanOut → Tree) :
    List (Fin assocArrayFanOut) → Prop
  | [] => False
  | i :: rest =>
      ((slots i).isMeta = true ∧
        slack + (rest.map fun j => (slots j).metaLeafCount).sum <
          rest.countP fun j => (slots j).isMeta) ∨
      Crowded slack slots rest

instance (slack : Nat) (slots : Fin assocArrayFanOut → Tree) :
    ∀ items, Decidable (Crowded slack slots items)
  | [] => inferInstanceAs (Decidable False)
  | _ :: rest =>
      have : Decidable (Crowded slack slots rest) :=
        instDecidableCrowded slack slots rest
      inferInstanceAs (Decidable (_ ∧ _ ∨ Crowded slack slots rest))

theorem Crowded.congr
    {slack : Nat} {slots other : Fin assocArrayFanOut → Tree} :
    ∀ {items : List (Fin assocArrayFanOut)},
      (∀ i ∈ items, (slots i).isMeta = (other i).isMeta ∧
        (slots i).metaLeafCount = (other i).metaLeafCount) →
        (Crowded slack slots items ↔ Crowded slack other items)
  | [], _ => Iff.rfl
  | i :: rest, agree => by
      have restAgree := fun j member =>
        agree j (List.mem_cons_of_mem i member)
      have counts :
          (rest.map fun j => (slots j).metaLeafCount) =
            rest.map fun j => (other j).metaLeafCount :=
        List.map_congr_left fun j member => (restAgree j member).2
      have metas :
          (rest.countP fun j => (slots j).isMeta) =
            rest.countP fun j => (other j).isMeta :=
        List.countP_congr fun j member => by
          rw [(restAgree j member).1]
      simp only [Crowded, (agree i List.mem_cons_self).1, counts, metas,
        Crowded.congr restAgree]

/-- If every meta pointer has a leaf below it, the node is not crowded. -/
theorem not_crowded_of_pos
    {slack : Nat} {slots : Fin assocArrayFanOut → Tree} :
    ∀ {items : List (Fin assocArrayFanOut)},
      (∀ i ∈ items, (slots i).isMeta = true → 1 ≤ (slots i).leafCount) →
        ¬ Crowded slack slots items
  | [], _ => fun impossible => impossible
  | i :: rest, positive => by
      have restPositive := fun j member =>
        positive j (List.mem_cons_of_mem i member)
      have enough :
          (rest.countP fun j => (slots j).isMeta) ≤
            (rest.map fun j => (slots j).metaLeafCount).sum := by
        clear positive
        induction rest with
        | nil => exact Nat.le_refl 0
        | cons first others inductionHypothesis =>
            have bound := inductionHypothesis fun j member =>
              restPositive j (List.mem_cons_of_mem first member)
            rw [List.countP_cons, List.map_cons, List.sum_cons]
            cases isMeta : (slots first).isMeta with
            | false =>
                simp only [Bool.false_eq_true, if_false]
                omega
            | true =>
                have one := restPositive first List.mem_cons_self isMeta
                rw [Tree.metaLeafCount_of_meta isMeta]
                simp only [if_true]
                omega
      rintro (⟨_, crowded⟩ | crowded)
      · omega
      · exact not_crowded_of_pos restPositive crowded

/-- A loop that has retained nothing so far retains something exactly when the
rest of the node is crowded. -/
theorem foldSlots_retained_iff
    {items : List (Fin assocArrayFanOut)} {p q : Pass}
    (sound : p.Sound)
    (nodup : items.Nodup)
    (metas : ∀ i, (p.slots i).isMeta = true → i ∈ items)
    (total : slotLeafCount p.slots ≤ assocArrayFanOut)
    (fresh : p.retained = false)
    (run : items.foldlM Pass.foldSlot p = some q) :
    q.retained = true ↔
      Crowded (assocArrayFanOut - slotLeafCount p.slots) p.slots items := by
  induction items generalizing p with
  | nil =>
      cases run
      simp [Crowded, fresh]
  | cons i rest inductionHypothesis =>
      obtain ⟨notLater, restNodup⟩ := List.nodup_cons.mp nodup
      rw [List.foldlM_cons] at run
      obtain ⟨middle, first, others⟩ := Option.bind_eq_some_iff.mp run
      have step := Pass.foldSlot_visited sound first
      have later := foldSlots_visited step.sound restNodup others
      have agree :
          ∀ j ∈ rest, (p.slots j).isMeta = (middle.slots j).isMeta ∧
            (p.slots j).metaLeafCount = (middle.slots j).metaLeafCount := by
        intro j member
        have unvisited : j ∉ [i] := by
          intro atHead
          rw [List.mem_singleton.mp atHead] at member
          exact notLater member
        refine ⟨?_, (step.metaLeafCount_eq unvisited).symm⟩
        cases isMeta : (p.slots j).isMeta with
        | false => exact (step.filled j isMeta).symm
        | true =>
            rw [step.kept j _ (Or.inl unvisited), isMeta]
            intro isEmpty
            rw [isEmpty] at isMeta
            cases isMeta
      have stillMeta :
          ∀ j, (middle.slots j).isMeta = true → (p.slots j).isMeta = true := by
        intro j isNode
        by_contra plain
        rw [step.filled j (Bool.eq_false_iff.mpr plain)] at isNode
        cases isNode
      cases isMeta : (middle.slots i).isMeta with
      | false =>
          -- Nothing was retained here, so the rest decides.
          have middleFresh : middle.retained = false := by
            apply Bool.eq_false_iff.mpr
            intro retained
            rcases step.retained_iff.mp retained with before | ⟨j, atHead, isNode⟩
            · rw [fresh] at before
              cases before
            · rw [List.mem_singleton.mp atHead, isMeta] at isNode
              cases isNode
          have middleMetas :
              ∀ j, (middle.slots j).isMeta = true → j ∈ rest := by
            intro j isNode
            rcases List.mem_cons.mp (metas j (stillMeta j isNode)) with
              same | member
            · rw [same, isMeta] at isNode
              cases isNode
            · exact member
          rw [inductionHypothesis step.sound restNodup middleMetas
            (by rw [step.slotLeafCount_eq]; exact total) middleFresh others,
            step.slotLeafCount_eq, ← Crowded.congr agree]
          constructor
          · exact Or.inr
          · rintro (⟨isNode, crowded⟩ | crowded)
            · exfalso
              obtain ⟨lead, address, nr, children, here⟩ :=
                Tree.exists_node_of_isMeta (sound.whole i) isNode
              have countedHere := sound.counted i
              rw [here] at countedHere
              have balance := slot_balance_of_metas nodup metas
              have folded :
                  ¬ p.nrFree + 1 < nr := by
                rw [← Pass.foldSlot_isMeta_iff sound here first, isMeta]
                simp
              rw [List.countP_cons_of_pos (p := fun i => (p.slots i).isMeta) isNode,
                List.map_cons, List.sum_cons,
                Tree.metaLeafCount_of_meta isNode, here,
                Tree.leafCount_node_eq,
                ← countedHere.nr_eq_slotLeafCount] at balance
              have nrFree := sound.nrFree_eq
              omega
            · exact crowded
      | true =>
          -- Retained here: the flag stays set, and the count says why.
          have isNode := stillMeta i isMeta
          obtain ⟨lead, address, nr, children, here⟩ :=
            Tree.exists_node_of_isMeta (sound.whole i) isNode
          have countedHere := sound.counted i
          rw [here] at countedHere
          have large := (Pass.foldSlot_isMeta_iff sound here first).mp isMeta
          have balance := slot_balance_of_metas nodup metas
          rw [List.countP_cons_of_pos (p := fun i => (p.slots i).isMeta) isNode,
            List.map_cons, List.sum_cons,
            Tree.metaLeafCount_of_meta isNode, here,
            Tree.leafCount_node_eq,
            ← countedHere.nr_eq_slotLeafCount] at balance
          have nrFree := sound.nrFree_eq
          constructor
          · intro _
            refine Or.inl ⟨isNode, ?_⟩
            omega
          · intro _
            apply later.retained_iff.mpr
            exact Or.inl <| step.retained_iff.mpr <|
              Or.inr ⟨i, List.mem_singleton_self i, isMeta⟩

/-- A pass over a node with few leaves retains a child exactly when the node is
crowded. -/
theorem compressPass_retained_iff
    {slots : Fin assocArrayFanOut → Tree} {q : Pass}
    (counted : ∀ i, (slots i).Counted)
    (whole : ∀ i, (slots i).Whole)
    (total : slotLeafCount slots ≤ assocArrayFanOut)
    (run : compressPass slots = some q) :
    q.retained = true ↔
      Crowded (assocArrayFanOut - slotLeafCount slots) slots
        (List.finRange assocArrayFanOut) :=
  foldSlots_retained_iff (p := Pass.start slots)
    (Pass.start_sound counted whole) (List.nodup_finRange _)
    (fun i _ => List.mem_finRange i) total rfl run

/-! ## Stopping -/

/-- What an earlier, finished call leaves in a slot: a child with fewer leaves
than slots is ready to be folded. -/
def Tree.Settled (t : Tree) : Prop :=
  t.isMeta = true → t.leafCount < assocArrayFanOut → t.Foldable

/-- The pass stops at slot `i`: its child holds `assocArrayFanOut` leaves and is
not ready to be folded, the slots before it lead to no leaf and the slots after
it are empty. -/
def StopsAt (slots : Fin assocArrayFanOut → Tree)
    (i : Fin assocArrayFanOut) : Prop :=
  (slots i).isMeta = true ∧ ¬ (slots i).Foldable ∧
    (slots i).leafCount = assocArrayFanOut ∧
    (∀ j, j < i → (slots j).leafCount = 0) ∧
    ∀ j, i < j → slots j = .empty

theorem leafCount_le_slotLeafCount
    (slots : Fin assocArrayFanOut → Tree) (i : Fin assocArrayFanOut) :
    (slots i).leafCount ≤ slotLeafCount slots :=
  Finset.single_le_sum (f := fun j => (slots j).leafCount)
    (fun _ _ => Nat.zero_le _) (Finset.mem_univ i)

/-- If one slot holds all the leaves, the others hold none. -/
theorem leafCount_eq_zero_of_total
    {slots : Fin assocArrayFanOut → Tree} {i j : Fin assocArrayFanOut}
    (total : slotLeafCount slots = (slots i).leafCount)
    (different : j ≠ i) :
    (slots j).leafCount = 0 := by
  have split :
      (slots i).leafCount +
          ∑ k ∈ Finset.univ.erase i, (slots k).leafCount =
        slotLeafCount slots :=
    Finset.add_sum_erase _ (fun k => (slots k).leafCount) (Finset.mem_univ i)
  have vanishes :
      ∑ k ∈ Finset.univ.erase i, (slots k).leafCount = 0 := by
    omega
  exact Finset.sum_eq_zero_iff.mp vanishes j
    (Finset.mem_erase.mpr ⟨different, Finset.mem_univ j⟩)

theorem slotLeafCount_eq_of_others
    {slots : Fin assocArrayFanOut → Tree} {i : Fin assocArrayFanOut}
    (others : ∀ j, j ≠ i → (slots j).leafCount = 0) :
    slotLeafCount slots = (slots i).leafCount := by
  apply Finset.sum_eq_single i
  · intro j _ different
    exact others j different
  · intro absent
    exact absurd (Finset.mem_univ i) absent

theorem Tree.eq_empty_of_plain
    {t : Tree} (plain : t.isMeta = false) (none : t.leafCount = 0) :
    t = .empty := by
  rcases Tree.cases_of_not_isMeta plain with isEmpty | ⟨object, isLeaf⟩
  · exact isEmpty
  · rw [isLeaf, Tree.leafCount_leaf] at none
    cases none

/-- Where a pass over settled children stops. -/
theorem compressPass_eq_none_iff
    {slots : Fin assocArrayFanOut → Tree}
    (counted : ∀ i, (slots i).Counted)
    (whole : ∀ i, (slots i).Whole)
    (settled : ∀ i, (slots i).Settled) :
    compressPass slots = none ↔ ∃ i, StopsAt slots i := by
  have startSound := Pass.start_sound counted whole
  constructor
  · intro stopped
    obtain ⟨before, i, after, p, split, run, stops⟩ :=
      foldlM_eq_none_iff.mp stopped
    have nodup := List.nodup_finRange assocArrayFanOut
    rw [split] at nodup
    obtain ⟨beforeNodup, _, apart⟩ := List.nodup_append.mp nodup
    have visited := foldSlots_visited startSound beforeNodup run
    obtain ⟨early, late⟩ := finRange_split split
    have unvisited : i ∉ before :=
      fun member => apart i member i List.mem_cons_self rfl
    have isNode : (p.slots i).isMeta = true := by
      by_contra plain
      rw [Pass.foldSlot_plain (Bool.eq_false_iff.mpr plain)] at stops
      cases stops
    have startNode : (slots i).isMeta = true := by
      by_contra plain
      rw [visited.filled i (Bool.eq_false_iff.mpr plain)] at isNode
      cases isNode
    have same : p.slots i = slots i := by
      apply visited.kept i _ (Or.inl unvisited)
      intro isEmpty
      change slots i = _ at isEmpty
      rw [isEmpty] at startNode
      cases startNode
    obtain ⟨lead, address, nr, children, here⟩ :=
      Tree.exists_node_of_isMeta (visited.sound.whole i) isNode
    obtain ⟨fits, notFoldable⟩ :=
      (Pass.foldSlot_eq_none_iff visited.sound here).mp stops
    have occupied : p.slots i ≠ .empty := by
      rw [here]
      simp
    have countedHere := visited.sound.counted i
    rw [here] at countedHere
    have countEq : (slots i).leafCount = nr := by
      rw [← same, here, Tree.leafCount_node_eq,
        ← countedHere.nr_eq_slotLeafCount]
    have large : assocArrayFanOut ≤ (slots i).leafCount := by
      by_contra small
      rw [same] at notFoldable
      exact notFoldable (settled i startNode (by omega))
    -- The child fits only because every other slot is free by now.
    have fewFree := emptyCount_lt occupied
    have nrFree := visited.sound.nrFree_eq
    have othersEmpty : ∀ j, j ≠ i → p.slots j = .empty :=
      fun j different => empty_of_emptyCount occupied (by omega) different
    have total : slotLeafCount slots = (slots i).leafCount := by
      have kept : slotLeafCount p.slots = slotLeafCount slots :=
        visited.slotLeafCount_eq
      rw [← kept, ← same]
      apply slotLeafCount_eq_of_others
      intro j different
      rw [othersEmpty j different, Tree.leafCount_empty]
    refine ⟨i, startNode, by rw [← same]; exact notFoldable, by omega,
      fun j less => leafCount_eq_zero_of_total total (ne_of_lt less), ?_⟩
    intro j less
    by_contra stillThere
    have keptHere : p.slots j = slots j := by
      apply visited.kept j stillThere
      left
      intro member
      exact lt_asymm less ((early j).mp member)
    rw [othersEmpty j (ne_of_gt less)] at keptHere
    exact stillThere keptHere.symm
  · rintro ⟨i, startNode, notFoldable, large, earlier, later⟩
    obtain ⟨before, after, split⟩ :=
      List.append_of_mem (List.mem_finRange i)
    have nodup := List.nodup_finRange assocArrayFanOut
    rw [split] at nodup
    obtain ⟨beforeNodup, _, apart⟩ := List.nodup_append.mp nodup
    obtain ⟨early, late⟩ := finRange_split split
    have unvisited : i ∉ before :=
      fun member => apart i member i List.mem_cons_self rfl
    have total : slotLeafCount slots = (slots i).leafCount := by
      apply slotLeafCount_eq_of_others
      intro j different
      rcases lt_or_gt_of_ne different with less | greater
      · exact earlier j less
      · rw [later j greater, Tree.leafCount_empty]
    cases run : before.foldlM Pass.foldSlot (Pass.start slots) with
    | none =>
        rw [compressPass, split, List.foldlM_append]
        change (before.foldlM Pass.foldSlot (Pass.start slots)).bind _ = none
        rw [run]
        rfl
    | some p =>
        apply foldlM_eq_none_iff.mpr
        refine ⟨before, i, after, p, split, run, ?_⟩
        have visited := foldSlots_visited startSound beforeNodup run
        have same : p.slots i = slots i := by
          apply visited.kept i _ (Or.inl unvisited)
          intro isEmpty
          change slots i = _ at isEmpty
          rw [isEmpty] at startNode
          cases startNode
        have totalNow : slotLeafCount p.slots = (p.slots i).leafCount := by
          rw [visited.slotLeafCount_eq, same]
          exact total
        -- A retained child would hold leaves, and there are none left for it.
        have othersEmpty : ∀ j, j ≠ i → p.slots j = .empty := by
          intro j different
          have noLeaves := leafCount_eq_zero_of_total totalNow different
          apply Tree.eq_empty_of_plain _ noLeaves
          by_contra isNode
          have isNode : (p.slots j).isMeta = true := by simpa using isNode
          rcases lt_or_gt_of_ne different with less | greater
          · obtain ⟨sameHere, two⟩ :=
              visited.retains j ((early j).mpr less) isNode
            rw [sameHere] at noLeaves
            omega
          · have plain : ((Pass.start slots).slots j).isMeta = false := by
              change (slots j).isMeta = false
              rw [later j greater, Tree.isMeta_empty]
            rw [visited.filled j plain] at isNode
            cases isNode
        rw [← same] at startNode notFoldable large
        obtain ⟨lead, address, nr, children, here⟩ :=
          Tree.exists_node_of_isMeta (visited.sound.whole i) startNode
        apply (Pass.foldSlot_eq_none_iff visited.sound here).mpr
        refine ⟨?_, notFoldable⟩
        have countedHere := visited.sound.counted i
        rw [here] at countedHere
        rw [here, Tree.leafCount_node_eq,
          ← countedHere.nr_eq_slotLeafCount] at large
        have free : emptyCount p.slots + 1 = assocArrayFanOut := by
          have onlyHere :
              ∀ j, (p.slots j).isMeta = true → j ∈ [i] := by
            intro j isNode
            by_contra absent
            rw [othersEmpty j fun same =>
              absent (List.mem_singleton.mpr same)] at isNode
            cases isNode
          have balance :=
            slot_balance_of_metas (List.nodup_singleton i) onlyHere
          have isNodeHere : (p.slots i).isMeta = true := startNode
          simp only [List.countP_singleton, isNodeHere, if_true, List.map_cons,
            List.map_nil, List.sum_singleton,
            Tree.metaLeafCount_of_meta isNodeHere, totalNow] at balance
          omega
        have nrFree := visited.sound.nrFree_eq
        omega

/-- A node with fewer leaves than slots is compressed without stopping. -/
theorem compressPass_isSome
    {slots : Fin assocArrayFanOut → Tree}
    (counted : ∀ i, (slots i).Counted)
    (whole : ∀ i, (slots i).Whole)
    (settled : ∀ i, (slots i).Settled)
    (few : slotLeafCount slots < assocArrayFanOut) :
    ∃ q, compressPass slots = some q := by
  cases run : compressPass slots with
  | some q => exact ⟨q, rfl⟩
  | none =>
      obtain ⟨i, _, _, large, _⟩ :=
        (compressPass_eq_none_iff counted whole settled).mp run
      have bound := leafCount_le_slotLeafCount slots i
      omega

/-- A second pass over what the first one retained folds everything. -/
theorem compressPass_second
    {slots : Fin assocArrayFanOut → Tree} {p q : Pass}
    (counted : ∀ i, (slots i).Counted)
    (whole : ∀ i, (slots i).Whole)
    (first : compressPass slots = some p)
    (few : p.nr < assocArrayFanOut)
    (second : compressPass p.slots = some q) :
    q.retained = false := by
  have run := compressPass_visited counted whole first
  have total : slotLeafCount p.slots ≤ assocArrayFanOut := by
    rw [run.slotLeafCount_eq]
    have nrEq := run.nr_eq_slotLeafCount
    change slotLeafCount slots ≤ _
    omega
  apply Bool.eq_false_iff.mpr
  intro retained
  have crowded :=
    (compressPass_retained_iff run.sound.counted run.sound.whole total
      second).mp retained
  refine not_crowded_of_pos ?_ crowded
  intro i member isNode
  obtain ⟨same, two⟩ := run.retains i member isNode
  rw [same]
  omega

end KernelStuff.AssocArrayGc
