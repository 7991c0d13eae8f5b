import KernelStuff.AssocArrayGc.Allocation
import KernelStuff.AssocArrayGc.Bookkeeping
import KernelStuff.AssocArrayGc.Listing

/-!
# The reproducer

The constructor script copies the array of a core dump into a program, and the
program collects the copy and prints it before and after.  What these printouts show
is what happened in the kernel, as far as an array without shortcuts goes: the
call ends the same way on the copy, and leaves a copy behind.
-/

namespace KernelStuff.AssocArrayGc

open KernelStuff.Library

section Faithful

variable {σ : Type}

/-- Two calls on an array and its copy end alike; a tree that is published holds
the leaves to keep. -/
inductive EndsAlike (array copy : AssocArray) (kept : List Leaf) :
    Exit σ → Exit σ → Prop
  | collected {final image : Gc σ} {t u : Tree}
      (published : WellFormed final.heap final.array t)
      (copied : WellFormed image.heap image.array u)
      (copies : t.Copies u) (counted : t.Counted) (leaves : t.leaves.Perm kept)
      (total : final.array.nrLeavesOnTree = t.leafCount)
      (copiedTotal : image.array.nrLeavesOnTree = u.leafCount)
      (iteratorData : final.iteratorData = image.iteratorData) :
      EndsAlike array copy kept (.returned 0 final) (.returned 0 image)
  | enomem {final image : Gc σ} (unchanged : final.array = array)
      (copyUnchanged : image.array = copy)
      (iteratorData : final.iteratorData = image.iteratorData) :
      EndsAlike array copy kept (.returned (-ENOMEM) final)
        (.returned (-ENOMEM) image)
  | bug (check otherCheck : BugOn) (heap otherHeap : Heap Object) :
      EndsAlike array copy kept (.bug check heap) (.bug otherCheck otherHeap)

/-- The statements of an array build a copy of it. -/
theorem constructArray_copies
    {heap : Heap Object} {array : AssocArray} {t : Tree}
    (wellFormed : WellFormed heap array t) (leadless : t.Leadless)
    (target : Heap Object) :
    ∃ depth stmts built u,
      (∀ fuel, depth ≤ fuel → constructArray heap fuel array = some stmts) ∧
        runStatements stmts (Builder.start target) = .ok built ∧
        WellFormed built.heap built.array u ∧ t.Copies u := by
  obtain ⟨lead, address, nr, slots, rfl⟩ :=
    Tree.exists_node_of_isMeta wellFormed.whole wellFormed.root_meta
  obtain ⟨rfl, plain⟩ := leadless
  obtain ⟨-, held, children⟩ := wellFormed.represented
  obtain ⟨depth, enough⟩ :=
    constructNode_of_slots held fun i =>
      constructSlot_of_represented i (plain i) (children i)
  obtain ⟨built, filled, ran, -, sameArray, -, rootHeld, alike, represented, -⟩ :=
    runStatements_emitNode (fun i => slotBuilds_of_leadless (plain i) rfl)
      (s := ⟨target.alloc (.node zeroNode), ⟨.node target.next, array.nrLeavesOnTree⟩,
        some target.next⟩)
      rfl (Heap.alloc_cells_next _ _) (fun _ => rfl) (leadIndex none 0) nr
  have copies : (Tree.node none address nr slots).Copies
      (.node none target.next nr filled) :=
    .of_isomorphic ⟨rfl, plain⟩ ⟨_, filled, rfl, alike⟩
  have program :
      runStatements
          (.setTotal array.nrLeavesOnTree :: .makeNode :: .setRoot ::
            emitNode (leadIndex none 0) nr slots)
          (Builder.start target) = .ok built :=
    ran
  refine ⟨depth, _, built, _, fun fuel deep => ?_, program, ?_, copies⟩
  · rw [constructArray, wellFormed.root_ptr]
    simp only [scriptPtrToNode, Tree.ptr, Option.bind_eq_bind, Option.bind_some,
      enough fuel deep]
    rfl
  · exact
      { root_meta := rfl
        root_ptr := congrArg AssocArray.root sameArray
        whole := (copies.isomorphic.leadless ⟨rfl, plain⟩).whole
        represented := ⟨trivial, rootHeld, represented⟩ }

theorem gc_copies
    {heap otherHeap : Heap Object} {array copy : AssocArray} {t u : Tree}
    (wellFormed : WellFormed heap array t)
    (otherWellFormed : WellFormed otherHeap copy u) (copies : t.Copies u)
    (variant : Variant) (iterator : Leaf → σ → Bool × σ) (data : σ)
    (fails others : Nat → Bool)
    (refused : ∀ k, fails (heap.next + k) = others (otherHeap.next + k)) :
    ∃ exit image,
      GcExits variant iterator fails heap array data exit ∧
        GcExits variant iterator others otherHeap copy data image ∧
        EndsAlike array copy (accepted iterator t.leaves data).1 exit image := by
  cases first : fails heap.next with
  | true =>
      have second : others otherHeap.next = true := (refused 0).symm.trans first
      exact ⟨_, _, gc_refused variant iterator fails wellFormed data first,
        gc_refused variant iterator others otherWellFormed data second,
        .enomem rfl rfl rfl⟩
  | false =>
      have second : others otherHeap.next = false := (refused 0).symm.trans first
      have here := gc_refines variant iterator fails wellFormed data first
      have there := gc_refines variant iterator others otherWellFormed data second
      have later : ∀ k,
          fails (heap.next + 1 + k) = others (otherHeap.next + 1 + k) := by
        intro k
        rw [Nat.add_assoc, Nat.add_assoc]
        exact refused (1 + k)
      have ledgers : (callLedger heap data).Copies (heap.next + 1)
          (otherHeap.next + 1) (callLedger otherHeap data) :=
        ⟨rfl, 0, rfl, rfl⟩
      have outcomes := collect_copies variant iterator later copies ledgers
      generalize left : collect variant iterator fails t (callLedger heap data)
        = outcome at here outcomes
      generalize right : collect variant iterator others u (callLedger otherHeap data)
        = other at there outcomes
      cases outcomes with
      | @done v w after imageAfter copies states =>
          obtain ⟨last, final, run, _, stops, built, arrayEq, dataEq, _⟩ := here
          obtain ⟨otherLast, image, otherRun, _, otherStops, otherBuilt,
            otherArrayEq, otherDataEq, _⟩ := there
          have collected := collect_collected left
          have otherCollected := collect_collected right
          have isNode := (collect_isMeta left).trans wellFormed.root_meta
          have otherIsNode :=
            (collect_isMeta right).trans otherWellFormed.root_meta
          have leaves : v.leaves.Perm (accepted iterator t.leaves data).1 := by
            rw [survivors_leaves]
            exact Multiset.coe_eq_coe.mp (collect_leaves left).1
          refine ⟨_, _, ⟨last, run, stops⟩, ⟨otherLast, otherRun, otherStops⟩,
            .collected (built.wellFormed arrayEq isNode collected.whole)
              (otherBuilt.wellFormed otherArrayEq otherIsNode otherCollected.whole)
              copies collected.counted leaves (by rw [arrayEq])
              (by rw [otherArrayEq]) ?_⟩
          rw [dataEq, otherDataEq]
          exact states.iteratorData
      | enomem copies states =>
          obtain ⟨final, exits, _, arrayEq, dataEq, _⟩ := here
          obtain ⟨image, otherExits, _, otherArrayEq, otherDataEq, _⟩ := there
          refine ⟨_, _, exits, otherExits, .enomem arrayEq otherArrayEq ?_⟩
          rw [dataEq, otherDataEq]
          exact states.iteratorData
      | bug =>
          obtain ⟨check, after, exits, _⟩ := here
          obtain ⟨otherCheck, otherAfter, otherExits, _⟩ := there
          exact ⟨_, _, exits, otherExits, .bug check otherCheck after otherAfter⟩

/-- Without failing allocations memory does not run out. -/
theorem gc_not_enomem
    {heap : Heap Object} {array : AssocArray} {t : Tree}
    (wellFormed : WellFormed heap array t) (variant : Variant)
    (iterator : Leaf → σ → Bool × σ) (data : σ) {final : Gc σ} :
    ¬ GcExits variant iterator (fun _ => false) heap array data
      (.returned (-ENOMEM) final) := by
  intro exits
  have refines := gc_refines variant iterator (fun _ => false) wellFormed data rfl
  cases outcome : collect variant iterator (fun _ => false) t (callLedger heap data) with
  | enomem u after => exact absurd outcome (collect_ne_enomem variant iterator)
  | bug =>
      rw [outcome] at refines
      obtain ⟨check, after, other, _⟩ := refines
      cases Halts.unique exits other
  | done u after =>
      rw [outcome] at refines
      obtain ⟨last, other, run, _, stops, _⟩ := refines
      cases Halts.unique exits ⟨last, run, stops⟩

/-- The script writes the statements of every well-formed array without
shortcuts, they run to the end, and a call of the collector on what they build
ends as it does on the array, whatever the iterator answers and whichever
allocations fail. -/
theorem reproducer_faithful
    {heap : Heap Object} {array : AssocArray} {t : Tree}
    (wellFormed : WellFormed heap array t) (leadless : t.Leadless)
    (target : Heap Object) :
    ∃ depth stmts built,
      (∀ fuel, depth ≤ fuel → constructArray heap fuel array = some stmts) ∧
        runStatements stmts (Builder.start target) = .ok built ∧
        ∀ (variant : Variant) (iterator : Leaf → σ → Bool × σ) (data : σ)
          (fails others : Nat → Bool),
          (∀ k, fails (heap.next + k) = others (built.heap.next + k)) →
            ∃ exit image,
              GcExits variant iterator fails heap array data exit ∧
                GcExits variant iterator others built.heap built.array data image ∧
                EndsAlike array built.array (accepted iterator t.leaves data).1 exit
                  image := by
  obtain ⟨depth, stmts, built, u, script, ran, copied, copies⟩ :=
    constructArray_copies wellFormed leadless target
  exact ⟨depth, stmts, built, script, ran,
    gc_copies wellFormed copied copies⟩

/-- The array of two nodes. -/
theorem reproducer_faithful_tower :
    ∃ depth stmts built,
      (∀ fuel, depth ≤ fuel →
        constructArray towerHeap fuel ⟨.node 0, 3⟩ = some stmts) ∧
        runStatements stmts (Builder.start towerHeap) = .ok built ∧
        ∀ (variant : Variant) (iterator : Leaf → Nat → Bool × Nat) (data : Nat)
          (fails others : Nat → Bool),
          (∀ k, fails (towerHeap.next + k) = others (built.heap.next + k)) →
            ∃ exit image,
              GcExits variant iterator fails towerHeap ⟨.node 0, 3⟩ data exit ∧
                GcExits variant iterator others built.heap built.array data image ∧
                EndsAlike ⟨.node 0, 3⟩ built.array
                  (accepted iterator (Tree.node none 0 3 (towerSlots 1)).leaves data).1
                  exit image :=
  reproducer_faithful towerArray_wellFormed (tower_leadless 0 1) towerHeap

end Faithful

/-! ## The program -/

/-- `datas_to_keep`. -/
def datasToKeep : List (BitVec 64) :=
  [0xffff88bab100fa00#64, 0xffff88bd8d224e00#64, 0xffff88bcdb35fe00#64,
    0xffff88b100e37600#64, 0xffff887b0cd30400#64, 0xffff88b1c0c7fe00#64,
    0xffff88bd5ed59c00#64, 0xffff88b1c0db3f00#64, 0xffff887b0cd30c00#64,
    0xffff887b0cd30000#64, 0xffff887b0cd31c00#64, 0xffff887b0cd31300#64,
    0xffff887b0cd31a00#64, 0xffff887a71cbf000#64, 0xffff8875250cdf00#64]

/-- `my_iterator`, which does not use its second argument. -/
def myIterator (object : Leaf) (iteratorData : Unit) : Bool × Unit :=
  (datasToKeep.any fun data => data == object.word, iteratorData)

/-- How `make_array` ends when a helper fails. -/
def BuildFault.ending : BuildFault → PrintEnd
  | .getNodeAssertion | .getParentAssertion => .assertion
  | .wildPointer => .wildPointer

/-- What `main` writes behind the call of the collector, whose result it does not
look at. -/
def printAfter (location : Nat → BitVec 64) (fuel : Nat) : Exit Unit → Printed
  | .returned _ final =>
      (Printed.written "After GC:\n".toList).andThen
        (assocArrayPrint location final.heap fuel final.array)
  | .bug _ _ => ⟨[], .assertion⟩
  | .fault => ⟨[], .wildPointer⟩

/-- The printouts of `main` with the given `construct_array.c`.  The messages that
`assoc_array_gc` and `assoc_array_apply_edit` print to the same stdout, between
`Running GC...` and `After GC:`, are left out. -/
inductive MainPrints (variant : Variant) (location : Nat → BitVec 64)
    (fails : Nat → Bool) (stmts : List Statement) (heap : Heap Object)
    (fuel : Nat) : Printed → Prop
  | stopsEarly {fault : BuildFault}
      (failed : runStatements stmts (Builder.start heap) = .error fault) :
      MainPrints variant location fails stmts heap fuel ⟨[], fault.ending⟩
  | stopsPrinting {built : Builder}
      (made : runStatements stmts (Builder.start heap) = .ok built)
      (stops : (assocArrayPrint location built.heap fuel built.array).ending ≠
        .finished) :
      MainPrints variant location fails stmts heap fuel
        ((Printed.written "Before GC:\n".toList).andThen
          (assocArrayPrint location built.heap fuel built.array))
  | collects {built : Builder} {exit : Exit Unit}
      (made : runStatements stmts (Builder.start heap) = .ok built)
      (goesOn : (assocArrayPrint location built.heap fuel built.array).ending =
        .finished)
      (exits : GcExits variant myIterator fails built.heap built.array () exit) :
      MainPrints variant location fails stmts heap fuel
        (((Printed.written "Before GC:\n".toList).andThen
          (assocArrayPrint location built.heap fuel built.array)).andThen
            ((Printed.written "Running GC...\n".toList).andThen
              (printAfter location fuel exit)))

/-- The words of the leaves that are listed. -/
def leafWords (lines : List Line) : List (BitVec 64) :=
  (lines.filter fun line => !line.isNode).map Line.word

/-- The lines of a tree, as text. -/
def Tree.listing (location : Nat → BitVec 64) (t : Tree) : Text :=
  (t.lines location 0 0).flatMap Line.text

theorem leafWords_lines (location : Nat → BitVec 64) :
    ∀ (t : Tree) (level index : Nat),
      leafWords (t.lines location level index) = t.leaves.map Leaf.word
  | .empty, _, _ => rfl
  | .leaf _, _, _ => rfl
  | .node _ _ _ slots, level, _ => by
      have children := fun i : Fin assocArrayFanOut =>
        leafWords_lines location (slots i) (level + 1) i
      simp only [leafWords] at children
      simp only [leafWords, Tree.lines, Tree.leaves, Bool.not_true,
        Bool.false_eq_true, not_false_eq_true, List.filter_cons_of_neg,
        List.filter_flatMap, List.map_flatMap, children]
  | .dangling _ _, _, _ => rfl

/-- An iterator without a state accepts the leaves it accepts anywhere. -/
theorem accepted_myIterator (objects : List Leaf) :
    (accepted myIterator objects ()).1 =
      objects.filter fun object => datasToKeep.any fun data => data == object.word := by
  induction objects with
  | nil => rfl
  | cons object rest inductionHypothesis =>
      rw [accepted, List.filter_cons, ← inductionHypothesis]
      rfl

theorem assocArrayPrint_shows
    {heap : Heap Object} {array : AssocArray} {t : Tree}
    (wellFormed : WellFormed heap array t) (leadless : t.Leadless)
    (location : Nat → BitVec 64) :
    ∃ depth, ∀ fuel, depth ≤ fuel →
      assocArrayPrint location heap fuel array = .written (t.listing location) := by
  obtain ⟨depth, enough⟩ :=
    assocArrayPrintPtr_represented location wellFormed.represented 0 0
  refine ⟨depth, fun fuel deep => ?_⟩
  rw [assocArrayPrint, wellFormed.root_ptr, enough fuel deep,
    t.printed_of_leadless location leadless, Tree.listing]

/-- What the printouts of `main` show of an array is what the collector did to it in
the kernel.
Without failing allocations the second printout is missing exactly if the call
stops at a `BUG_ON` there; and otherwise the array it shows is a copy of the one
the kernel ends up with, and has the objects to keep and no others. -/
theorem repro_main
    {heap : Heap Object} {array : AssocArray} {t : Tree}
    (wellFormed : WellFormed heap array t) (leadless : t.Leadless)
    (target : Heap Object) (location : Nat → BitVec 64) :
    ∃ depth stmts u,
      (∀ fuel, depth ≤ fuel → constructArray heap fuel array = some stmts) ∧
      t.Copies u ∧
      ∀ variant, ∃ enough out,
        (∀ fuel, enough ≤ fuel → ∀ other,
          MainPrints variant location (fun _ => false) stmts target fuel other ↔
            other = out) ∧
        ((∃ check after,
            GcExits variant myIterator (fun _ => false) heap array ()
                (.bug check after) ∧
              out = ⟨"Before GC:\n".toList ++ u.listing location ++
                "Running GC...\n".toList, .assertion⟩) ∨
          ∃ final v w,
            GcExits variant myIterator (fun _ => false) heap array ()
                (.returned 0 final) ∧
              WellFormed final.heap final.array v ∧ v.Copies w ∧
              out = .written ("Before GC:\n".toList ++ u.listing location ++
                "Running GC...\n".toList ++ "After GC:\n".toList ++
                w.listing location) ∧
              (leafWords (w.lines location 0 0)).Perm
                ((leafWords (u.lines location 0 0)).filter fun word =>
                  datasToKeep.any fun data => data == word)) := by
  obtain ⟨depth, stmts, built, u, script, ran, copied, copies⟩ :=
    constructArray_copies wellFormed leadless target
  have uLeadless := copies.isomorphic.leadless leadless
  have sameLeaves := copies.leaves_eq
  obtain ⟨shownDepth, shown⟩ := assocArrayPrint_shows copied uLeadless location
  refine ⟨depth, stmts, u, script, copies, fun variant => ?_⟩
  obtain ⟨exit, image, exits, imageExits, alike⟩ :=
    gc_copies wellFormed copied copies variant myIterator ()
      (fun _ => false) (fun _ => false) (fun _ => rfl)
  have prints : ∀ fuel, shownDepth ≤ fuel → ∀ other,
      MainPrints variant location (fun _ => false) stmts target fuel other ↔
        other = (Printed.written ("Before GC:\n".toList ++ u.listing location)).andThen
          ((Printed.written "Running GC...\n".toList).andThen
            (printAfter location fuel image)) := by
    intro fuel deep other
    have before := shown fuel deep
    constructor
    · intro printed
      cases printed with
      | stopsEarly failed => cases ran.symm.trans failed
      | stopsPrinting made stops =>
          cases ran.symm.trans made
          rw [before] at stops
          exact absurd rfl stops
      | collects made goesOn otherExits =>
          cases ran.symm.trans made
          cases Halts.unique imageExits otherExits
          rw [before]
          rfl
    · intro same
      have printed : MainPrints variant location (fun _ => false) stmts target fuel
          _ :=
        .collects ran (by rw [before]; rfl) imageExits
      rw [before] at printed
      exact same ▸ printed
  cases alike with
  | bug check otherCheck after otherAfter =>
      exact ⟨shownDepth, _, fun fuel deep => prints fuel deep,
        .inl ⟨check, after, exits, rfl⟩⟩
  | enomem unchanged copyUnchanged iteratorData =>
      exact absurd exits (gc_not_enomem wellFormed variant myIterator ())
  | @collected final image v w published copied copies counted leaves total copiedTotal
      iteratorData =>
      obtain ⟨afterDepth, shownAfter⟩ :=
        assocArrayPrint_shows copied (copies.isomorphic.leadless copies.leadless)
          location
      refine ⟨max shownDepth afterDepth, _, fun fuel deep other => ?_,
        .inr ⟨final, v, w, exits, published, copies, rfl, ?_⟩⟩
      · rw [prints fuel (by omega), printAfter, shownAfter fuel (by omega)]
        simp only [Printed.andThen, Printed.written, List.append_assoc]
      · rw [leafWords_lines, leafWords_lines, ← copies.leaves_eq, ← sameLeaves,
          List.filter_map]
        rw [accepted_myIterator] at leaves
        exact leaves.map Leaf.word

theorem repro_main_tower :
    ∃ depth stmts u,
      (∀ fuel, depth ≤ fuel →
        constructArray towerHeap fuel ⟨.node 0, 3⟩ = some stmts) ∧
      (Tree.node none 0 3 (towerSlots 1)).Copies u ∧
      ∀ variant, ∃ enough out,
        (∀ fuel, enough ≤ fuel → ∀ other,
          MainPrints variant (fun address => BitVec.ofNat 64 (4 * address))
            (fun _ => false) stmts towerHeap fuel other ↔ other = out) ∧
        ((∃ check after,
            GcExits variant myIterator (fun _ => false) towerHeap ⟨.node 0, 3⟩ ()
                (.bug check after) ∧
              out = ⟨"Before GC:\n".toList ++
                u.listing (fun address => BitVec.ofNat 64 (4 * address)) ++
                "Running GC...\n".toList, .assertion⟩) ∨
          ∃ final v w,
            GcExits variant myIterator (fun _ => false) towerHeap ⟨.node 0, 3⟩ ()
                (.returned 0 final) ∧
              WellFormed final.heap final.array v ∧ v.Copies w ∧
              out = .written ("Before GC:\n".toList ++
                u.listing (fun address => BitVec.ofNat 64 (4 * address)) ++
                "Running GC...\n".toList ++ "After GC:\n".toList ++
                w.listing (fun address => BitVec.ofNat 64 (4 * address))) ∧
              (leafWords (w.lines (fun address => BitVec.ofNat 64 (4 * address))
                0 0)).Perm
                ((leafWords (u.lines (fun address => BitVec.ofNat 64 (4 * address))
                  0 0)).filter fun word =>
                    datasToKeep.any fun data => data == word)) :=
  repro_main towerArray_wellFormed (tower_leadless 0 1) towerHeap
    fun address => BitVec.ofNat 64 (4 * address)

end KernelStuff.AssocArrayGc
