import Mathlib.Logic.Function.Basic

/-!
# A heap of typed cells

Addresses are allocation identities: the allocator hands out `next`, `next + 1`
and so on, and an identity is never handed out twice.  A freed cell reads as
`none`, like a cell that was never allocated.  Stores and frees are recorded in
the order in which they happen; the contents a cell is allocated with are not a
store.
-/

namespace KernelStuff.Library

universe u

/-- Cells below `next` may be live; no cell at or above it is. -/
structure Heap (Cell : Type u) where
  cells : Nat → Option Cell
  next : Nat
  written : List Nat
  fresh : ∀ address, next ≤ address → cells address = none

namespace Heap

variable {Cell : Type u}

/-- The heap whose live cells are the entries of a list, in order. -/
def ofList (entries : List Cell) : Heap Cell where
  cells := fun address => entries[address]?
  next := entries.length
  written := []
  fresh := fun _ beyond => List.getElem?_eq_none beyond

/-- Allocate a cell; its address is the old value of `next`. -/
def alloc (heap : Heap Cell) (content : Cell) : Heap Cell where
  cells := fun address =>
    if address = heap.next then some content else heap.cells address
  next := heap.next + 1
  written := heap.written
  fresh := by
    intro address beyond
    rw [if_neg (by omega)]
    exact heap.fresh address (by omega)

/-- Overwrite a live cell. A dead cell stays dead. -/
def store (heap : Heap Cell) (target : Nat) (content : Cell) : Heap Cell where
  cells := fun address =>
    if address = target then
      (heap.cells target).map fun _ => content
    else
      heap.cells address
  next := heap.next
  written := heap.written ++ [target]
  fresh := by
    intro address beyond
    by_cases same : address = target
    · subst same
      simp [heap.fresh address beyond]
    · rw [if_neg same]
      exact heap.fresh address beyond

/-- Free a cell. -/
def free (heap : Heap Cell) (target : Nat) : Heap Cell where
  cells := fun address =>
    if address = target then none else heap.cells address
  next := heap.next
  written := heap.written ++ [target]
  fresh := by
    intro address beyond
    by_cases same : address = target
    · rw [if_pos same]
    · rw [if_neg same]
      exact heap.fresh address beyond

theorem lt_next_of_cells {heap : Heap Cell} {address : Nat} {content : Cell}
    (live : heap.cells address = some content) :
    address < heap.next := by
  by_contra beyond
  rw [heap.fresh address (by omega)] at live
  cases live

@[simp]
theorem ofList_next (entries : List Cell) :
    (ofList entries).next = entries.length := rfl

@[simp]
theorem ofList_cells (entries : List Cell) (address : Nat) :
    (ofList entries).cells address = entries[address]? := rfl

@[simp]
theorem alloc_next (heap : Heap Cell) (content : Cell) :
    (heap.alloc content).next = heap.next + 1 := rfl

@[simp]
theorem alloc_written (heap : Heap Cell) (content : Cell) :
    (heap.alloc content).written = heap.written := rfl

@[simp]
theorem alloc_cells_next (heap : Heap Cell) (content : Cell) :
    (heap.alloc content).cells heap.next = some content := by
  simp [alloc]

theorem alloc_cells_of_ne
    (heap : Heap Cell) (content : Cell) {address : Nat}
    (different : address ≠ heap.next) :
    (heap.alloc content).cells address = heap.cells address := by
  simp [alloc, different]

theorem alloc_cells_of_lt
    (heap : Heap Cell) (content : Cell) {address : Nat}
    (below : address < heap.next) :
    (heap.alloc content).cells address = heap.cells address :=
  alloc_cells_of_ne heap content (Nat.ne_of_lt below)

@[simp]
theorem store_next (heap : Heap Cell) (target : Nat) (content : Cell) :
    (heap.store target content).next = heap.next := rfl

@[simp]
theorem store_written (heap : Heap Cell) (target : Nat) (content : Cell) :
    (heap.store target content).written = heap.written ++ [target] := rfl

theorem store_cells_self
    {heap : Heap Cell} {target : Nat} {old : Cell} (content : Cell)
    (live : heap.cells target = some old) :
    (heap.store target content).cells target = some content := by
  simp [store, live]

theorem store_cells_of_ne
    (heap : Heap Cell) {target address : Nat} (content : Cell)
    (different : address ≠ target) :
    (heap.store target content).cells address = heap.cells address := by
  simp [store, different]

@[simp]
theorem free_next (heap : Heap Cell) (target : Nat) :
    (heap.free target).next = heap.next := rfl

@[simp]
theorem free_written (heap : Heap Cell) (target : Nat) :
    (heap.free target).written = heap.written ++ [target] := rfl

@[simp]
theorem free_cells_self (heap : Heap Cell) (target : Nat) :
    (heap.free target).cells target = none := by
  simp [free]

theorem free_cells_of_ne
    (heap : Heap Cell) {target address : Nat}
    (different : address ≠ target) :
    (heap.free target).cells address = heap.cells address := by
  simp [free, different]

/-! ## Frames -/

/-- From `before` to `after` only cells in `touched`, and cells that were not
allocated yet, have been written. -/
structure Touches (touched : Nat → Prop) (before after : Heap Cell) :
    Prop where
  next_le : before.next ≤ after.next
  cells_eq : ∀ address, address < before.next → ¬ touched address →
    after.cells address = before.cells address
  written_eq : ∃ targets, after.written = before.written ++ targets ∧
    ∀ address ∈ targets, touched address ∨ before.next ≤ address

namespace Touches

variable {touched wider : Nat → Prop} {before middle after : Heap Cell}

theorem refl (heap : Heap Cell) : Touches touched heap heap where
  next_le := Nat.le_refl _
  cells_eq := fun _ _ _ => rfl
  written_eq := ⟨[], (List.append_nil _).symm, fun _ member => by
    simp at member⟩

/-- The second step may also write what the first one allocated. -/
theorem trans
    (left : Touches touched before middle)
    (right : Touches wider middle after)
    (within : ∀ address, wider address →
      touched address ∨ before.next ≤ address) :
    Touches touched before after where
  next_le := Nat.le_trans left.next_le right.next_le
  cells_eq := by
    intro address below untouched
    rw [right.cells_eq address (Nat.lt_of_lt_of_le below left.next_le)]
    · exact left.cells_eq address below untouched
    · intro wide
      rcases within address wide with inside | beyond
      · exact untouched inside
      · omega
  written_eq := by
    obtain ⟨first, firstEq, firstWithin⟩ := left.written_eq
    obtain ⟨second, secondEq, secondWithin⟩ := right.written_eq
    refine ⟨first ++ second, ?_, ?_⟩
    · rw [secondEq, firstEq, List.append_assoc]
    · intro address member
      rcases List.mem_append.mp member with early | late
      · exact firstWithin address early
      · rcases secondWithin address late with wide | beyond
        · exact within address wide
        · exact Or.inr (Nat.le_trans left.next_le beyond)

theorem mono
    (frame : Touches touched before after)
    (within : ∀ address, touched address →
      wider address ∨ before.next ≤ address) :
    Touches wider before after :=
  (refl before).trans frame within

theorem andAlloc
    (frame : Touches touched before after) (content : Cell) :
    Touches touched before (after.alloc content) where
  next_le := Nat.le_succ_of_le frame.next_le
  cells_eq := by
    intro address below untouched
    rw [alloc_cells_of_lt after content
      (Nat.lt_of_lt_of_le below frame.next_le)]
    exact frame.cells_eq address below untouched
  written_eq := frame.written_eq

/-- A further write, to an allowed cell or to one allocated since. -/
private theorem andWrite
    {last : Heap Cell} {target : Nat}
    (frame : Touches touched before after)
    (allowed : touched target ∨ before.next ≤ target)
    (nextEq : last.next = after.next)
    (writtenEq : last.written = after.written ++ [target])
    (cellsEq : ∀ address, address ≠ target →
      last.cells address = after.cells address) :
    Touches touched before last where
  next_le := by
    rw [nextEq]
    exact frame.next_le
  cells_eq := by
    intro address below untouched
    rw [cellsEq]
    · exact frame.cells_eq address below untouched
    · rintro rfl
      rcases allowed with inside | beyond
      · exact untouched inside
      · omega
  written_eq := by
    obtain ⟨targets, targetsEq, within⟩ := frame.written_eq
    refine ⟨targets ++ [target], ?_, ?_⟩
    · rw [writtenEq, targetsEq, List.append_assoc]
    · intro address member
      rcases List.mem_append.mp member with early | last
      · exact within address early
      · rw [List.mem_singleton.mp last]
        exact allowed

theorem andStore
    {target : Nat}
    (frame : Touches touched before after)
    (allowed : touched target ∨ before.next ≤ target) (content : Cell) :
    Touches touched before (after.store target content) :=
  frame.andWrite allowed rfl rfl
    fun _ different => store_cells_of_ne after content different

theorem ofStore (heap : Heap Cell) (target : Nat) (content : Cell) :
    Touches (· = target) heap (heap.store target content) := by
  have same : Touches (· = target) heap heap := refl heap
  exact same.andStore (Or.inl rfl) content

theorem andFree
    {target : Nat}
    (frame : Touches touched before after)
    (allowed : touched target ∨ before.next ≤ target) :
    Touches touched before (after.free target) :=
  frame.andWrite allowed rfl rfl
    fun _ different => free_cells_of_ne after different

end Touches

/-! ## The record of writes -/

/-- From `before` to `after` the record has grown by writes to allocated cells,
and every cell that was there and is not among them is as it was. -/
structure Records (before after : Heap Cell) : Prop where
  next_le : before.next ≤ after.next
  written_eq : ∃ targets, after.written = before.written ++ targets ∧
    (∀ address ∈ targets, address < after.next) ∧
    ∀ address, address < before.next → address ∉ targets →
      after.cells address = before.cells address

namespace Records

variable {before middle after : Heap Cell}

theorem refl (heap : Heap Cell) : Records heap heap where
  next_le := Nat.le_refl _
  written_eq :=
    ⟨[], (List.append_nil _).symm, fun _ member => by simp at member,
      fun _ _ _ => rfl⟩

theorem trans
    (left : Records before middle) (right : Records middle after) :
    Records before after where
  next_le := Nat.le_trans left.next_le right.next_le
  written_eq := by
    obtain ⟨first, firstEq, firstBelow, firstKept⟩ := left.written_eq
    obtain ⟨second, secondEq, secondBelow, secondKept⟩ := right.written_eq
    refine ⟨first ++ second, ?_, ?_, ?_⟩
    · rw [secondEq, firstEq, List.append_assoc]
    · intro address member
      rcases List.mem_append.mp member with early | late
      · exact Nat.lt_of_lt_of_le (firstBelow address early) right.next_le
      · exact secondBelow address late
    · intro address below absent
      rw [List.mem_append, not_or] at absent
      rw [secondKept address (Nat.lt_of_lt_of_le below left.next_le) absent.2]
      exact firstKept address below absent.1

theorem written_startsWith (records : Records before after) :
    before.written <+: after.written := by
  obtain ⟨targets, writtenEq, _⟩ := records.written_eq
  exact ⟨targets, writtenEq.symm⟩

theorem andAlloc (records : Records before after) (content : Cell) :
    Records before (after.alloc content) :=
  records.trans
    { next_le := Nat.le_succ _
      written_eq :=
        ⟨[], (List.append_nil _).symm, fun _ member => by simp at member,
          fun _ below _ => alloc_cells_of_lt after content below⟩ }

/-- A further write, to a cell that has been allocated. -/
private theorem andWrite
    {last : Heap Cell} {target : Nat}
    (records : Records before after)
    (allocated : target < after.next)
    (nextEq : last.next = after.next)
    (writtenEq : last.written = after.written ++ [target])
    (cellsEq : ∀ address, address ≠ target →
      last.cells address = after.cells address) :
    Records before last :=
  records.trans
    { next_le := Nat.le_of_eq nextEq.symm
      written_eq := by
        refine ⟨[target], writtenEq, ?_, ?_⟩
        · intro address member
          rw [List.mem_singleton.mp member, nextEq]
          exact allocated
        · intro address _ absent
          exact cellsEq address fun same =>
            absent (List.mem_singleton.mpr same) }

theorem andStore
    {target : Nat} (records : Records before after)
    (allocated : target < after.next) (content : Cell) :
    Records before (after.store target content) :=
  records.andWrite allocated rfl rfl
    fun _ different => store_cells_of_ne after content different

theorem andFree
    {target : Nat} (records : Records before after)
    (allocated : target < after.next) :
    Records before (after.free target) :=
  records.andWrite allocated rfl rfl
    fun _ different => free_cells_of_ne after different

/-- Cells that no recorded write went to are as they were. -/
theorem cells_eq
    (records : Records before after) (start : before.written = [])
    {address : Nat} (below : address < before.next)
    (untouched : address ∉ after.written) :
    after.cells address = before.cells address := by
  obtain ⟨targets, writtenEq, _, kept⟩ := records.written_eq
  rw [start, List.nil_append] at writtenEq
  rw [writtenEq] at untouched
  exact kept address below untouched

end Records

end Heap

end KernelStuff.Library
