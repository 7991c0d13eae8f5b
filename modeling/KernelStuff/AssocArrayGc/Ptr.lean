import Mathlib.Algebra.Order.Ring.Nat
import Mathlib.Data.Fintype.Basic
import Mathlib.Data.List.FinRange

/-!
# Tagged pointers of the associative array

A `struct assoc_array_ptr *` is a word whose low two bits say what it points to:
bit 0 is clear on a leaf (or on the null pointer) and set on a node or a
shortcut, and bit 1 tells the last two apart.  `Ptr` names the four cases.
`Ptr.toWord` writes a pointer back as the word the C code tests, and the
predicates below are the C bit tests on that word.
-/

namespace KernelStuff.AssocArrayGc

/-- Number of slots per node. -/
abbrev assocArrayFanOut : Nat := 16

scoped instance neZero_assocArrayFanOut : NeZero assocArrayFanOut := ⟨by decide⟩

/-- log2 of the fan-out: the number of key bits one level consumes. -/
def assocArrayLevelStep : Nat := 4

/-- Key data is retrieved in chunks of this many bits. -/
def assocArrayKeyChunkSize : Nat := 64

def assocArrayKeyChunkShift : Nat := 6

def assocArrayPtrTypeMask : BitVec 64 := 1#64
def assocArrayPtrMetaType : BitVec 64 := 1#64
def assocArrayPtrSubtypeMask : BitVec 64 := 2#64
def assocArrayPtrNodeSubtype : BitVec 64 := 0#64
def assocArrayPtrShortcutSubtype : BitVec 64 := 2#64

/-- A leaf pointer: any non-null word with bit 0 clear. Bit 1 belongs to the
owner of the object. -/
structure Leaf where
  word : BitVec 64
  nonNull : word ≠ 0#64
  tagClear : word &&& assocArrayPtrTypeMask = 0#64
  deriving DecidableEq

/-- The pointer stored in a slot, a link or a cursor. Nodes and shortcuts are
named by the heap address of the object. -/
inductive Ptr where
  | null
  | leaf (object : Leaf)
  | node (address : Nat)
  | shortcut (address : Nat)
  deriving DecidableEq

def assocArrayPtrIsMeta : Ptr → Bool
  | .null => false
  | .leaf _ => false
  | .node _ => true
  | .shortcut _ => true

def assocArrayPtrIsLeaf (x : Ptr) : Bool :=
  !assocArrayPtrIsMeta x

/-- Tests bit 1 only: like the C function it is meant for meta pointers, and on
a leaf it reads a bit of the object's own. -/
def assocArrayPtrIsShortcut : Ptr → Bool
  | .null => false
  | .leaf object => object.word &&& assocArrayPtrSubtypeMask != 0#64
  | .node _ => false
  | .shortcut _ => true

def assocArrayPtrIsNode (x : Ptr) : Bool :=
  !assocArrayPtrIsShortcut x

/-- Mask off both tag bits. `none` when what is left is no heap object. -/
def assocArrayPtrToMeta : Ptr → Option Nat
  | .null => none
  | .leaf _ => none
  | .node address => some address
  | .shortcut address => some address

/-- The word a pointer is stored as, given where each object lies in memory. -/
def Ptr.toWord (location : Nat → BitVec 64) : Ptr → BitVec 64
  | .null => 0#64
  | .leaf object => object.word
  | .node address =>
      location address |||
        (assocArrayPtrMetaType ||| assocArrayPtrNodeSubtype)
  | .shortcut address =>
      location address |||
        (assocArrayPtrMetaType ||| assocArrayPtrShortcutSubtype)

section Words

/-! The allocator returns addresses with the two tag bits clear. -/

variable (location : Nat → BitVec 64)
variable
  (aligned :
    ∀ address,
      location address &&& assocArrayPtrTypeMask = 0#64 ∧
        location address &&& assocArrayPtrSubtypeMask = 0#64)

include aligned

/-- `assoc_array_ptr_is_meta` is the test of bit 0 of the stored word. -/
theorem assocArrayPtrIsMeta_toWord (x : Ptr) :
    assocArrayPtrIsMeta x =
      (x.toWord location &&& assocArrayPtrTypeMask != 0#64) := by
  cases x with
  | null =>
      rw [Ptr.toWord, BitVec.zero_and]
      rfl
  | leaf object => simp [assocArrayPtrIsMeta, Ptr.toWord, object.tagClear]
  | node address =>
      simp only [assocArrayPtrIsMeta, Ptr.toWord, BitVec.and_or_distrib_right,
        (aligned address).1]
      decide
  | shortcut address =>
      simp only [assocArrayPtrIsMeta, Ptr.toWord, BitVec.and_or_distrib_right,
        (aligned address).1]
      decide

/-- `assoc_array_ptr_is_shortcut` is the test of bit 1 of the stored word. -/
theorem assocArrayPtrIsShortcut_toWord (x : Ptr) :
    assocArrayPtrIsShortcut x =
      (x.toWord location &&& assocArrayPtrSubtypeMask != 0#64) := by
  cases x with
  | null =>
      rw [Ptr.toWord, BitVec.zero_and]
      rfl
  | leaf object => rfl
  | node address =>
      simp only [assocArrayPtrIsShortcut, Ptr.toWord,
        BitVec.and_or_distrib_right, (aligned address).2]
      decide
  | shortcut address =>
      simp only [assocArrayPtrIsShortcut, Ptr.toWord,
        BitVec.and_or_distrib_right, (aligned address).2]
      decide

/-- The null test of the C code is exact: no leaf, node or shortcut is stored
as the null word. -/
theorem toWord_eq_zero_iff (x : Ptr) :
    x.toWord location = 0#64 ↔ x = .null := by
  constructor
  · intro zero
    have metaTest := assocArrayPtrIsMeta_toWord location aligned x
    rw [zero] at metaTest
    cases x with
    | null => rfl
    | leaf object => exact absurd zero object.nonNull
    | node address => cases metaTest
    | shortcut address => cases metaTest
  · rintro rfl
    rfl

end Words

@[simp]
theorem assocArrayPtrIsLeaf_leaf (object : Leaf) :
    assocArrayPtrIsLeaf (.leaf object) = true := rfl

@[simp]
theorem assocArrayPtrIsLeaf_node (address : Nat) :
    assocArrayPtrIsLeaf (.node address) = false := rfl

@[simp]
theorem assocArrayPtrIsLeaf_shortcut (address : Nat) :
    assocArrayPtrIsLeaf (.shortcut address) = false := rfl

end KernelStuff.AssocArrayGc
