import KernelStuff.Library.ByteFile
import Mathlib.Algebra.Order.Ring.Nat

/-!
# The platform of a C program

What a C program on a 64-bit system rests on: memory behind a pointer, `strcmp`,
the conversions between integer types, and the ways a system call can end.
-/

namespace KernelStuff.Library

/-! ## Memory -/

/-- A pointer's target: `bytes`, and memory nobody has initialised behind it. -/
structure Buffer where
  bytes : List UInt8
  beyond : Nat → UInt8

namespace Buffer

def byte (buffer : Buffer) (i : Nat) : UInt8 :=
  buffer.bytes.getD i (buffer.beyond i)

def read (buffer : Buffer) (pos count : Nat) : List UInt8 :=
  (List.range count).map fun i => buffer.byte (pos + i)

@[simp]
theorem read_length (buffer : Buffer) (pos count : Nat) :
    (buffer.read pos count).length = count := by
  rw [read, List.length_map, List.length_range]

theorem getElem?_read (buffer : Buffer) (pos count i : Nat) :
    (buffer.read pos count)[i]? =
      if i < count then some (buffer.byte (pos + i)) else none := by
  rw [read, List.getElem?_map]
  split
  · next within => rw [List.getElem?_range within, Option.map_some]
  · next beyond =>
      rw [List.getElem?_eq_none (by rw [List.length_range]; omega),
        Option.map_none]

theorem byte_of_lt
    {buffer : Buffer} {i : Nat} (within : i < buffer.bytes.length) :
    buffer.bytes[i]? = some (buffer.byte i) := by
  rw [byte, List.getD_eq_getElem?_getD, List.getElem?_eq_getElem within,
    Option.getD_some]

/-- A read within the fetched bytes. -/
theorem read_eq_slice
    {buffer : Buffer} {pos count : Nat}
    (within : pos + count ≤ buffer.bytes.length) :
    buffer.read pos count = slice buffer.bytes pos count := by
  apply List.ext_getElem?
  intro i
  rw [getElem?_read, getElem?_slice]
  split
  · next inside => rw [byte_of_lt (by omega)]
  · rfl

theorem read_append (buffer : Buffer) (pos first second : Nat) :
    buffer.read pos (first + second) =
      buffer.read pos first ++ buffer.read (pos + first) second := by
  rw [read, List.range_add, List.map_append, List.map_map]
  apply congrArg (buffer.read pos first ++ ·)
  apply List.map_congr_left
  intro i _
  exact congrArg buffer.byte (Nat.add_assoc pos first i).symm

theorem read_congr
    {buffer other : Buffer} {pos count : Nat}
    (same : ∀ i, pos ≤ i → i < pos + count → other.byte i = buffer.byte i) :
    other.read pos count = buffer.read pos count := by
  apply List.map_congr_left
  intro i member
  have within := List.mem_range.mp member
  exact same (pos + i) (by omega) (by omega)

end Buffer

/-! ## Strings -/

/-- `strcmp(text, memory) == 0`. -/
def strcmpEq : List UInt8 → (Nat → UInt8) → Bool
  | [], memory => memory 0 == 0
  | char :: rest, memory =>
      memory 0 == char && strcmpEq rest fun i => memory (i + 1)

/-- How many bytes of `memory` the comparison looks at. -/
def strcmpReads : List UInt8 → (Nat → UInt8) → Nat
  | [], _ => 1
  | char :: rest, memory =>
      if memory 0 = char then 1 + strcmpReads rest fun i => memory (i + 1)
      else 1

theorem strcmpEq_congr :
    ∀ {text : List UInt8} {memory other : Nat → UInt8},
      (∀ i, i ≤ text.length → other i = memory i) →
        strcmpEq text other = strcmpEq text memory
  | [], memory, other, same => by
      rw [strcmpEq, strcmpEq, same 0 (Nat.le_refl _)]
  | char :: rest, memory, other, same => by
      rw [strcmpEq, strcmpEq, same 0 (Nat.zero_le _)]
      congr 1
      apply strcmpEq_congr
      intro i within
      exact same (i + 1) (Nat.succ_le_succ within)

/-- Comparing with a list that goes on with zeros is comparing with the part
before its first zero. -/
theorem strcmpEq_getD :
    ∀ {text : List UInt8}, (0 : UInt8) ∉ text → ∀ name : List UInt8,
      (strcmpEq text (fun i => name.getD i 0) = true ↔
        name.takeWhile (· ≠ 0) = text)
  | [], _, [] => ⟨fun _ => rfl, fun _ => rfl⟩
  | [], _, first :: others => by
      rw [strcmpEq, List.getD_cons_zero, beq_iff_eq, List.takeWhile_cons]
      by_cases zero : first = 0
      · simp [zero]
      · simp [zero]
  | char :: rest, nonzero, [] => by
      have charNonzero : (0 : UInt8) ≠ char := fun same =>
        nonzero (same ▸ List.mem_cons_self)
      simp [strcmpEq, charNonzero]
  | char :: rest, nonzero, first :: others => by
      have charNonzero : char ≠ 0 := fun same =>
        nonzero (same ▸ List.mem_cons_self)
      have tail :=
        strcmpEq_getD (fun member => nonzero (List.mem_cons_of_mem _ member))
          others
      rw [strcmpEq, Bool.and_eq_true, List.getD_cons_zero, beq_iff_eq,
        List.takeWhile_cons]
      simp only [List.getD_cons_succ]
      rw [tail]
      by_cases same : first = char
      · simp [same, charNonzero]
      · by_cases zero : first = 0
        · simp [zero, Ne.symm charNonzero]
        · simp [zero, same]

/-- Memory is compared up to its first NUL only. -/
theorem strcmpEq_congr_of_zero :
    ∀ {text : List UInt8} {memory other : Nat → UInt8} {j : Nat},
      (∀ i, i ≤ j → other i = memory i) → memory j = 0 →
        (0 : UInt8) ∉ text → strcmpEq text other = strcmpEq text memory
  | [], memory, other, j, same, _, _ => by
      rw [strcmpEq, strcmpEq, same 0 (Nat.zero_le j)]
  | char :: rest, memory, other, 0, same, zero, nonzero => by
      have differs : (0 : UInt8) ≠ char := fun isZero =>
        nonzero (isZero ▸ List.mem_cons_self)
      rw [strcmpEq, strcmpEq, same 0 (Nat.le_refl 0), zero,
        beq_false_of_ne differs, Bool.false_and, Bool.false_and]
  | char :: rest, memory, other, j + 1, same, zero, nonzero => by
      rw [strcmpEq, strcmpEq, same 0 (Nat.zero_le _)]
      congr 1
      apply strcmpEq_congr_of_zero (j := j)
      · exact fun i within => same (i + 1) (Nat.succ_le_succ within)
      · exact zero
      · exact fun member => nonzero (List.mem_cons_of_mem _ member)

/-- The comparison depends on the bytes it looks at. -/
theorem strcmp_congr_reads :
    ∀ {text : List UInt8} {memory other : Nat → UInt8},
      (∀ i, i < strcmpReads text memory → other i = memory i) →
        strcmpEq text other = strcmpEq text memory ∧
          strcmpReads text other = strcmpReads text memory
  | [], memory, other, same => by
      rw [strcmpEq, strcmpEq, same 0 Nat.zero_lt_one]
      exact ⟨rfl, rfl⟩
  | char :: rest, memory, other, same => by
      rw [strcmpReads] at same
      by_cases first : memory 0 = char
      · rw [if_pos first] at same
        have here := same 0 (by omega)
        have later :
            ∀ i, i < strcmpReads rest (fun i => memory (i + 1)) →
              other (i + 1) = memory (i + 1) :=
          fun i within => same (i + 1) (by omega)
        obtain ⟨sameEq, sameReads⟩ := strcmp_congr_reads later
        rw [strcmpEq, strcmpEq, strcmpReads, strcmpReads, here, sameEq,
          sameReads]
        exact ⟨rfl, rfl⟩
      · rw [if_neg first] at same
        rw [strcmpEq, strcmpEq, strcmpReads, strcmpReads,
          same 0 Nat.zero_lt_one, if_neg first, if_neg first,
          beq_false_of_ne first]
        exact ⟨rfl, rfl⟩

theorem strcmpReads_pos (text : List UInt8) (memory : Nat → UInt8) :
    0 < strcmpReads text memory := by
  cases text with
  | nil => exact Nat.one_pos
  | cons char rest =>
      rw [strcmpReads]
      split <;> omega

/-- An equal text is looked at to its NUL. -/
theorem strcmpReads_of_eq :
    ∀ {text : List UInt8} {memory : Nat → UInt8},
      strcmpEq text memory = true →
        strcmpReads text memory = text.length + 1
  | [], _, _ => rfl
  | char :: rest, memory, same => by
      rw [strcmpEq, Bool.and_eq_true, beq_iff_eq] at same
      rw [strcmpReads, if_pos same.1, strcmpReads_of_eq same.2,
        List.length_cons]
      omega

/-- The comparison leaves the bytes of a pointer's target if they end with the
text or a beginning of it. -/
theorem strcmpReads_le_iff (buffer : Buffer) :
    ∀ (text : List UInt8) (pos : Nat),
      strcmpReads text (fun i => buffer.byte (pos + i)) ≤
          buffer.bytes.length - pos ↔
        ¬ buffer.bytes.drop pos <+: text
  | text, pos => by
      rcases Nat.lt_or_ge pos buffer.bytes.length with inside | ended
      · have byteHere : buffer.bytes[pos] = buffer.byte pos := by
          have present := Buffer.byte_of_lt inside
          rw [List.getElem?_eq_getElem inside] at present
          exact Option.some.inj present
        rw [List.drop_eq_getElem_cons inside, byteHere]
        cases text with
        | nil =>
            rw [strcmpReads, List.prefix_nil]
            refine ⟨fun _ => List.cons_ne_nil _ _, fun _ => by omega⟩
        | cons char rest =>
            rw [strcmpReads, List.cons_prefix_cons, Nat.add_zero]
            by_cases same : buffer.byte pos = char
            · have tail := strcmpReads_le_iff buffer rest (pos + 1)
              have shift :
                  (fun i => buffer.byte (pos + (i + 1))) =
                    fun i => buffer.byte (pos + 1 + i) := by
                funext i
                congr 1
                omega
              rw [if_pos same, shift, and_iff_right same, ← tail]
              omega
            · rw [if_neg same]
              refine ⟨fun _ both => same both.1, fun _ => by omega⟩
      · have positive :=
          strcmpReads_pos text fun i => buffer.byte (pos + i)
        rw [List.drop_eq_nil_of_le ended]
        refine ⟨fun few => by omega, fun other => absurd List.nil_prefix other⟩

/-! ## Integer conversions -/

/-- A value stored in an `int`. -/
def intOf (n : Nat) : Int :=
  if n % 2 ^ 32 < 2 ^ 31 then (n % 2 ^ 32 : Nat)
  else (n % 2 ^ 32 : Nat) - 2 ^ 32

/-- An `int` compared with or passed as a `size_t`. -/
def sizeT (n : Int) : Nat := (n % 2 ^ 64).toNat

theorem intOf_of_lt {n : Nat} (small : n < 2 ^ 31) : intOf n = n := by
  have low : n % 2 ^ 32 = n := Nat.mod_eq_of_lt (by omega)
  rw [intOf, low, if_pos small]

/-- The value of a complete read is recognised as complete only below
`INT_MAX`. -/
theorem sizeT_intOf_eq_iff
    {n len : Nat} (within : n ≤ len) (bound : len < 2 ^ 63) :
    sizeT (intOf n) = len ↔ n = len ∧ len < 2 ^ 31 := by
  rw [sizeT, intOf]
  split <;> omega

theorem sizeT_intOf_of_lt {n : Nat} (small : n < 2 ^ 31) :
    sizeT (intOf n) = n := by
  rw [intOf_of_lt small, sizeT]
  omega

/-- A size that is not an `int` is negative, and becomes too large. -/
theorem le_sizeT_intOf {n : Nat} (large : 2 ^ 31 ≤ n) (bound : n < 2 ^ 32) :
    2 ^ 63 ≤ sizeT (intOf n) := by
  have low : n % 2 ^ 32 = n := Nat.mod_eq_of_lt bound
  rw [intOf, low, if_neg (by omega), sizeT]
  omega

/-! ## System calls -/

/-- How a system call ends: with an error, after part of the bytes, or after all
of them. -/
inductive CallOutcome where
  | failure
  | short (count : Nat)
  | complete
  deriving DecidableEq

/-- At most this many of `count` bytes are transferred. -/
def CallOutcome.limit : CallOutcome → Nat → Nat
  | .failure, _ => 0
  | .short most, count => min most count
  | .complete, count => count

theorem CallOutcome.limit_le (outcome : CallOutcome) (count : Nat) :
    outcome.limit count ≤ count := by
  cases outcome with
  | failure => exact Nat.zero_le _
  | short most => exact Nat.min_le_right _ _
  | complete => exact Nat.le_refl _

theorem CallOutcome.limit_pos
    {outcome : CallOutcome} {count : Nat} (succeeded : outcome ≠ .failure)
    (some : outcome ≠ .short 0) (positive : 0 < count) :
    0 < outcome.limit count := by
  cases outcome with
  | failure => exact absurd rfl succeeded
  | short most =>
      have notNone : most ≠ 0 := fun none => some (congrArg short none)
      rw [limit]
      omega
  | complete => exact positive

end KernelStuff.Library
