import Mathlib.Algebra.Order.Ring.Nat
import Mathlib.Tactic.Ring

/-!
# Numbers of a fixed width in memory

A number of `width` bytes is stored with its lowest byte first or last.  Reading
with the wrong byte order and swapping the bytes afterwards is the same as
reading with the right one.
-/

namespace KernelStuff.Library

inductive Endian where
  | little
  | big
  deriving DecidableEq

/-- The number with these bytes, lowest first. -/
def littleDecode : List UInt8 → Nat
  | [] => 0
  | byte :: rest => byte.toNat + 256 * littleDecode rest

/-- The lowest `width` bytes of a number, lowest first. -/
def littleEncode : Nat → Nat → List UInt8
  | 0, _ => []
  | width + 1, n => UInt8.ofNat n :: littleEncode width (n / 256)

namespace Endian

def decode : Endian → List UInt8 → Nat
  | little, bytes => littleDecode bytes
  | big, bytes => littleDecode bytes.reverse

def encode : Endian → Nat → Nat → List UInt8
  | little, width, n => littleEncode width n
  | big, width, n => (littleEncode width n).reverse

end Endian

/-- Reverse the `width` bytes of a number. -/
def byteSwap (width n : Nat) : Nat :=
  littleDecode (littleEncode width n).reverse

@[simp]
theorem littleEncode_length :
    ∀ (width n : Nat), (littleEncode width n).length = width
  | 0, _ => rfl
  | width + 1, n => by
      rw [littleEncode, List.length_cons, littleEncode_length width]

theorem littleDecode_lt :
    ∀ bytes : List UInt8, littleDecode bytes < 256 ^ bytes.length
  | [] => Nat.zero_lt_one
  | byte :: rest => by
      have low := byte.toNat_lt
      have high := littleDecode_lt rest
      rw [littleDecode, List.length_cons, pow_succ]
      omega

theorem littleDecode_littleEncode :
    ∀ (width n : Nat), littleDecode (littleEncode width n) = n % 256 ^ width
  | 0, n => (Nat.mod_one n).symm
  | width + 1, n => by
      have first : (UInt8.ofNat n).toNat = n % 256 := UInt8.toNat_ofNat'
      rw [littleEncode, littleDecode, littleDecode_littleEncode width, first,
        pow_succ', Nat.mod_mul]

theorem littleEncode_littleDecode :
    ∀ bytes : List UInt8,
      littleEncode bytes.length (littleDecode bytes) = bytes
  | [] => rfl
  | byte :: rest => by
      have low := byte.toNat_lt
      have quotient :
          (byte.toNat + 256 * littleDecode rest) / 256 = littleDecode rest := by
        omega
      have remainder :
          UInt8.ofNat (byte.toNat + 256 * littleDecode rest) = byte := by
        apply UInt8.toNat_inj.mp
        rw [UInt8.toNat_ofNat']
        omega
      rw [List.length_cons, littleDecode, littleEncode, quotient, remainder,
        littleEncode_littleDecode rest]

namespace Endian

@[simp]
theorem encode_length (endian : Endian) (width n : Nat) :
    (endian.encode width n).length = width := by
  cases endian with
  | little => exact littleEncode_length width n
  | big => rw [encode, List.length_reverse, littleEncode_length]

theorem decode_lt (endian : Endian) (bytes : List UInt8) :
    endian.decode bytes < 256 ^ bytes.length := by
  cases endian with
  | little => exact littleDecode_lt bytes
  | big =>
      have below := littleDecode_lt bytes.reverse
      rw [List.length_reverse] at below
      exact below

theorem decode_encode (endian : Endian) (width n : Nat) :
    endian.decode (endian.encode width n) = n % 256 ^ width := by
  cases endian with
  | little => exact littleDecode_littleEncode width n
  | big =>
      rw [encode, decode, List.reverse_reverse, littleDecode_littleEncode]

theorem decode_encode_of_lt
    (endian : Endian) {width n : Nat} (bound : n < 256 ^ width) :
    endian.decode (endian.encode width n) = n := by
  rw [decode_encode, Nat.mod_eq_of_lt bound]

theorem encode_decode (endian : Endian) (bytes : List UInt8) :
    endian.encode bytes.length (endian.decode bytes) = bytes := by
  cases endian with
  | little => exact littleEncode_littleDecode bytes
  | big =>
      have reversed := littleEncode_littleDecode bytes.reverse
      rw [List.length_reverse] at reversed
      rw [decode, encode, reversed, List.reverse_reverse]

/-- Swapping the bytes of what was read with the other byte order. -/
theorem byteSwap_decode
    {host endian : Endian} (different : endian ≠ host) {width : Nat}
    {bytes : List UInt8} (length : bytes.length = width) :
    byteSwap width (host.decode bytes) = endian.decode bytes := by
  subst length
  cases host with
  | little =>
      cases endian with
      | little => exact absurd rfl different
      | big => rw [byteSwap, decode, littleEncode_littleDecode, decode]
  | big =>
      cases endian with
      | little =>
          have reversed := littleEncode_littleDecode bytes.reverse
          rw [List.length_reverse] at reversed
          rw [byteSwap, decode, decode, reversed, List.reverse_reverse]
      | big => exact absurd rfl different

end Endian

end KernelStuff.Library
