import Mathlib.Data.List.Basic

/-!
# Hexadecimal text

`to_hex` and `from_hex` of `editbuildid.c`.  Text is kept as its characters'
codes, without the terminating NUL.
-/

namespace KernelStuff.Editbuildid

/-- The assertion in `nibble_to_hex` is the type of its argument. -/
def nibbleToHex (input : Fin 16) : UInt8 :=
  if input.val < 10 then 48 + UInt8.ofNat input.val
  else 97 + UInt8.ofNat input.val - 10

/-- `none` when the error flag is set. -/
def hexToNibble (input : UInt8) : Option (Fin 16) :=
  if 48 ≤ input ∧ input ≤ 57 then some (Fin.ofNat 16 (input - 48).toNat)
  else if 97 ≤ input ∧ input ≤ 102 then
    some (Fin.ofNat 16 (input - 97 + 10).toNat)
  else if 65 ≤ input ∧ input ≤ 70 then
    some (Fin.ofNat 16 (input - 65 + 10).toNat)
  else none

/-- `(byte & 0xF0) >> 4`. -/
def highNibble (byte : UInt8) : Fin 16 := Fin.ofNat 16 (byte.toNat / 16)

/-- `byte & 0xF`. -/
def lowNibble (byte : UInt8) : Fin 16 := Fin.ofNat 16 byte.toNat

def toHex (data : List UInt8) : List UInt8 :=
  data.flatMap fun byte =>
    [nibbleToHex (highNibble byte), nibbleToHex (lowNibble byte)]

/-- The loop of `from_hex` over pairs of digits. -/
def fromHexPairs : List UInt8 → Option (List UInt8)
  | high :: low :: rest =>
      match hexToNibble high, hexToNibble low with
      | some h, some l =>
          (fromHexPairs rest).map (UInt8.ofNat (16 * h.val + l.val) :: ·)
      | _, _ => none
  | _ => some []

/-- `from_hex`.  The length comes in as an `int`; the `calloc` of a negative size
fails. -/
def fromHex (hexData : List UInt8) (hexSize : Int) : Option (List UInt8) :=
  if hexSize < 0 then none else fromHexPairs (hexData.take hexSize.toNat)

/-! ## Digits -/

def HexDigit (input : UInt8) : Prop :=
  (hexToNibble input).isSome = true

instance (input : UInt8) : Decidable (HexDigit input) :=
  inferInstanceAs (Decidable (_ = true))

/-- `tolower`. -/
def lowerCase (input : UInt8) : UInt8 :=
  if 65 ≤ input ∧ input ≤ 90 then input + 32 else input

private theorem forall_byte_iff {property : UInt8 → Prop} :
    (∀ byte, property byte) ↔ ∀ n : Fin 256, property (UInt8.ofNat n.val) := by
  constructor
  · exact fun all n => all _
  · intro all byte
    have here := all ⟨byte.toNat, byte.toNat_lt⟩
    rw [UInt8.ofNat_toNat] at here
    exact here

/-- A digit read and written again is in lower case. -/
theorem nibbleToHex_of_hexToNibble :
    ∀ (input : UInt8) (nibble : Fin 16),
      hexToNibble input = some nibble →
        nibbleToHex nibble = lowerCase input := by
  rw [forall_byte_iff]
  decide +kernel

theorem highNibble_join (high low : Fin 16) :
    highNibble (UInt8.ofNat (16 * high.val + low.val)) = high := by
  revert high low
  decide +kernel

theorem lowNibble_join (high low : Fin 16) :
    lowNibble (UInt8.ofNat (16 * high.val + low.val)) = low := by
  revert high low
  decide +kernel

/-! ## Round trip -/

theorem fromHexPairs_isSome :
    ∀ text : List UInt8, text.length % 2 = 0 →
      ((fromHexPairs text).isSome = true ↔ ∀ digit ∈ text, HexDigit digit)
  | [], _ => ⟨fun _ digit member => absurd member List.not_mem_nil,
      fun _ => rfl⟩
  | [only], odd => by
      cases odd
  | high :: low :: rest, even => by
      have evenRest : rest.length % 2 = 0 := by
        rw [List.length_cons, List.length_cons] at even
        omega
      have restIff := fromHexPairs_isSome rest evenRest
      rw [fromHexPairs, List.forall_mem_cons, List.forall_mem_cons, HexDigit,
        HexDigit, ← restIff]
      cases hexToNibble high with
      | none => simp
      | some h =>
          cases hexToNibble low with
          | none => simp
          | some l => simp

theorem fromHexPairs_spec :
    ∀ {text data : List UInt8}, text.length % 2 = 0 →
      fromHexPairs text = some data →
        text.length = 2 * data.length ∧ toHex data = text.map lowerCase
  | [], data, _, decoded => by
      cases decoded
      exact ⟨rfl, rfl⟩
  | [only], _, odd, _ => by
      cases odd
  | high :: low :: rest, data, even, decoded => by
      have evenRest : rest.length % 2 = 0 := by
        rw [List.length_cons, List.length_cons] at even
        omega
      rw [fromHexPairs] at decoded
      cases highIs : hexToNibble high with
      | none =>
          rw [highIs] at decoded
          cases decoded
      | some h =>
          cases lowIs : hexToNibble low with
          | none =>
              rw [highIs, lowIs] at decoded
              cases decoded
          | some l =>
              rw [highIs, lowIs] at decoded
              obtain ⟨others, restIs, shape⟩ := Option.map_eq_some_iff.mp decoded
              obtain ⟨length, text⟩ := fromHexPairs_spec evenRest restIs
              rw [← shape]
              constructor
              · rw [List.length_cons, List.length_cons, List.length_cons, length]
                omega
              · change nibbleToHex (highNibble _) ::
                  nibbleToHex (lowNibble _) :: toHex others = _
                rw [highNibble_join, lowNibble_join, text,
                  nibbleToHex_of_hexToNibble high h highIs,
                  nibbleToHex_of_hexToNibble low l lowIs]
                rfl

end KernelStuff.Editbuildid
