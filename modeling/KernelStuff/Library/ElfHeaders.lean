import KernelStuff.Library.ByteFile
import KernelStuff.Library.Endian

/-!
# Headers of a 64-bit little-endian ELF file

The file header as far as it locates the program headers, and the table of
program headers.  Decoding and encoding a table are inverse to each other.
-/

namespace KernelStuff.Library

/-- The members of `Elf64_Ehdr` that say where the program headers are and
whether the file is supported. -/
structure Elf64Ehdr where
  eIdent : List UInt8
  ePhoff : UInt64
  ePhentsize : UInt16
  ePhnum : UInt16
  eShentsize : UInt16
  deriving DecidableEq

/-- `sizeof(Elf64_Ehdr)`. -/
def elf64EhdrSize : Nat := 64

def Elf64Ehdr.decode (bytes : List UInt8) : Elf64Ehdr where
  eIdent := slice bytes 0 16
  ePhoff := .ofNat (littleDecode (slice bytes 32 8))
  ePhentsize := .ofNat (littleDecode (slice bytes 54 2))
  ePhnum := .ofNat (littleDecode (slice bytes 56 2))
  eShentsize := .ofNat (littleDecode (slice bytes 58 2))

structure Elf64Phdr where
  pType : UInt32
  pFlags : UInt32
  pOffset : UInt64
  pVaddr : UInt64
  pPaddr : UInt64
  pFilesz : UInt64
  pMemsz : UInt64
  pAlign : UInt64
  deriving DecidableEq

/-- `sizeof(Elf64_Phdr)`. -/
def elf64PhdrSize : Nat := 56

namespace Elf64Phdr

def encode (phdr : Elf64Phdr) : List UInt8 :=
  littleEncode 4 phdr.pType.toNat ++ littleEncode 4 phdr.pFlags.toNat ++
    littleEncode 8 phdr.pOffset.toNat ++ littleEncode 8 phdr.pVaddr.toNat ++
    littleEncode 8 phdr.pPaddr.toNat ++ littleEncode 8 phdr.pFilesz.toNat ++
    littleEncode 8 phdr.pMemsz.toNat ++ littleEncode 8 phdr.pAlign.toNat

def decode (bytes : List UInt8) : Elf64Phdr where
  pType := .ofNat (littleDecode (slice bytes 0 4))
  pFlags := .ofNat (littleDecode (slice bytes 4 4))
  pOffset := .ofNat (littleDecode (slice bytes 8 8))
  pVaddr := .ofNat (littleDecode (slice bytes 16 8))
  pPaddr := .ofNat (littleDecode (slice bytes 24 8))
  pFilesz := .ofNat (littleDecode (slice bytes 32 8))
  pMemsz := .ofNat (littleDecode (slice bytes 40 8))
  pAlign := .ofNat (littleDecode (slice bytes 48 8))

@[simp]
theorem encode_length (phdr : Elf64Phdr) :
    phdr.encode.length = elf64PhdrSize := by
  simp only [encode, List.length_append, littleEncode_length]
  rfl

private theorem word_encode (word : UInt32) :
    UInt32.ofNat (littleDecode (littleEncode 4 word.toNat)) = word := by
  have bound : word.toNat < 256 ^ 4 := word.toNat_lt
  rw [littleDecode_littleEncode, Nat.mod_eq_of_lt bound, UInt32.ofNat_toNat]

private theorem giant_encode (giant : UInt64) :
    UInt64.ofNat (littleDecode (littleEncode 8 giant.toNat)) = giant := by
  have bound : giant.toNat < 256 ^ 8 := giant.toNat_lt
  rw [littleDecode_littleEncode, Nat.mod_eq_of_lt bound, UInt64.ofNat_toNat]

/-- An encoded header is read back, whatever follows it. -/
theorem decode_encode (phdr : Elf64Phdr) (rest : List UInt8) :
    decode (phdr.encode ++ rest) = phdr := by
  obtain ⟨type, flags, offset, vaddr, paddr, filesz, memsz, align⟩ := phdr
  rw [decode, Elf64Phdr.mk.injEq]
  exact ⟨word_encode type, word_encode flags, giant_encode offset,
    giant_encode vaddr, giant_encode paddr, giant_encode filesz,
    giant_encode memsz, giant_encode align⟩

private theorem word_decode {bytes : List UInt8} (length : bytes.length = 4) :
    littleEncode 4 (UInt32.ofNat (littleDecode bytes)).toNat = bytes := by
  have bound := littleDecode_lt bytes
  rw [length] at bound
  rw [UInt32.toNat_ofNat_of_lt' bound, ← length, littleEncode_littleDecode]

private theorem giant_decode {bytes : List UInt8} (length : bytes.length = 8) :
    littleEncode 8 (UInt64.ofNat (littleDecode bytes)).toNat = bytes := by
  have bound := littleDecode_lt bytes
  rw [length] at bound
  rw [UInt64.toNat_ofNat_of_lt' bound, ← length, littleEncode_littleDecode]

/-- Every sequence of so many bytes is an encoded header. -/
theorem encode_decode
    {bytes : List UInt8} (fits : elf64PhdrSize ≤ bytes.length) :
    (decode bytes).encode = bytes.take elf64PhdrSize := by
  have part {pos count : Nat} (within : pos + count ≤ 56) :
      (slice bytes pos count).length = count :=
    slice_length_of_le (Nat.le_trans within fits)
  rw [encode, decode, word_decode (part (by omega)),
    word_decode (part (by omega)), giant_decode (part (by omega)),
    giant_decode (part (by omega)), giant_decode (part (by omega)),
    giant_decode (part (by omega)), giant_decode (part (by omega)),
    giant_decode (part (by omega)), ← slice_append bytes 0 4 4,
    ← slice_append bytes 0 8 8, ← slice_append bytes 0 16 8,
    ← slice_append bytes 0 24 8, ← slice_append bytes 0 32 8,
    ← slice_append bytes 0 40 8, ← slice_append bytes 0 48 8]
  rfl

/-! ## Tables -/

def encodeTable (phdrs : List Elf64Phdr) : List UInt8 :=
  phdrs.flatMap encode

def decodeTable : Nat → List UInt8 → List Elf64Phdr
  | 0, _ => []
  | n + 1, bytes =>
      decode bytes :: decodeTable n (bytes.drop elf64PhdrSize)

@[simp]
theorem encodeTable_length :
    ∀ phdrs : List Elf64Phdr,
      (encodeTable phdrs).length = elf64PhdrSize * phdrs.length
  | [] => rfl
  | phdr :: rest => by
      rw [encodeTable, List.flatMap_cons, List.length_append, encode_length,
        List.length_cons]
      have others := encodeTable_length rest
      rw [encodeTable] at others
      rw [others, Nat.mul_succ, Nat.add_comm]

@[simp]
theorem decodeTable_length :
    ∀ (n : Nat) (bytes : List UInt8), (decodeTable n bytes).length = n
  | 0, _ => rfl
  | n + 1, bytes => by
      rw [decodeTable, List.length_cons, decodeTable_length n]

theorem decodeTable_encodeTable :
    ∀ (phdrs : List Elf64Phdr),
      decodeTable phdrs.length (encodeTable phdrs) = phdrs
  | [] => rfl
  | phdr :: rest => by
      rw [encodeTable, List.flatMap_cons, List.length_cons, decodeTable,
        decode_encode, ← phdr.encode_length, List.drop_left]
      exact congrArg (phdr :: ·) (decodeTable_encodeTable rest)

theorem encodeTable_decodeTable :
    ∀ {n : Nat} {bytes : List UInt8}, bytes.length = elf64PhdrSize * n →
      encodeTable (decodeTable n bytes) = bytes
  | 0, bytes, length => (List.eq_nil_of_length_eq_zero length).symm
  | n + 1, bytes, length => by
      have fits : elf64PhdrSize ≤ bytes.length := by
        rw [length, Nat.mul_succ]
        omega
      have others :
          (bytes.drop elf64PhdrSize).length = elf64PhdrSize * n := by
        rw [List.length_drop, length, Nat.mul_succ, Nat.add_sub_cancel]
      have tail := encodeTable_decodeTable others
      rw [encodeTable] at tail
      rw [decodeTable, encodeTable, List.flatMap_cons, tail,
        encode_decode fits, List.take_append_drop]

end Elf64Phdr

end KernelStuff.Library
