import KernelStuff.Library.Platform
import KernelStuff.Library.Endian

/-!
# Generic ELF access of editbuildid

`getfield` and `getaddr` of `editbuildid.c` read a member of an ELF structure of
either class and byte order.  Memory behind a pointer is a `Buffer`: the bytes
that were fetched, and whatever the heap holds after them.
-/

namespace KernelStuff.Editbuildid

open KernelStuff.Library

/-- `ELFCLASS32` and `ELFCLASS64`. -/
inductive ElfClass where
  | elf32
  | elf64
  deriving DecidableEq

/-- `struct elfinfo`, with values `find_build_id` has checked. -/
structure ElfInfo where
  endian : Endian
  bits : ElfClass
  deriving DecidableEq

/-- The offset of a member in `Elf64_...` and `Elf32_...`. -/
structure Member where
  elf64 : Nat
  elf32 : Nat
  deriving DecidableEq

def Member.offset (member : Member) : ElfClass → Nat
  | .elf64 => member.elf64
  | .elf32 => member.elf32

section Access

variable (host : Endian) (info : ElfInfo)

/-- Read a field of `width` bytes, and swap it unless the file has the byte
order of the platform. -/
def getfield (width : Nat) (buffer : Buffer) (ptr : Nat) (field : Member) :
    Nat :=
  let result := host.decode (buffer.read (ptr + field.offset info.bits) width)
  if info.endian ≠ host then byteSwap width result else result

def getfield16 := getfield host info 2
def getfield32 := getfield host info 4

/-- The width of offsets and addresses. -/
def ElfClass.addrWidth : ElfClass → Nat
  | .elf64 => 8
  | .elf32 => 4

def getaddr := getfield host info info.bits.addrWidth

/-- The byte order of the platform does not matter. -/
theorem getfield_eq
    (width : Nat) (buffer : Buffer) (ptr : Nat) (field : Member) :
    getfield host info width buffer ptr field =
      info.endian.decode
        (buffer.read (ptr + field.offset info.bits) width) := by
  rw [getfield]
  split
  · next different =>
      exact Endian.byteSwap_decode different (Buffer.read_length _ _ _)
  · next same => rw [not_not.mp same]

end Access

/-! ## Layouts -/

/-- The size of the buffer for either file header. -/
def ehdrSize : Nat := 64

def eiClass : Nat := 4
def eiData : Nat := 5

def ePhoff : Member := ⟨32, 28⟩
def eShoff : Member := ⟨40, 32⟩
def ePhentsize : Member := ⟨54, 42⟩
def ePhnum : Member := ⟨56, 44⟩
def eShentsize : Member := ⟨58, 46⟩
def eShnum : Member := ⟨60, 48⟩

def pType : Member := ⟨0, 0⟩
def pOffset : Member := ⟨8, 4⟩
def pFilesz : Member := ⟨32, 16⟩
def ptNote : Nat := 4

def shType : Member := ⟨4, 4⟩
def shOffset : Member := ⟨24, 16⟩
def shSize : Member := ⟨32, 20⟩
def shtNote : Nat := 7

/-- `sizeof(Elf64_Nhdr)`; the note header is the same in both classes. -/
def nhdrSize : Nat := 12

def nNamesz : Member := ⟨0, 0⟩
def nDescsz : Member := ⟨4, 4⟩
def nType : Member := ⟨8, 8⟩
def ntGnuBuildId : Nat := 3

/-! ## Examples -/

/-- A file with one program header, of the given type, and a build ID of one byte
in its segment. -/
def segmentElf (type : UInt8) : List UInt8 :=
  [0x7f, 69, 76, 70, 2, 1, 1, 0, 0, 0, 0, 0, 0, 0, 0, 0,
    2, 0, 62, 0, 1, 0, 0, 0, 0, 0, 0, 0, 0, 0, 0, 0,
    64, 0, 0, 0, 0, 0, 0, 0, 0, 0, 0, 0, 0, 0, 0, 0,
    0, 0, 0, 0, 64, 0, 56, 0, 1, 0, 0, 0, 0, 0, 0, 0,
    type, 0, 0, 0, 4, 0, 0, 0, 120, 0, 0, 0, 0, 0, 0, 0,
    0, 0, 0, 0, 0, 0, 0, 0, 0, 0, 0, 0, 0, 0, 0, 0,
    17, 0, 0, 0, 0, 0, 0, 0, 17, 0, 0, 0, 0, 0, 0, 0,
    4, 0, 0, 0, 0, 0, 0, 0,
    4, 0, 0, 0, 1, 0, 0, 0, 3, 0, 0, 0, 71, 78, 85, 0, 0xaa]

/-- The segment is one of notes. -/
def noteElf : List UInt8 := segmentElf 4

/-- The segment is one to be loaded. -/
def loadElf : List UInt8 := segmentElf 1

end KernelStuff.Editbuildid
