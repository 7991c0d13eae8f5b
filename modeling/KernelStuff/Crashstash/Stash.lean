import KernelStuff.Library.Blocks
import Mathlib.Algebra.Order.Ring.Nat

/-!
# The crashstash module

The file-scope variables and the four file operations of `crashstash.c`, and
the reader `get_crashstash` of `crashstash.py`.  Every operation holds
`crashstash_lock` throughout, so it is one step.

`alloc_page` always succeeds and hands out a page with unknown contents.
A user copy succeeds, or it fails after an unknown part of it.
-/

namespace KernelStuff.Crashstash

open KernelStuff.Library

def EINVAL : Int := 22
def EBUSY : Int := 16
def ENOSPC : Int := 28
def EFAULT : Int := 14

/-- `PAGE_SIZE` is a power of two. -/
def pageSize (pageShift : Nat) : Nat := 2 ^ pageShift

/-- Writes stop working after 10 MiB. -/
def maxSize : Nat := 10 * 1024 * 1024

/-- The range of `size_t`, `loff_t` sums and `u64`. -/
def wordRange : Nat := 2 ^ 64

/-- The virtual file system caps a request at `MAX_RW_COUNT`, which is below
this. -/
def intMax : Nat := 2 ^ 31 - 1

abbrev Page (pageShift : Nat) := Block UInt8 (pageSize pageShift)

/-- A record of the kernel log: the one with the addresses of the stash, which
do not change at runtime, or any other one. -/
inductive LogRecord where
  | crashstash
  | other (text : String)
  deriving DecidableEq

/-- The variables at file scope.  The list of pages is kept in the order of
`list_for_each_entry`. -/
structure Stash (pageShift : Nat) where
  count : Nat
  crashstash : List (Page pageShift)
  size : Nat
  pages : Nat
  log : List LogRecord

/-- `f_flags & O_ACCMODE`. -/
inductive AccMode where
  | readOnly
  | writeOnly
  | readWrite
  | neither
  deriving DecidableEq

/-- Ways to stop the kernel: the two `BUG_ON`s, and a copy from the list head
taken for a page. -/
inductive Fault where
  | notOpen
  | emptyList
  | wildPage
  deriving DecidableEq

/-- `copy_from_user` and `copy_to_user` copy everything and return 0, or return
something else and leave something in the destination. -/
inductive UserCopy where
  | complete
  | fault (left : List UInt8)

def UserCopy.isFault : UserCopy → Bool
  | .complete => false
  | .fault _ => true

/-- A buffer handed to `write`. -/
structure WriteBuffer where
  data : List UInt8
  bounded : data.length ≤ intMax

variable {pageShift : Nat}

/-! ## Opening and releasing -/

def crashstashFree (stash : Stash pageShift) : Stash pageShift :=
  { stash with crashstash := [], size := 0, pages := 0 }

/-- `pr_info_ratelimited`: the first message is never suppressed. -/
def prInfoRatelimited (suppressed : Bool) (stash : Stash pageShift) :
    Stash pageShift :=
  if suppressed && stash.log.contains .crashstash then stash
  else { stash with log := stash.log ++ [.crashstash] }

def crashstashOpen (mode : AccMode) (suppressed : Bool)
    (stash : Stash pageShift) : Stash pageShift × Int :=
  if stash.count ≠ 0 then (stash, -EBUSY)
  else if mode = .readWrite then (stash, -EINVAL)
  else
    let stash :=
      if mode = .writeOnly then
        prInfoRatelimited suppressed (crashstashFree stash)
      else stash
    ({ stash with count := stash.count + 1 }, 0)

def crashstashRelease (stash : Stash pageShift) :
    Except Fault (Stash pageShift × Int) :=
  if stash.count ≤ 0 then .error .notOpen
  else .ok ({ stash with count := stash.count - 1 }, 0)

/-! ## Writing -/

/-- The page to write to: the last one, or a new one at a page boundary.  Either
way it is the last entry of the list afterwards. -/
def selectPage (fresh : Page pageShift) (pgoff : Nat)
    (stash : Stash pageShift) : Except Fault (Stash pageShift) :=
  if pgoff ≠ 0 then
    if stash.crashstash = [] then .error .emptyList else .ok stash
  else
    .ok { stash with
      crashstash := stash.crashstash ++ [fresh]
      pages := stash.pages + 1 }

/-- Overwrite the last page from `pgoff` on. -/
def storeLast (pgoff : Nat) (bytes : List UInt8) (stash : Stash pageShift) :
    Stash pageShift :=
  { stash with
    crashstash := stash.crashstash.modifyLast fun page => page.put pgoff bytes }

/-- The locals of `crashstash_write`. -/
structure WriteLocals (pageShift : Nat) where
  stash : Stash pageShift
  off : Nat
  amt : Nat
  written : Int
  data : List UInt8

/-- `chunk_amt`. -/
def chunkAmt (pageShift off amt : Nat) : Nat :=
  min amt (pageSize pageShift - off % pageSize pageShift)

/-- The loop of `crashstash_write`.  Chunk `k` of the call gets the page
`fresh k` if it needs one, and is copied as `copy k` says. -/
def writeLoop (copy : Nat → UserCopy) (fresh : Nat → Page pageShift) (k : Nat)
    (l : WriteLocals pageShift) : Except Fault (WriteLocals pageShift) :=
  if l.amt = 0 then .ok l
  else
    let pgoff := l.off % pageSize pageShift
    let chunk := chunkAmt pageShift l.off l.amt
    match selectPage (fresh k) pgoff l.stash with
    | .error fault => .error fault
    | .ok stash =>
        match copy k with
        | .fault left =>
            .ok { l with
              stash := storeLast pgoff (left.take chunk) stash
              written := -EFAULT }
        | .complete =>
            let stash := storeLast pgoff (l.data.take chunk) stash
            writeLoop copy fresh (k + 1)
              { stash := { stash with size := stash.size + chunk }
                off := l.off + chunk
                amt := l.amt - chunk
                written := l.written + chunk
                data := l.data.drop chunk }
termination_by l.amt
decreasing_by
  have room : l.off % pageSize pageShift < pageSize pageShift :=
    Nat.mod_lt _ (Nat.two_pow_pos pageShift)
  simp only [chunkAmt]
  omega

/-- `amt` after the capacity check. -/
def writeAmount (stash : Stash pageShift) (amt : Nat) : Nat :=
  if maxSize < (stash.size + amt) % wordRange then maxSize - stash.size
  else amt

/-- What a call of `write` or `read` returns, with the new `*off`. -/
structure WriteResult (pageShift : Nat) where
  stash : Stash pageShift
  off : Nat
  value : Int

def crashstashWrite (copy : Nat → UserCopy) (fresh : Nat → Page pageShift)
    (buffer : WriteBuffer) (off : Nat) (stash : Stash pageShift) :
    Except Fault (WriteResult pageShift) :=
  if off ≠ stash.size then .ok ⟨stash, off, -EINVAL⟩
  else if maxSize ≤ stash.size then .ok ⟨stash, off, -ENOSPC⟩
  else
    (writeLoop copy fresh 0
      { stash := stash
        off := off
        amt := writeAmount stash buffer.data.length
        written := 0
        data := buffer.data }).map fun l => ⟨l.stash, l.off, l.written⟩

/-! ## Reading -/

/-- Seek to page `pgnum`.  The cursor is the rest of the list from `pg` on; it
is empty when `pg` has run into the list head. -/
def seekPage : List (Page pageShift) → Nat → List (Page pageShift)
  | [], _ => []
  | pg :: rest, 0 => pg :: rest
  | _ :: rest, pgnum + 1 => seekPage rest pgnum

/-- The locals of `crashstash_read`, with the bytes the user has got and the
ranges of the stash the copies were made from. -/
structure ReadLocals (pageShift : Nat) where
  cursor : List (Page pageShift)
  off : Nat
  amt : Nat
  read : Int
  data : List UInt8
  sources : List (Nat × Nat)

/-- The loop of `crashstash_read`. -/
def readLoop (copy : Nat → UserCopy) (k : Nat) (l : ReadLocals pageShift) :
    Except Fault (ReadLocals pageShift) :=
  if l.amt = 0 then .ok l
  else
    let pgoff := l.off % pageSize pageShift
    let chunk := chunkAmt pageShift l.off l.amt
    match l.cursor with
    | [] => .error .wildPage
    | pg :: rest =>
        match copy k with
        | .fault _ =>
            .ok { l with
              read := -EFAULT
              sources := l.sources ++ [(l.off, chunk)] }
        | .complete =>
            readLoop copy (k + 1)
              { cursor := rest
                off := l.off + chunk
                amt := l.amt - chunk
                read := l.read + chunk
                data := l.data ++ (pg.toList.drop pgoff).take chunk
                sources := l.sources ++ [(l.off, chunk)] }
termination_by l.amt
decreasing_by
  have room : l.off % pageSize pageShift < pageSize pageShift :=
    Nat.mod_lt _ (Nat.two_pow_pos pageShift)
  simp only [chunkAmt]
  omega

/-- `amt` cut down to what the stash holds behind `off`. -/
def readAmount (stash : Stash pageShift) (off amt : Nat) : Nat :=
  if stash.size < (off + amt) % wordRange then
    (stash.size + (wordRange - off)) % wordRange
  else amt

def crashstashRead (copy : Nat → UserCopy) (amt off : Nat)
    (stash : Stash pageShift) : Except Fault (ReadLocals pageShift) :=
  readLoop copy 0
    { cursor := seekPage stash.crashstash (off / pageSize pageShift)
      off := off
      amt := readAmount stash off amt
      read := 0
      data := []
      sources := [] }

/-! ## Reading a core -/

/-- `math.ceil(size / PAGE_SIZE)`; the division is exact, since `PAGE_SIZE` is a
power of two and `size` is small. -/
def ceilPages (pageShift size : Nat) : Nat :=
  (size + (pageSize pageShift - 1)) / pageSize pageShift

/-- The loop of `get_crashstash` over the pages. -/
def readPages : List (Page pageShift) → Nat → List UInt8
  | [], _ => []
  | page :: rest, size =>
      let chunksz := min (pageSize pageShift) size
      page.toList.take chunksz ++ readPages rest (size - chunksz)

def getCrashstash (stash : Stash pageShift) : Except String (List UInt8) :=
  if stash.log.contains .crashstash then
    let pages := stash.crashstash
    if pages.length ≠ stash.pages ∨
        stash.pages ≠ ceilPages pageShift stash.size then
      .error "Inconsistent metadata for crashstash size"
    else .ok (readPages pages stash.size)
  else .error "Could not find a crashstash log record"

end KernelStuff.Crashstash
