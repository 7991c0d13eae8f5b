import KernelStuff.Crashstash.Files
import KernelStuff.Library.Ring

/-!
# The crashstash in memory

The module on the pointers it really has: `crashstash` is the head of a ring of
`struct page`s, linked by their `lru`.  `alloc_page` is assumed to succeed: it hands
out a page that the module does not have, and `__free_page` takes back one that it
has.  Freeing or using any other page is a fault.
-/

namespace KernelStuff.Crashstash

open KernelStuff.Library

/-- The two `BUG_ON`s, and what a wild pointer can do. -/
inductive MemoryFault where
  | notOpen
  | emptyList
  | wildPage
  | doubleFree
  deriving DecidableEq

/-- The variables at file scope, the pages by the address of their `lru`, and the
pages that have been allocated and not been freed. -/
structure Memory (pageShift : Nat) where
  count : Nat
  links : Links Nat
  content : Nat → Page pageShift
  size : Nat
  pages : Nat
  log : List LogRecord
  owned : List Nat
  allocated : Nat

/-- `alloc_page`, which is taken to succeed: `crashstash_write` does not look at a
null pointer.  Which page it hands out depends on the pages in use and on how often
it has been called. -/
structure Allocator (head : Nat) where
  pick : List Nat → Nat → Nat
  fresh : ∀ owned calls, pick owned calls ∉ head :: owned

variable {pageShift : Nat}

/-! ## Opening and releasing -/

/-- `list_for_each_entry_safe` with its body in `crashstash_free`; `poison` is
what `list_del` leaves in the pointers. -/
def freePages (head : Nat) (poison : Nat × Nat) (memory : Memory pageShift)
    (cur next : Nat) : Except MemoryFault (Memory pageShift) :=
  if cur = head then .ok memory
  else if cur ∈ memory.owned then
    let memory :=
      { memory with
        links := memory.links.del poison cur
        owned := memory.owned.erase cur }
    freePages head poison memory next (memory.links.next next)
  else .error .doubleFree
termination_by memory.owned.length
decreasing_by
  rename_i mine
  have some := List.length_pos_of_mem mine
  rw [List.length_erase_of_mem mine]
  omega

def memoryFree (head : Nat) (poison : Nat × Nat) (memory : Memory pageShift) :
    Except MemoryFault (Memory pageShift) :=
  let first := memory.links.next head
  (freePages head poison memory first (memory.links.next first)).map
    fun memory => { memory with size := 0, pages := 0 }

def memoryPrint (suppressed : Bool) (memory : Memory pageShift) :
    Memory pageShift :=
  if suppressed && memory.log.contains .crashstash then memory
  else { memory with log := memory.log ++ [.crashstash] }

def memoryOpen (head : Nat) (poison : Nat × Nat) (mode : AccMode)
    (suppressed : Bool) (memory : Memory pageShift) :
    Except MemoryFault (Memory pageShift × Int) :=
  if memory.count ≠ 0 then .ok (memory, -EBUSY)
  else if mode = .readWrite then .ok (memory, -EINVAL)
  else if mode = .writeOnly then
    (memoryFree head poison memory).map fun memory =>
      let memory := memoryPrint suppressed memory
      ({ memory with count := memory.count + 1 }, 0)
  else .ok ({ memory with count := memory.count + 1 }, 0)

def memoryRelease (memory : Memory pageShift) :
    Except MemoryFault (Memory pageShift × Int) :=
  if memory.count ≤ 0 then .error .notOpen
  else .ok ({ memory with count := memory.count - 1 }, 0)

/-! ## Writing -/

section Writing

variable {head : Nat} (allocator : Allocator head)

/-- The page to write to: `list_last_entry`, or a new one. -/
def memoryPage (fresh : Page pageShift) (pgoff : Nat)
    (memory : Memory pageShift) :
    Except MemoryFault (Memory pageShift × Nat) :=
  if pgoff ≠ 0 then
    if memory.links.next head = head then .error .emptyList
    else .ok (memory, memory.links.prev head)
  else
    let pg := allocator.pick memory.owned memory.allocated
    .ok
      ({ memory with
        links := memory.links.addTail pg head
        content := Function.update memory.content pg fresh
        pages := memory.pages + 1
        owned := pg :: memory.owned
        allocated := memory.allocated + 1 }, pg)

/-- Overwrite a page from `pgoff` on. -/
def storePage (pg pgoff : Nat) (bytes : List UInt8)
    (memory : Memory pageShift) : Except MemoryFault (Memory pageShift) :=
  if pg ∈ memory.owned then
    .ok
      { memory with
        content :=
          Function.update memory.content pg
            ((memory.content pg).put pgoff bytes) }
  else .error .wildPage

structure MemoryWrite (pageShift : Nat) where
  memory : Memory pageShift
  off : Nat
  amt : Nat
  written : Int
  data : List UInt8

def memoryWriteLoop (copy : Nat → UserCopy) (fresh : Nat → Page pageShift)
    (k : Nat) (l : MemoryWrite pageShift) :
    Except MemoryFault (MemoryWrite pageShift) :=
  if l.amt = 0 then .ok l
  else
    let pgoff := l.off % pageSize pageShift
    let chunk := chunkAmt pageShift l.off l.amt
    match memoryPage allocator (fresh k) pgoff l.memory with
    | .error fault => .error fault
    | .ok (memory, pg) =>
        match copy k with
        | .fault left =>
            (storePage pg pgoff (left.take chunk) memory).map fun memory =>
              { l with memory := memory, written := -EFAULT }
        | .complete =>
            match storePage pg pgoff (l.data.take chunk) memory with
            | .error fault => .error fault
            | .ok memory =>
                memoryWriteLoop copy fresh (k + 1)
                  { memory := { memory with size := memory.size + chunk }
                    off := l.off + chunk
                    amt := l.amt - chunk
                    written := l.written + chunk
                    data := l.data.drop chunk }
termination_by l.amt
decreasing_by
  have room : l.off % pageSize pageShift < pageSize pageShift :=
    Nat.mod_lt _ (Nat.two_pow_pos pageShift)
  simp only [chunkAmt]
  omega

structure MemoryResult (pageShift : Nat) where
  memory : Memory pageShift
  off : Nat
  value : Int

def memoryWrite (copy : Nat → UserCopy) (fresh : Nat → Page pageShift)
    (buffer : WriteBuffer) (off : Nat) (memory : Memory pageShift) :
    Except MemoryFault (MemoryResult pageShift) :=
  if off ≠ memory.size then .ok ⟨memory, off, -EINVAL⟩
  else if maxSize ≤ memory.size then .ok ⟨memory, off, -ENOSPC⟩
  else
    let amt := buffer.data.length
    let amt :=
      if maxSize < (memory.size + amt) % wordRange then maxSize - memory.size
      else amt
    (memoryWriteLoop allocator copy fresh 0
      { memory := memory
        off := off
        amt := amt
        written := 0
        data := buffer.data }).map fun l => ⟨l.memory, l.off, l.written⟩

end Writing

/-! ## Reading -/

/-- `list_for_each_entry` with the countdown of `pgnum`. -/
def memorySeek (links : Links Nat) (head : Nat) : Nat → Nat → Nat
  | pg, 0 => pg
  | pg, pgnum + 1 =>
      if pg = head then pg else memorySeek links head (links.next pg) pgnum

structure MemoryRead where
  pg : Nat
  off : Nat
  amt : Nat
  read : Int
  data : List UInt8
  sources : List (Nat × Nat)

def memoryReadLoop (memory : Memory pageShift) (copy : Nat → UserCopy) (k : Nat)
    (l : MemoryRead) : Except MemoryFault MemoryRead :=
  if l.amt = 0 then .ok l
  else
    let pgoff := l.off % pageSize pageShift
    let chunk := chunkAmt pageShift l.off l.amt
    if l.pg ∈ memory.owned then
      match copy k with
      | .fault _ =>
          .ok { l with
            read := -EFAULT
            sources := l.sources ++ [(l.off, chunk)] }
      | .complete =>
          memoryReadLoop memory copy (k + 1)
            { pg := memory.links.next l.pg
              off := l.off + chunk
              amt := l.amt - chunk
              read := l.read + chunk
              data :=
                l.data ++ ((memory.content l.pg).toList.drop pgoff).take chunk
              sources := l.sources ++ [(l.off, chunk)] }
    else .error .wildPage
termination_by l.amt
decreasing_by
  have room : l.off % pageSize pageShift < pageSize pageShift :=
    Nat.mod_lt _ (Nat.two_pow_pos pageShift)
  simp only [chunkAmt]
  omega

def memoryRead (head : Nat) (memory : Memory pageShift) (copy : Nat → UserCopy)
    (amt off : Nat) : Except MemoryFault MemoryRead :=
  let amt :=
    if memory.size < (off + amt) % wordRange then
      (memory.size + (wordRange - off)) % wordRange
    else amt
  memoryReadLoop memory copy 0
    { pg :=
        memorySeek memory.links head (memory.links.next head)
          (off / pageSize pageShift)
      off := off
      amt := amt
      read := 0
      data := []
      sources := [] }

/-! ## The module and its files -/

structure Machine (pageShift : Nat) where
  memory : Memory pageShift
  files : Nat → Option File

/-- After `crashstash_init`. -/
def Machine.initial (pageShift head : Nat) (links : Links Nat)
    (content : Nat → Page pageShift) (log : List LogRecord) :
    Machine pageShift where
  memory := ⟨0, links.initHead head, content, 0, 0, log, [], 0⟩
  files := fun _ => none

/-- `crashstash_exit`. -/
def memoryExit (head : Nat) (poison : Nat × Nat) (memory : Memory pageShift) :
    Except MemoryFault (Memory pageShift) :=
  memoryFree head poison memory

namespace Machine

def setFile (machine : Machine pageShift) (fd : Nat) (file : Option File)
    (memory : Memory pageShift) : Machine pageShift where
  memory := memory
  files := Function.update machine.files fd file

/-- One call, with the checks of the virtual file system as in
`System.step`. -/
def step {head : Nat} (allocator : Allocator head) (poison : Nat × Nat)
    (machine : Machine pageShift) :
    Call pageShift → Except MemoryFault (Machine pageShift × Reply)
  | .openFile fd mode suppressed =>
      match machine.files fd with
      | some _ => .ok (machine, .only (-EBADF))
      | none =>
          (memoryOpen head poison mode suppressed machine.memory).map
            fun (memory, value) =>
              (machine.setFile fd
                (if value = 0 then some ⟨mode, 0⟩ else none) memory,
                .only value)
  | .write fd buffer copy fresh =>
      match machine.files fd with
      | none => .ok (machine, .only (-EBADF))
      | some file =>
          if file.mode = .writeOnly then
            (memoryWrite allocator copy fresh buffer file.pos
              machine.memory).map fun result =>
                (machine.setFile fd (some (file.commit result.value result.off))
                  result.memory, .only result.value)
          else .ok (machine, .only (-EBADF))
  | .read fd amt copy =>
      match machine.files fd with
      | none => .ok (machine, .only (-EBADF))
      | some file =>
          if file.mode = .readOnly then
            (memoryRead head machine.memory copy amt.val file.pos).map
              fun last =>
                (machine.setFile fd (some (file.commit last.read last.off))
                  machine.memory, ⟨last.read, last.data, last.sources⟩)
          else .ok (machine, .only (-EBADF))
  | .release fd =>
      match machine.files fd with
      | none => .ok (machine, .only (-EBADF))
      | some _ =>
          (memoryRelease machine.memory).map fun (memory, value) =>
            (machine.setFile fd none memory, .only value)

end Machine

end KernelStuff.Crashstash
