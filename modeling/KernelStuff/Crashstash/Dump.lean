import KernelStuff.Crashstash.MemoryRefinement
import KernelStuff.Crashstash.RoundTrip
import KernelStuff.Library.Scanning
import Mathlib.Algebra.Order.BigOperators.Group.List
import Mathlib.Data.List.Sort

/-!
# Retrieving the stash from a core

`get_crashstash` on what it really reads: the records of the kernel log, the
words and pages at addresses of the dumped kernel, and the ring that it follows
from pointer to pointer.
-/

namespace KernelStuff.Crashstash

open KernelStuff.Library

/-! ## The log record -/

def ascii (text : String) : List UInt8 :=
  text.toList.map fun char => UInt8.ofNat char.toNat

/-- `%llx`. -/
def hexText (n : Nat) : List UInt8 :=
  (Nat.toDigits 16 n).map fun digit => UInt8.ofNat digit.toNat

/-- `[a-fA-F0-9]`. -/
def isHexDigit (byte : UInt8) : Bool :=
  (97 ≤ byte && byte ≤ 102) || (65 ≤ byte && byte ≤ 70) ||
    (48 ≤ byte && byte ≤ 57)

def hexDigitValue (byte : UInt8) : Nat :=
  if 97 ≤ byte then byte.toNat - 87
  else if 65 ≤ byte then byte.toNat - 55
  else byte.toNat - 48

/-- `int(text, 16)` of hexadecimal digits. -/
def hexValue (digits : List UInt8) : Nat :=
  digits.foldl (fun value digit => 16 * value + hexDigitValue digit) 0

/-- Where the variables of the module are. -/
structure Symbols where
  crashstash : Nat
  size : Nat
  pages : Nat
  deriving DecidableEq

/-- What `crashstash_open` prints. -/
def Symbols.message (symbols : Symbols) : List UInt8 :=
  ascii "crashstash: STASH: " ++
    (hexText symbols.crashstash ++
      (ascii " SIZE: " ++
        (hexText symbols.size ++
          (ascii " PAGES: " ++ hexText symbols.pages))))

/-- `expr.fullmatch`, with the numbers of its groups.  No group can go on into the
text behind it, so there is one way to match. -/
def fullmatch (text : List UInt8) : Option Symbols := do
  let rest ← skip (ascii "crashstash: STASH: ") text
  let (stash, rest) ← scanRun isHexDigit rest
  let rest ← skip (ascii " SIZE: ") rest
  let (size, rest) ← scanRun isHexDigit rest
  let rest ← skip (ascii " PAGES: ") rest
  let (pages, rest) ← scanRun isHexDigit rest
  if rest = [] then some ⟨hexValue stash, hexValue size, hexValue pages⟩
  else none

structure PrintkRecord where
  timestamp : Nat
  text : List UInt8
  deriving DecidableEq

/-- The key of the sort. -/
def PrintkRecord.NotAfter (left right : PrintkRecord) : Prop :=
  left.timestamp ≤ right.timestamp

instance decidableNotAfter : DecidableRel PrintkRecord.NotAfter :=
  fun left right => inferInstanceAs (Decidable (left.timestamp ≤ right.timestamp))

instance totalNotAfter : Std.Total PrintkRecord.NotAfter where
  total left right := Nat.le_total left.timestamp right.timestamp

instance transNotAfter : IsTrans PrintkRecord PrintkRecord.NotAfter where
  trans _ _ _ := Nat.le_trans

/-- The last matching record in the order of the timestamps. -/
def findRecord (log : List PrintkRecord) : Option Symbols :=
  (log.insertionSort PrintkRecord.NotAfter).reverse.findSome? fun record =>
    fullmatch record.text

/-! ## The core -/

/-- What the script reads of a core: the log, the eight bytes at an address, and
bytes of the page that has its `lru` at an address. -/
structure Core where
  printk : List PrintkRecord
  word : Nat → Option Nat
  pageToVirt : Nat → Nat
  read : Nat → Nat → Option (List UInt8)

/-- An exception of the script, one of the debugger, or a list without an end. -/
inductive ScriptError where
  | exception (text : String)
  | fault
  | endless
  deriving DecidableEq

/-- `list(list_for_each_entry("struct page", head, "lru"))` from `pos` on. -/
def listForEachEntry (core : Core) (head : Nat) :
    Nat → Nat → Except ScriptError (List Nat)
  | 0, _ => .error .endless
  | fuel + 1, pos =>
      if pos = head then .ok []
      else
        match core.word pos with
        | none => .error .fault
        | some next =>
            (listForEachEntry core head fuel next).map fun rest => pos :: rest

/-- The loop over the pages. -/
def readChunks (pageShift : Nat) (core : Core) :
    List Nat → Nat → Except ScriptError (List UInt8)
  | [], _ => .ok []
  | page :: rest, size =>
      let chunksz := min (pageSize pageShift) size
      match core.read (core.pageToVirt page) chunksz with
      | none => .error .fault
      | some chunkdat =>
          (readChunks pageShift core rest (size - chunksz)).map fun data =>
            chunkdat ++ data

/-- A word, or the exception that reading it raises. -/
def Core.value (core : Core) (address : Nat) : Except ScriptError Nat :=
  match core.word address with
  | none => .error .fault
  | some value => .ok value

def getCrashstashFrom (pageShift fuel : Nat) (core : Core) :
    Except ScriptError (List UInt8) :=
  match findRecord core.printk with
  | none => .error (.exception "Could not find a crashstash log record")
  | some symbols => do
      let size ← core.value symbols.size
      let pageCount ← core.value symbols.pages
      let first ← core.value symbols.crashstash
      let pages ← listForEachEntry core symbols.crashstash fuel first
      if pages.length ≠ pageCount ∨ pageCount ≠ ceilPages pageShift size then
        .error (.exception "Inconsistent metadata for crashstash size")
      else readChunks pageShift core pages size

/-! ## What is printed is matched -/

theorem hexDigit_digitChar {digit : Nat} (small : digit < 16) :
    isHexDigit (UInt8.ofNat (Nat.digitChar digit).toNat) = true ∧
      hexDigitValue (UInt8.ofNat (Nat.digitChar digit).toNat) = digit := by
  have all : ∀ digit : Fin 16,
      isHexDigit (UInt8.ofNat (Nat.digitChar digit.val).toNat) = true ∧
        hexDigitValue (UInt8.ofNat (Nat.digitChar digit.val).toNat) =
          digit.val := by
    decide
  exact all ⟨digit, small⟩

/-- A number reads back from its digits. -/
theorem hexText_spec (n : Nat) :
    (∀ digit ∈ hexText n, isHexDigit digit = true) ∧
      hexValue (hexText n) = n :=
  ⟨mem_toDigits (by decide)
      (fun _ small => (hexDigit_digitChar small).1) n,
    foldl_toDigits (by decide)
      (fun _ small => (hexDigit_digitChar small).2) n⟩

theorem hexText_ne_nil (n : Nat) : hexText n ≠ [] := by
  rw [hexText, ne_eq, List.map_eq_nil_iff]
  exact Nat.toDigits_ne_nil

theorem scanRun_hexText (n : Nat) {rest : List UInt8}
    (stops : StopsAt isHexDigit rest) :
    scanRun isHexDigit (hexText n ++ rest) = some (hexText n, rest) :=
  scanRun_append (hexText_ne_nil n) (hexText_spec n).1 stops

/-- The record is matched, and gives the addresses. -/
theorem fullmatch_message (symbols : Symbols) :
    fullmatch symbols.message = some symbols := by
  have behindStash : ∀ rest, StopsAt isHexDigit (ascii " SIZE: " ++ rest) := by
    rintro rest symbol ⟨⟩
    rfl
  have behindSize : ∀ rest, StopsAt isHexDigit (ascii " PAGES: " ++ rest) := by
    rintro rest symbol ⟨⟩
    rfl
  have behindPages : StopsAt isHexDigit [] := by
    rintro symbol ⟨⟩
  have pages := scanRun_hexText symbols.pages behindPages
  rw [List.append_nil] at pages
  have values := fun n => (hexText_spec n).2
  simp only [fullmatch, Symbols.message, skip_append, Option.bind_eq_bind,
    Option.bind_some, scanRun_hexText _ (behindStash _),
    scanRun_hexText _ (behindSize _), pages, if_true, values]

/-! ## The dump of the module -/

/-- The core holds the module: its variables are at the addresses that it has
printed, and no newer record looks like the printed one. -/
structure Dumps {pageShift : Nat} (symbols : Symbols) (core : Core)
    (memory : Memory pageShift) : Prop where
  size : core.word symbols.size = some memory.size
  pages : core.word symbols.pages = some memory.pages
  next : ∀ node, node = symbols.crashstash ∨ node ∈ memory.owned →
    core.word node = some (memory.links.next node)
  read : ∀ pg ∈ memory.owned, ∀ n, n ≤ pageSize pageShift →
    core.read (core.pageToVirt pg) n =
      some ((memory.content pg).toList.take n)
  logged : LogRecord.crashstash ∈ memory.log →
    ∃ record ∈ core.printk, record.text = symbols.message ∧
      ∀ other ∈ core.printk, fullmatch other.text ≠ none →
        other.text = symbols.message ∨ other.timestamp < record.timestamp
  unlogged : LogRecord.crashstash ∉ memory.log →
    ∀ other ∈ core.printk, fullmatch other.text = none

/-- A newer record is found before an older one. -/
theorem findSome?_of_newest
    {record : PrintkRecord} {symbols : Symbols}
    (matched : fullmatch record.text = some symbols) :
    ∀ {log : List PrintkRecord},
      log.Pairwise (fun newer older => older.NotAfter newer) → record ∈ log →
        (∀ other ∈ log, fullmatch other.text ≠ none →
          fullmatch other.text = some symbols ∨
            other.timestamp < record.timestamp) →
          log.findSome? (fun other => fullmatch other.text) = some symbols
  | [], _, member, _ => by cases member
  | first :: rest, sorted, member, others => by
      obtain ⟨older, sortedRest⟩ := List.pairwise_cons.mp sorted
      rw [List.findSome?_cons]
      cases here : fullmatch first.text with
      | none =>
          have later : record ∈ rest := by
            rcases List.mem_cons.mp member with same | later
            · rw [same, here] at matched
              cases matched
            · exact later
          exact
            findSome?_of_newest matched sortedRest later fun other inRest =>
              others other (List.mem_cons_of_mem _ inRest)
      | some found =>
          have matched : fullmatch first.text ≠ none := by
            rw [here]
            exact Option.some_ne_none found
          rcases others first List.mem_cons_self matched with same | before
          · rw [← same, here]
          · rcases List.mem_cons.mp member with same | later
            · rw [same] at before
              exact absurd before (Nat.lt_irrefl _)
            · exact absurd (older record later) (Nat.not_le.mpr before)

theorem findRecord_of_newest
    {log : List PrintkRecord} {record : PrintkRecord} {symbols : Symbols}
    (member : record ∈ log) (matched : fullmatch record.text = some symbols)
    (others : ∀ other ∈ log, fullmatch other.text ≠ none →
      fullmatch other.text = some symbols ∨
        other.timestamp < record.timestamp) :
    findRecord log = some symbols := by
  apply findSome?_of_newest matched
  · exact List.pairwise_reverse.mpr (List.pairwise_insertionSort _ log)
  · rw [List.mem_reverse, List.mem_insertionSort]
    exact member
  · intro other inLog
    rw [List.mem_reverse, List.mem_insertionSort] at inLog
    exact others other inLog

theorem findRecord_eq_none
    {log : List PrintkRecord}
    (unmatched : ∀ other ∈ log, fullmatch other.text = none) :
    findRecord log = none := by
  rw [findRecord, List.findSome?_eq_none_iff]
  intro other inLog
  rw [List.mem_reverse, List.mem_insertionSort] at inLog
  exact unmatched other inLog

theorem listForEachEntry_eq {core : Core} {links : Links Nat} {head : Nat} :
    ∀ {fuel pos : Nat} {nodes : List Nat},
      links.walk head fuel pos = some nodes →
        (∀ node ∈ nodes, core.word node = some (links.next node)) →
          listForEachEntry core head fuel pos = .ok nodes
  | 0, pos, nodes, walks, _ => by cases walks
  | fuel + 1, pos, nodes, walks, words => by
      rw [Links.walk] at walks
      rw [listForEachEntry]
      split at walks
      · next round =>
          cases walks
          exact if_pos round
      · next onward =>
          obtain ⟨rest, walksOn, is⟩ := Option.map_eq_some_iff.mp walks
          subst is
          have tail :=
            listForEachEntry_eq walksOn fun node member =>
              words node (List.mem_cons_of_mem _ member)
          rw [if_neg onward, words pos List.mem_cons_self]
          dsimp only
          rw [tail]
          rfl

theorem readChunks_eq
    {pageShift : Nat} {core : Core} {content : Nat → Page pageShift} :
    ∀ {nodes : List Nat},
      (∀ pg ∈ nodes, ∀ n, n ≤ pageSize pageShift →
        core.read (core.pageToVirt pg) n =
          some ((content pg).toList.take n)) →
        ∀ size,
          readChunks pageShift core nodes size =
            .ok (readPages (nodes.map content) size)
  | [], _, _ => rfl
  | node :: rest, reads, size => by
      have tail :=
        readChunks_eq (fun pg member => reads pg (List.mem_cons_of_mem _ member))
          (size - min (pageSize pageShift) size)
      rw [readChunks, reads node List.mem_cons_self _ (Nat.min_le_left _ _)]
      dsimp only
      rw [tail]
      rfl

/-- The script reads from a dump of the module what `getCrashstash` gets from its
list of pages. -/
theorem getCrashstashFrom_eq
    {pageShift fuel : Nat} {symbols : Symbols} {core : Core}
    {nodes : List Nat} {memory : Memory pageShift} {stash : Stash pageShift}
    (represents : Represents symbols.crashstash nodes memory stash)
    (dumps : Dumps symbols core memory) (enough : nodes.length < fuel) :
    getCrashstashFrom pageShift fuel core =
      (getCrashstash stash).mapError .exception := by
  rw [getCrashstashFrom, getCrashstash]
  by_cases logged : LogRecord.crashstash ∈ stash.log
  · obtain ⟨record, member, text, others⟩ :=
      dumps.logged (represents.log ▸ logged)
    have found : findRecord core.printk = some symbols := by
      apply findRecord_of_newest member
      · rw [text, fullmatch_message]
      · intro other inLog matched
        rcases others other inLog matched with same | older
        · rw [same, fullmatch_message]
          exact Or.inl rfl
        · exact Or.inr older
    have mine : ∀ node ∈ nodes, node ∈ memory.owned := fun node inRing =>
      represents.owned.mem_iff.mpr inRing
    have listed :
        listForEachEntry core symbols.crashstash fuel
            (memory.links.next symbols.crashstash) =
          .ok nodes :=
      listForEachEntry_eq (represents.ring.walk_eq enough)
        fun node inRing => dumps.next node (Or.inr (mine node inRing))
    have read :=
      readChunks_eq (fun pg inRing => dumps.read pg (mine pg inRing)) memory.size
    have head := dumps.next symbols.crashstash (Or.inl rfl)
    rw [found, if_pos (List.contains_iff_mem.mpr logged)]
    simp only [Core.value, dumps.size, dumps.pages, head, bind, Except.bind,
      listed, read]
    rw [represents.pages, represents.size, represents.crashstash,
      List.length_map]
    split <;> rfl
  · have unmatched :=
      findRecord_eq_none (dumps.unlogged fun member =>
        logged (represents.log ▸ member))
    rw [unmatched, if_neg fun contains => logged (List.contains_iff_mem.mp contains)]
    rfl

/-- Whatever has been called before the crash, as long as `alloc_page` has given a
page, the script answers from a dump as `getCrashstash` does from the list of pages:
with the content, when the last record of the log is there and no page is astray. -/
theorem crashstash_dump
    {pageShift : Nat} {symbols : Symbols}
    (allocator : Allocator symbols.crashstash) (poison : Nat × Nat)
    (links : Links Nat) (content : Nat → Page pageShift)
    (log : List LogRecord) (calls : List (Call pageShift))
    {machine : Machine pageShift} {replies : List Reply}
    (run : serve (Machine.step allocator poison)
      (Machine.initial pageShift symbols.crashstash links content log) calls =
        .ok (machine, replies))
    {core : Core} (dumps : Dumps symbols core machine.memory)
    {fuel : Nat} (enough : machine.memory.pages < fuel) :
    ∃ system,
      serve System.step (System.initial pageShift log) calls =
        .ok (system, replies) ∧
      getCrashstashFrom pageShift fuel core =
        (getCrashstash system.stash).mapError .exception ∧
      (LogRecord.crashstash ∈ system.stash.log →
        system.stash.pages = ceilPages pageShift system.stash.size →
          getCrashstashFrom pageShift fuel core = .ok system.stash.content) := by
  obtain ⟨other, system, otherReplies, nodes, runs, listRun, represents, sound⟩ :=
    exists_machineServe allocator poison links content log calls
  rw [run] at runs
  cases runs
  rw [← represents.length_eq sound] at enough
  have answers := getCrashstashFrom_eq represents.memory dumps enough
  refine ⟨system, listRun, answers, ?_⟩
  intro logged pages
  rw [answers, getCrashstash_eq ⟨sound.backed.entries, pages, sound.backed.size_le⟩ logged]
  rfl

/-! ## A dump -/

/-- Hands out the addresses behind those in use. -/
def behindAllocator (head : Nat) : Allocator head where
  pick owned _ := (head :: owned).sum + 1
  fresh owned _ member := by
    have le := List.le_sum_of_mem member
    omega

def exampleSymbols : Symbols := ⟨0x1000, 0x10, 0x18⟩

/-- Pages of two bytes: three bytes are written, and the kernel crashes. -/
def exampleCalls : List (Call 1) :=
  [.openFile 0 .writeOnly false,
    .write 0 ⟨[4, 5, 6], by decide⟩ noFault
      (fun _ => List.Vector.replicate _ 0)]

/-- A core that can be read at any address. -/
def exampleCore (memory : Memory 1) : Core where
  printk := [⟨1, ascii "crashstash: exited"⟩, ⟨2, exampleSymbols.message⟩]
  word address :=
    if address = exampleSymbols.size then some memory.size
    else if address = exampleSymbols.pages then some memory.pages
    else some (memory.links.next address)
  pageToVirt := id
  read address n := some ((memory.content address).toList.take n)

theorem exampleCore_dumps
    {memory : Memory 1} (owned : memory.owned = [0x2002, 0x1001])
    (log : memory.log = [.crashstash]) :
    Dumps exampleSymbols (exampleCore memory) memory where
  size := by simp [exampleCore]
  pages := by simp [exampleCore, exampleSymbols]
  next := by
    intro node inRing
    rw [owned, List.mem_cons, List.mem_singleton] at inRing
    rcases inRing with is | is | is <;> subst is <;>
      simp [exampleCore, exampleSymbols]
  read := fun _ _ _ _ => rfl
  logged := by
    intro _
    refine ⟨⟨2, exampleSymbols.message⟩, by simp [exampleCore], rfl, ?_⟩
    intro other inLog matched
    simp only [exampleCore, List.mem_cons, List.not_mem_nil, or_false] at inLog
    rcases inLog with is | is <;> subst is
    · exact Or.inr (by decide)
    · exact Or.inl rfl
  unlogged := by
    intro unlogged
    rw [log] at unlogged
    exact absurd (List.mem_singleton_self _) unlogged

theorem ok_of_toOption {Failure Result : Type} {outcome : Except Failure Result}
    {result : Result} (is : outcome.toOption = some result) :
    outcome = .ok result := by
  cases outcome with
  | error failure => cases is
  | ok other =>
      cases is
      rfl

/-- The bytes are read from the two pages of the ring. -/
theorem crashstash_dump_twoPages :
    ∃ machine replies,
      serve
          (Machine.step (behindAllocator exampleSymbols.crashstash) (0, 0))
          (Machine.initial 1 exampleSymbols.crashstash ⟨id, id⟩
            (fun _ => List.Vector.replicate _ 0) []) exampleCalls =
        .ok (machine, replies) ∧
      getCrashstashFrom 1 3 (exampleCore machine.memory) = .ok [4, 5, 6] := by
  have ends :
      (serve
          (Machine.step (behindAllocator exampleSymbols.crashstash) (0, 0))
          (Machine.initial 1 exampleSymbols.crashstash ⟨id, id⟩
            (fun _ => List.Vector.replicate _ 0) [])
          exampleCalls).toOption.map
        (fun result =>
          (result.1.memory.owned, result.1.memory.log,
            result.1.memory.pages)) =
        some ([0x2002, 0x1001], [.crashstash], 2) := by
    decide +kernel
  have listEnds :
      (serve System.step (System.initial 1 []) exampleCalls).toOption.map
        (fun result => (getCrashstash result.1.stash).toOption) =
        some (some [4, 5, 6]) := by
    decide +kernel
  obtain ⟨⟨machine, replies⟩, run, state⟩ := Option.map_eq_some_iff.mp ends
  simp only [Prod.mk.injEq] at state
  obtain ⟨owned, logged, pages⟩ := state
  have served := ok_of_toOption run
  have enough : machine.memory.pages < 3 := by
    rw [pages]
    decide
  obtain ⟨system, listRun, answers, -⟩ :=
    crashstash_dump (behindAllocator exampleSymbols.crashstash) (0, 0)
      ⟨id, id⟩ (fun _ => List.Vector.replicate _ 0) [] exampleCalls served
      (exampleCore_dumps owned logged) enough
  refine ⟨machine, replies, served, ?_⟩
  rw [listRun] at listEnds
  have content := ok_of_toOption (Option.some.inj listEnds)
  rw [answers, content]
  rfl

end KernelStuff.Crashstash
