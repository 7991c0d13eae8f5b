import KernelStuff.Phys2virt.Program

/-!
# What phys2virt changes

The loop goes over the entries of all types.  So the virtual addresses of load
segments are the only thing that changes exactly if those of the other entries
already are what they would become.
-/

namespace KernelStuff.Phys2virt

open KernelStuff.Library

/-! ## The table in memory -/

/-- The byte of a table belongs to `p_vaddr` of an entry. -/
def InVaddr (j : Nat) : Prop := 16 ≤ j % phdrSize ∧ j % phdrSize < 24

instance : DecidablePred InVaddr := fun _ => inferInstanceAs (Decidable (_ ∧ _))

/-- What the byte at `j` of `p_vaddr` becomes. -/
def newByte (zero : Bool) (table : List UInt8) (j : Nat) : Option UInt8 :=
  if zero then some 0 else table[j + 8]?

theorem encode_zero (host : Endian) :
    host.encode 8 0 = List.replicate 8 0 := by
  cases host <;> decide

/-- The bytes of an address are copied as they are. -/
theorem updatePhdr_eq
    (host : Endian) (zero : Bool) {table : List UInt8} {i : Nat}
    (within : phdrSize * (i + 1) ≤ table.length) :
    updatePhdr host zero table i =
      overwrite table (phdrSize * i + 16)
        (if zero then List.replicate 8 0
          else slice table (phdrSize * i + 24) 8) := by
  rw [updatePhdr]
  split
  · rw [setVaddr, encode_zero]
  · have length : (slice table (phdrSize * i + 24) 8).length = 8 := by
      apply slice_length_of_le
      rw [phdrSize] at within ⊢
      omega
    have same := host.encode_decode (slice table (phdrSize * i + 24) 8)
    rw [length] at same
    rw [setVaddr, pPaddr, same]

/-- One round of the loop. -/
theorem updatePhdr_getElem?
    (host : Endian) (zero : Bool) {table : List UInt8} {i : Nat}
    (within : phdrSize * (i + 1) ≤ table.length) (j : Nat) :
    (updatePhdr host zero table i)[j]? =
      if InVaddr j ∧ j / phdrSize = i then newByte zero table j
      else table[j]? := by
  have length :
      (if zero then List.replicate 8 0
        else slice table (phdrSize * i + 24) 8).length = 8 := by
    split
    · exact List.length_replicate
    · apply slice_length_of_le
      rw [phdrSize] at within ⊢
      omega
  rw [updatePhdr_eq host zero within]
  by_cases inside : InVaddr j ∧ j / phdrSize = i
  · rw [if_pos inside, newByte]
    simp only [InVaddr, phdrSize] at within length inside ⊢
    obtain ⟨k, position⟩ : ∃ k, j = 56 * i + 16 + k :=
      ⟨j - (56 * i + 16), by omega⟩
    rw [position, getElem?_overwrite_inside _ _ (by omega)]
    cases zero with
    | true => exact List.getElem?_replicate_of_lt (by omega)
    | false =>
        change (slice table _ 8)[_]? = table[56 * i + 16 + k + 8]?
        rw [getElem?_slice, if_pos (by omega)]
        congr 1
        omega
  · rw [if_neg inside]
    simp only [InVaddr, phdrSize] at within length inside ⊢
    apply getElem?_overwrite_outside
    · omega
    · rw [length]
      omega

theorem updatePhdr_length
    (host : Endian) (zero : Bool) {table : List UInt8} {i : Nat}
    (within : phdrSize * (i + 1) ≤ table.length) :
    (updatePhdr host zero table i).length = table.length := by
  rw [updatePhdr_eq host zero within]
  simp only [phdrSize] at within ⊢
  apply overwrite_length
  split
  · rw [List.length_replicate]
    omega
  · rw [slice_length]
    omega

/-- The loop. -/
theorem updatePhdrs_spec
    (host : Endian) (zero : Bool) {table : List UInt8} :
    ∀ {count : Nat}, phdrSize * count ≤ table.length →
      (updatePhdrs host zero table count).length = table.length ∧
        ∀ j, (updatePhdrs host zero table count)[j]? =
          if InVaddr j ∧ j / phdrSize < count then newByte zero table j
          else table[j]?
  | 0, _ => by
      refine ⟨rfl, fun j => ?_⟩
      rw [if_neg fun inside => Nat.not_lt_zero _ inside.2]
      rfl
  | count + 1, within => by
      have before : phdrSize * count ≤ table.length := by
        rw [phdrSize] at within ⊢
        omega
      obtain ⟨length, bytes⟩ := updatePhdrs_spec host zero before
      rw [← length] at within
      rw [updatePhdrs]
      refine ⟨(updatePhdr_length host zero within).trans length, fun j => ?_⟩
      rw [updatePhdr_getElem? host zero within]
      by_cases here : InVaddr j ∧ j / phdrSize = count
      · -- The bytes of `p_paddr` are still the old ones.
        have source : ¬ (InVaddr (j + 8) ∧ (j + 8) / phdrSize < count) := by
          rw [InVaddr, phdrSize] at here ⊢
          omega
        have earlier : j / phdrSize < count + 1 := by
          rw [here.2]
          exact Nat.lt_succ_self count
        rw [if_pos here, if_pos ⟨here.1, earlier⟩, newByte, newByte, bytes,
          if_neg source]
      · have same :
            InVaddr j ∧ j / phdrSize < count ↔
              InVaddr j ∧ j / phdrSize < count + 1 := by
          rw [Nat.lt_succ_iff_lt_or_eq]
          tauto
        rw [if_neg here, bytes]
        exact if_congr same rfl rfl

/-! ## Fields of the header -/

/-- A field of the file in its own byte order. -/
def fileField (endian : Endian) (bytes : List UInt8) (pos width : Nat) : Nat :=
  endian.decode (slice bytes pos width)

/-- `e_phoff` and `e_phnum`. -/
def tableStart (endian : Endian) (bytes : List UInt8) : Nat :=
  fileField endian bytes 32 8

def tableCount (endian : Endian) (bytes : List UInt8) : Nat :=
  fileField endian bytes 56 2

/-- Whatever the machine, a field is read in the byte order of the file. -/
theorem field_eq
    (host : Endian) {endian : Endian} {bytes : List UInt8} {pos width : Nat}
    (data : bytes.getD 5 0 = elfData endian) (long : 64 ≤ bytes.length)
    (within : pos + width ≤ 64) :
    field host (slice bytes 0 ehdrSize) pos width =
      fileField endian bytes pos width := by
  have part :
      slice (slice bytes 0 ehdrSize) pos width = slice bytes pos width := by
    rw [ehdrSize, slice_slice bytes within, Nat.zero_add]
  have dataByte : (slice bytes 0 ehdrSize).getD 5 0 = elfData endian := by
    rw [← data, List.getD_eq_getElem?_getD, List.getD_eq_getElem?_getD,
      getElem?_slice, if_pos (by decide), Nat.zero_add]
  have length : (slice bytes pos width).length = width :=
    slice_length_of_le (by omega)
  rw [field, part, dataByte]
  by_cases same : endian = host
  · rw [same, if_neg (not_not.mpr rfl), fileField]
  · have different : elfData host ≠ elfData endian := by
      intro equal
      cases host <;> cases endian <;> first | exact same rfl | cases equal
    rw [if_pos different]
    exact Endian.byteSwap_decode same length

/-! ## Runs -/

/-- What the program checks. -/
structure Accepted (host : Endian) (bytes : List UInt8) : Prop where
  header_length : (slice bytes 0 ehdrSize).length = ehdrSize
  magic : slice (slice bytes 0 ehdrSize) 0 4 = elfMag
  class64 : (slice bytes 0 ehdrSize).getD 4 0 = elfClass64
  entsize : phentsize host (slice bytes 0 ehdrSize) = phdrSize
  phoff_lt : phoff host (slice bytes 0 ehdrSize) < 2 ^ 63
  table_length :
    (slice bytes (phoff host (slice bytes 0 ehdrSize))
      (phdrSize * phnum host (slice bytes 0 ehdrSize))).length =
        phdrSize * phnum host (slice bytes 0 ehdrSize)

theorem Accepted.long {host : Endian} {bytes : List UInt8}
    (accepted : Accepted host bytes) : 64 ≤ bytes.length := by
  have length := accepted.header_length
  rw [slice_length, ehdrSize] at length
  omega

/-- The content after the first `most` bytes of the new table were written. -/
def rewritten (host : Endian) (zero : Bool) (bytes : List UInt8)
    (most : Nat) : List UInt8 :=
  let hdr := slice bytes 0 ehdrSize
  let table := slice bytes (phoff host hdr) (phdrSize * phnum host hdr)
  overwrite bytes (phoff host hdr)
    ((updatePhdrs host zero table (phnum host hdr)).take most)

section Runs

variable {env : Env} {file last : ByteFile}

theorem bind_require_eq_ok
    {Result : Type} {condition : Bool} {exit : Exit}
    {rest : PUnit → Program Result} {result : Result}
    (run : (require condition exit >>= rest) file = .ok result last) :
    condition = true ∧ rest () file = .ok result last := by
  obtain ⟨_, next, check, run⟩ := bind_eq_ok run
  rw [require] at check
  split at check
  · next holds =>
      cases check
      exact ⟨holds, run⟩
  · cases check

theorem fseek_eq (succeeds : Bool) (offset : Nat) (file : ByteFile) :
    fseek succeeds offset file =
      if (!succeeds) = true ∨ 2 ^ 63 ≤ offset then .ok false file
      else .ok true { file with pos := offset } := by
  rw [fseek]
  split <;> rfl

theorem fseek_eq_true {succeeds : Bool} {offset : Nat}
    (run : fseek succeeds offset file = .ok true last) :
    offset < 2 ^ 63 ∧ last = { file with pos := offset } := by
  rw [fseek_eq] at run
  split at run
  · cases run
  · next possible =>
      cases run
      exact ⟨by omega, rfl⟩

/-- All items were read or taken. -/
theorem length_of_items {size count length : Nat}
    (most : length ≤ size * count) (all : length / size = count) :
    length = size * count := by
  have low := Nat.div_mul_le_self length size
  rw [all, Nat.mul_comm] at low
  omega

/-- All items were read. -/
theorem fread_eq_all
    {outcome : CallOutcome} {size nmemb items : Nat} {bytes : List UInt8}
    (run : fread outcome size nmemb file = .ok (bytes, items) last)
    (all : items = nmemb) :
    bytes = slice file.bytes file.pos (size * nmemb) ∧
      bytes.length = size * nmemb ∧ last.bytes = file.bytes := by
  obtain ⟨value, state⟩ := EStateM.Result.ok.inj run
  obtain ⟨bytesEq, itemsEq⟩ := Prod.mk.inj value
  have most := outcome.limit_le (size * nmemb)
  have within :=
    slice_length file.bytes file.pos (outcome.limit (size * nmemb))
  rw [bytesEq] at within itemsEq
  have length : bytes.length = size * nmemb :=
    length_of_items (by omega) (itemsEq.trans all)
  refine ⟨?_, length, ?_⟩
  · rw [← bytesEq] at length ⊢
    exact slice_of_length length
  · rw [← state]

/-- All items were taken. -/
theorem fwrite_eq_all
    {outcome flushed : CallOutcome} {data : List UInt8} {size nmemb items : Nat}
    (run : fwrite outcome flushed data size file = .ok items last)
    (length : data.length = size * nmemb) (all : items = nmemb) :
    last.bytes =
      overwrite file.bytes file.pos
        (data.take (flushed.limit (size * nmemb))) := by
  obtain ⟨itemsEq, state⟩ := EStateM.Result.ok.inj run
  have most := outcome.limit_le data.length
  have taken : (data.take (outcome.limit data.length)).length = size * nmemb :=
    length_of_items (by
      rw [List.length_take]
      omega) (itemsEq.trans all)
  have whole : data.take (outcome.limit data.length) = data := by
    rw [List.length_take] at taken
    exact List.take_of_length_le (by omega)
  rw [← state, whole, length]

theorem readHeader_eq_ok {hdr : List UInt8} (start : file.pos = 0)
    (run : readHeader env file = .ok hdr last) :
    hdr = slice file.bytes 0 ehdrSize ∧ hdr.length = ehdrSize ∧
      slice hdr 0 4 = elfMag ∧ hdr.getD 4 0 = elfClass64 ∧
      phentsize env.host hdr = phdrSize ∧ last.bytes = file.bytes := by
  rw [readHeader] at run
  obtain ⟨-, run⟩ := bind_require_eq_ok run
  obtain ⟨⟨bytes, items⟩, afterRead, reading, run⟩ := bind_eq_ok run
  dsimp only at run
  obtain ⟨complete, run⟩ := bind_require_eq_ok run
  obtain ⟨magic, run⟩ := bind_require_eq_ok run
  obtain ⟨class64, run⟩ := bind_require_eq_ok run
  obtain ⟨entsize, run⟩ := bind_require_eq_ok run
  cases run
  rw [beq_iff_eq] at complete magic class64 entsize
  obtain ⟨bytesEq, length, kept⟩ := fread_eq_all reading complete
  rw [start] at bytesEq
  exact ⟨bytesEq, length, magic, class64, entsize, kept⟩

/-- A run that returns has checked the file, and has written a part of the new
table. -/
theorem phys2virt_eq_ok {zero : Bool} {status : Int} (start : file.pos = 0)
    (run : phys2virt env zero file = .ok status last) :
    Accepted env.host file.bytes ∧
      last.bytes =
        rewritten env.host zero file.bytes
          (env.flushes.limit
            (phdrSize * phnum env.host (slice file.bytes 0 ehdrSize))) := by
  rw [phys2virt] at run
  obtain ⟨hdr, afterHeader, header, run⟩ := bind_eq_ok run
  change (fseek env.seeks (phoff env.host hdr) >>= _) _ = _ at run
  obtain ⟨reached, afterSeek, seek, run⟩ := bind_eq_ok run
  obtain ⟨sought, run⟩ := bind_require_eq_ok run
  obtain ⟨-, run⟩ := bind_require_eq_ok run
  obtain ⟨⟨table, items⟩, afterTable, reading, run⟩ := bind_eq_ok run
  dsimp only at run
  obtain ⟨readAll, run⟩ := bind_require_eq_ok run
  obtain ⟨back, afterBack, seekBack, run⟩ := bind_eq_ok run
  obtain ⟨rewound, run⟩ := bind_require_eq_ok run
  obtain ⟨taken, afterWrite, writing, run⟩ := bind_eq_ok run
  obtain ⟨tookAll, run⟩ := bind_require_eq_ok run
  cases run
  rw [beq_iff_eq] at readAll tookAll
  rw [sought] at seek
  rw [rewound] at seekBack
  obtain ⟨rfl, length, magic, class64, entsize, kept⟩ :=
    readHeader_eq_ok start header
  obtain ⟨phoffLt, seekEq⟩ := fseek_eq_true seek
  obtain ⟨tableEq, tableLength, tableKept⟩ := fread_eq_all reading readAll
  obtain ⟨-, backEq⟩ := fseek_eq_true seekBack
  rw [seekEq] at tableEq tableKept
  dsimp only at tableEq tableKept
  rw [kept] at tableEq tableKept
  have newLength :
      (updatePhdrs env.host zero table
          (phnum env.host (slice file.bytes 0 ehdrSize))).length =
        phdrSize * phnum env.host (slice file.bytes 0 ehdrSize) :=
    (updatePhdrs_spec env.host zero (by omega)).1.trans tableLength
  have bytesEq := fwrite_eq_all writing newLength tookAll
  rw [backEq] at bytesEq
  dsimp only at bytesEq
  rw [tableKept, tableEq] at bytesEq
  refine ⟨⟨length, magic, class64, entsize, phoffLt, ?_⟩, bytesEq⟩
  rw [← tableEq]
  exact tableLength

/-- Every call completes. -/
def quietEnv (host : Endian) : Env where
  host := host
  opens := true
  readsHeader := .complete
  seeks := true
  allocates := true
  readsTable := .complete
  seeksBack := true
  writes := .complete
  flushes := .complete

theorem bind_require_of_true
    {Result : Type} {condition : Bool} {exit : Exit}
    {rest : PUnit → Program Result} (holds : condition = true) :
    (require condition exit >>= rest) file = rest () file := by
  rw [holds]
  rfl

/-- Every file that passes the checks can be rewritten. -/
theorem phys2virt_of_accepted
    {host : Endian} (zero : Bool) {bytes : List UInt8}
    (accepted : Accepted host bytes) :
    ∃ last, phys2virt (quietEnv host) zero ⟨bytes, 0⟩ = .ok 0 last := by
  have headerItems :
      ((slice bytes 0 ehdrSize).length / ehdrSize == 1) = true := by
    rw [accepted.header_length]
    rfl
  have header :
      readHeader (quietEnv host) ⟨bytes, 0⟩ =
        .ok (slice bytes 0 ehdrSize)
          ⟨bytes, 0 + (slice bytes 0 ehdrSize).length⟩ := by
    rw [readHeader]
    refine (bind_require_of_true rfl).trans ?_
    refine (bind_of_ok rfl).trans ?_
    refine (bind_require_of_true headerItems).trans ?_
    refine (bind_require_of_true (beq_iff_eq.mpr accepted.magic)).trans ?_
    refine (bind_require_of_true (beq_iff_eq.mpr accepted.class64)).trans ?_
    exact bind_require_of_true (beq_iff_eq.mpr accepted.entsize)
  have tableLength := accepted.table_length
  have possible := accepted.phoff_lt
  generalize slice bytes 0 ehdrSize = hdr at *
  have seek (file : ByteFile) :
      fseek true (phoff host hdr) file =
        .ok true { file with pos := phoff host hdr } := by
    rw [fseek_eq, if_neg]
    rintro (failure | negative)
    · cases failure
    · omega
  have tableItems :
      ((slice bytes (phoff host hdr) (phdrSize * phnum host hdr)).length /
        phdrSize == phnum host hdr) = true := by
    rw [tableLength, Nat.mul_div_cancel_left _ (by decide), beq_self_eq_true]
  have newLength :=
    (updatePhdrs_spec host zero (Nat.le_of_eq tableLength.symm)).1
  have newItems :
      ((updatePhdrs host zero
          (slice bytes (phoff host hdr) (phdrSize * phnum host hdr))
          (phnum host hdr)).length / phdrSize == phnum host hdr) = true := by
    rw [newLength]
    exact tableItems
  rw [phys2virt, bind_of_ok header]
  constructor
  refine (bind_of_ok (seek _)).trans ?_
  refine (bind_require_of_true rfl).trans ?_
  refine (bind_require_of_true rfl).trans ?_
  refine (bind_of_ok rfl).trans ?_
  refine (bind_require_of_true tableItems).trans ?_
  refine (bind_of_ok (seek _)).trans ?_
  refine (bind_require_of_true rfl).trans ?_
  refine (bind_of_ok rfl).trans ?_
  refine (bind_require_of_true ?_).trans ?_
  · change ((List.take (List.length _) _).length / phdrSize == _) = true
    rw [List.take_length]
    exact newItems
  · rfl

end Runs

/-! ## Entries of the table -/

/-- `PT_LOAD`. -/
def ptLoad : Nat := 1

section Entries

variable (endian : Endian) (zero : Bool) (bytes : List UInt8) (entry : Nat)

/-- `p_type`, `p_vaddr` and `p_paddr`. -/
def typeAt : Nat := fileField endian bytes entry 4
def vaddrAt : Nat := fileField endian bytes (entry + 16) 8
def paddrAt : Nat := fileField endian bytes (entry + 24) 8

/-- The virtual address is the physical one, or zero. -/
def VaddrMoved : Prop :=
  vaddrAt endian bytes entry = if zero then 0 else paddrAt endian bytes entry

end Entries

/-- Where the `i`-th entry is in the file. -/
def entryAt (endian : Endian) (bytes : List UInt8) (i : Nat) : Nat :=
  tableStart endian bytes + phdrSize * i

theorem decode_injective (endian : Endian) {left right : List UInt8}
    (length : left.length = right.length)
    (same : endian.decode left = endian.decode right) : left = right := by
  rw [← endian.encode_decode left, ← endian.encode_decode right, length, same]

/-- The addresses are equal if their bytes are. -/
theorem vaddrMoved_iff
    (endian : Endian) (zero : Bool) {bytes : List UInt8} {entry : Nat}
    (within : entry + phdrSize ≤ bytes.length) :
    VaddrMoved endian zero bytes entry ↔
      ∀ m, m < 8 →
        bytes[entry + 16 + m]? = newByte zero bytes (entry + 16 + m) := by
  rw [phdrSize] at within
  have vaddrLength : (slice bytes (entry + 16) 8).length = 8 :=
    slice_length_of_le (by omega)
  have paddrLength : (slice bytes (entry + 24) 8).length = 8 :=
    slice_length_of_le (by omega)
  -- The bytes that are compared.
  have moved :
      VaddrMoved endian zero bytes entry ↔
        slice bytes (entry + 16) 8 =
          if zero then List.replicate 8 0 else slice bytes (entry + 24) 8 := by
    cases zero with
    | true =>
        have decoded : endian.decode (List.replicate 8 0) = 0 := by
          rw [← encode_zero endian, Endian.decode_encode, Nat.zero_mod]
        constructor
        · intro same
          exact decode_injective endian vaddrLength (same.trans decoded.symm)
        · intro same
          exact (congrArg endian.decode same).trans decoded
    | false =>
        constructor
        · intro same
          exact decode_injective endian
            (vaddrLength.trans paddrLength.symm) same
        · intro same
          exact congrArg endian.decode same
  have byteAt (m : Nat) (inside : m < 8) :
      (if zero then List.replicate 8 0
          else slice bytes (entry + 24) 8)[m]? =
        newByte zero bytes (entry + 16 + m) := by
    cases zero with
    | true => exact List.getElem?_replicate_of_lt inside
    | false =>
        change (slice _ _ _)[m]? = bytes[entry + 16 + m + 8]?
        rw [getElem?_slice, if_pos inside]
        congr 1
        omega
  rw [moved]
  constructor
  · intro same m inside
    rw [← byteAt m inside, ← same, getElem?_slice, if_pos inside]
  · intro same
    apply List.ext_getElem?
    intro m
    by_cases inside : m < 8
    · rw [getElem?_slice, if_pos inside, byteAt m inside]
      exact same m inside
    · rw [List.getElem?_eq_none (by omega), List.getElem?_eq_none]
      cases zero with
      | true =>
          change (List.replicate 8 _).length ≤ m
          rw [List.length_replicate]
          omega
      | false =>
          change (slice _ _ _).length ≤ m
          omega

/-! ## The file after a run -/

section After

variable {host endian : Endian} {bytes : List UInt8}
  (accepted : Accepted host bytes) (data : bytes.getD 5 0 = elfData endian)

include accepted data

theorem phoff_eq :
    phoff host (slice bytes 0 ehdrSize) = tableStart endian bytes :=
  field_eq host data accepted.long (by decide)

theorem phnum_eq :
    phnum host (slice bytes 0 ehdrSize) = tableCount endian bytes :=
  field_eq host data accepted.long (by decide)

/-- The table is within the file, unless it is empty. -/
theorem entry_le {i : Nat} (index : i < tableCount endian bytes) :
    entryAt endian bytes i + phdrSize ≤ bytes.length := by
  have length := accepted.table_length
  rw [phoff_eq accepted data, phnum_eq accepted data, slice_length] at length
  rw [entryAt]
  simp only [phdrSize] at length ⊢
  omega

/-- Exactly the bytes of `p_vaddr` that were written change. -/
theorem rewritten_getElem? (zero : Bool) (most j : Nat) :
    (rewritten host zero bytes most)[j]? =
      if tableStart endian bytes ≤ j ∧
          j - tableStart endian bytes <
            min most (phdrSize * tableCount endian bytes) ∧
          InVaddr (j - tableStart endian bytes) then newByte zero bytes j
      else bytes[j]? := by
  have length := accepted.table_length
  rw [rewritten]
  rw [phoff_eq accepted data, phnum_eq accepted data] at length ⊢
  generalize start : tableStart endian bytes = p at *
  generalize number : tableCount endian bytes = n at *
  generalize tableEq : slice bytes p (phdrSize * n) = table at *
  obtain ⟨newLength, newBytes⟩ :=
    updatePhdrs_spec host zero (Nat.le_of_eq length.symm)
  have inFile := slice_length bytes p (phdrSize * n)
  rw [tableEq, length] at inFile
  have partLength :
      ((updatePhdrs host zero table n).take most).length =
        min most (phdrSize * n) := by
    rw [List.length_take, newLength, length]
  have tableByte (k : Nat) (inside : k < phdrSize * n) :
      table[k]? = bytes[p + k]? := by
    rw [← tableEq, getElem?_slice, if_pos inside]
  by_cases written : p ≤ j ∧ j - p < min most (phdrSize * n)
  · obtain ⟨k, rfl⟩ := Nat.exists_eq_add_of_le written.1
    rw [Nat.add_sub_cancel_left] at written ⊢
    have index : k / phdrSize < n := Nat.div_lt_of_lt_mul (by omega)
    rw [getElem?_overwrite_inside _ _ (by omega),
      List.getElem?_take_of_lt (by omega), newBytes]
    by_cases address : InVaddr k
    · have next : k + 8 < phdrSize * n := by
        rw [InVaddr, phdrSize] at address
        rw [phdrSize] at written ⊢
        omega
      rw [if_pos ⟨address, index⟩, if_pos ⟨by omega, by omega, address⟩,
        newByte, newByte, tableByte _ next, Nat.add_assoc]
    · rw [if_neg (fun inside => address inside.1),
        if_neg (fun inside => address inside.2.2), tableByte k (by omega)]
  · rw [if_neg (fun inside => written ⟨inside.1, inside.2.1⟩)]
    by_cases nothing : (updatePhdrs host zero table n).take most = []
    · rw [nothing, overwrite_nil]
    · have positive := List.length_pos_of_ne_nil nothing
      apply getElem?_overwrite_outside
      · omega
      · omega

omit data in
theorem rewritten_length (zero : Bool) (most : Nat) :
    (rewritten host zero bytes most).length = bytes.length := by
  have length := accepted.table_length
  have spec :=
    (updatePhdrs_spec host zero (Nat.le_of_eq length.symm)).1
  rw [rewritten]
  by_cases nothing :
      (updatePhdrs host zero
        (slice bytes (phoff host (slice bytes 0 ehdrSize))
          (phdrSize * phnum host (slice bytes 0 ehdrSize)))
        (phnum host (slice bytes 0 ehdrSize))).take most = []
  · rw [nothing, overwrite_nil]
  · have positive := List.length_pos_of_ne_nil nothing
    have inFile :=
      slice_length bytes (phoff host (slice bytes 0 ehdrSize))
        (phdrSize * phnum host (slice bytes 0 ehdrSize))
    apply overwrite_length
    rw [List.length_take] at positive ⊢
    omega

/-- The bytes of the `i`-th address. -/
theorem rewritten_vaddr (zero : Bool) (most : Nat) {i m : Nat}
    (index : i < tableCount endian bytes) (inside : m < 8) :
    (rewritten host zero bytes most)[entryAt endian bytes i + 16 + m]? =
      if phdrSize * i + 16 + m < most then
        newByte zero bytes (entryAt endian bytes i + 16 + m)
      else bytes[entryAt endian bytes i + 16 + m]? := by
  have position :
      entryAt endian bytes i + 16 + m - tableStart endian bytes =
        phdrSize * i + 16 + m := by
    rw [entryAt]
    omega
  have address : InVaddr (phdrSize * i + 16 + m) := by
    rw [InVaddr, phdrSize]
    omega
  have inTable :
      phdrSize * i + 16 + m < phdrSize * tableCount endian bytes := by
    rw [phdrSize]
    omega
  rw [rewritten_getElem? accepted data, position]
  apply if_congr _ rfl rfl
  constructor
  · rintro ⟨-, written, -⟩
    omega
  · intro written
    exact ⟨by rw [entryAt]; omega, by omega, address⟩

/-- Bytes outside all addresses stay. -/
theorem rewritten_outside (zero : Bool) (most : Nat) {j : Nat}
    (outside :
      ∀ i, i < tableCount endian bytes →
        ¬ (entryAt endian bytes i + 16 ≤ j ∧
          j < entryAt endian bytes i + 24)) :
    (rewritten host zero bytes most)[j]? = bytes[j]? := by
  rw [rewritten_getElem? accepted data]
  apply if_neg
  rintro ⟨after, written, address⟩
  have index :
      (j - tableStart endian bytes) / phdrSize < tableCount endian bytes :=
    Nat.div_lt_of_lt_mul (by omega)
  apply outside _ index
  rw [entryAt]
  rw [InVaddr] at address
  simp only [phdrSize] at address ⊢
  omega

/-- The physical addresses stay. -/
theorem rewritten_newByte (zero : Bool) (most : Nat) {i m : Nat}
    (inside : m < 8) :
    newByte zero (rewritten host zero bytes most)
        (entryAt endian bytes i + 16 + m) =
      newByte zero bytes (entryAt endian bytes i + 16 + m) := by
  rw [newByte, newByte]
  apply if_congr Iff.rfl rfl
  apply rewritten_outside accepted data
  intro other _ within
  rw [entryAt, entryAt] at within
  simp only [phdrSize] at within
  omega

section Disjoint

variable
  (disjoint :
    tableCount endian bytes = 0 ∨ ehdrSize ≤ tableStart endian bytes)

include disjoint

theorem rewritten_header (zero : Bool) (most : Nat) {j : Nat}
    (inHeader : j < ehdrSize) :
    (rewritten host zero bytes most)[j]? = bytes[j]? := by
  apply rewritten_outside accepted data
  intro i index within
  rw [entryAt] at within
  rcases disjoint with none | after
  · omega
  · omega

theorem rewritten_slice (zero : Bool) (most : Nat) :
    slice (rewritten host zero bytes most) 0 ehdrSize =
      slice bytes 0 ehdrSize :=
  slice_congr fun _ _ inHeader =>
    rewritten_header accepted data disjoint zero most (by omega)

theorem rewritten_data (zero : Bool) (most : Nat) :
    (rewritten host zero bytes most).getD 5 0 = elfData endian := by
  rw [← data, List.getD_eq_getElem?_getD, List.getD_eq_getElem?_getD,
    rewritten_header accepted data disjoint zero most (by decide)]

theorem rewritten_fileField (zero : Bool) (most : Nat) {pos width : Nat}
    (within : pos + width ≤ ehdrSize) :
    fileField endian (rewritten host zero bytes most) pos width =
      fileField endian bytes pos width :=
  congrArg endian.decode
    (slice_congr fun _ _ inHeader =>
      rewritten_header accepted data disjoint zero most (by omega))

/-- The new file is accepted on every machine. -/
theorem rewritten_accepted (zero : Bool) (most : Nat) (other : Endian) :
    Accepted other (rewritten host zero bytes most) := by
  have same := rewritten_slice accepted data disjoint zero most
  have length := rewritten_length accepted zero most
  have long := accepted.long
  have otherField {pos width : Nat} (within : pos + width ≤ 64) :
      field other (slice bytes 0 ehdrSize) pos width =
        field host (slice bytes 0 ehdrSize) pos width := by
    rw [field_eq other data long within, field_eq host data long within]
  have offset :
      phoff other (slice bytes 0 ehdrSize) =
        phoff host (slice bytes 0 ehdrSize) := otherField (by decide)
  have number :
      phnum other (slice bytes 0 ehdrSize) =
        phnum host (slice bytes 0 ehdrSize) := otherField (by decide)
  constructor
  case header_length =>
    rw [same]
    exact accepted.header_length
  case magic =>
    rw [same]
    exact accepted.magic
  case class64 =>
    rw [same]
    exact accepted.class64
  case entsize =>
    rw [same]
    exact (otherField (by decide)).trans accepted.entsize
  case phoff_lt =>
    rw [same, offset]
    exact accepted.phoff_lt
  case table_length =>
    have old := accepted.table_length
    rw [slice_length] at old ⊢
    rw [same, offset, number, length]
    exact old

end Disjoint

end After

/-! ## Only load segments -/

/-- The virtual addresses of load segments have moved, and nothing else has
changed. -/
structure MovesLoads (endian : Endian) (zero : Bool)
    (bytes result : List UInt8) : Prop where
  length_eq : result.length = bytes.length
  moved :
    ∀ i, i < tableCount endian bytes →
      typeAt endian bytes (entryAt endian bytes i) = ptLoad →
        VaddrMoved endian zero result (entryAt endian bytes i)
  others :
    ∀ j,
      (∀ i, i < tableCount endian bytes →
        typeAt endian bytes (entryAt endian bytes i) = ptLoad →
          ¬ (entryAt endian bytes i + 16 ≤ j ∧
            j < entryAt endian bytes i + 24)) →
        result[j]? = bytes[j]?

/-- The addresses of other segments already are what they would become, and so
are the bytes that never reach the file. -/
def OthersSettled (env : Env) (endian : Endian) (zero : Bool)
    (bytes : List UInt8) : Prop :=
  (∀ i, i < tableCount endian bytes →
    typeAt endian bytes (entryAt endian bytes i) ≠ ptLoad →
      VaddrMoved endian zero bytes (entryAt endian bytes i)) ∧
  ∀ i m, i < tableCount endian bytes → m < 8 →
    env.flushes.limit (phdrSize * tableCount endian bytes) ≤
        phdrSize * i + 16 + m →
      bytes[entryAt endian bytes i + 16 + m]? =
        newByte zero bytes (entryAt endian bytes i + 16 + m)

section Iff

variable {host endian : Endian} {zero : Bool} {bytes : List UInt8} {most : Nat}
  (accepted : Accepted host bytes) (data : bytes.getD 5 0 = elfData endian)

include accepted data

/-- The bytes of the addresses that were not written already are the new
ones. -/
def Reached (endian : Endian) (zero : Bool) (bytes : List UInt8)
    (most : Nat) : Prop :=
  ∀ i m, i < tableCount endian bytes → m < 8 → most ≤ phdrSize * i + 16 + m →
    bytes[entryAt endian bytes i + 16 + m]? =
      newByte zero bytes (entryAt endian bytes i + 16 + m)

/-- All addresses have moved if and only if the missing ones need not be
written. -/
theorem rewritten_moved_iff :
    (∀ i, i < tableCount endian bytes →
      VaddrMoved endian zero (rewritten host zero bytes most)
        (entryAt endian bytes i)) ↔
      Reached endian zero bytes most := by
  have within {i : Nat} (index : i < tableCount endian bytes) :
      entryAt endian bytes i + phdrSize ≤
        (rewritten host zero bytes most).length := by
    rw [rewritten_length accepted]
    exact entry_le accepted data index
  constructor
  · intro moved i m index inside unwritten
    have here :=
      (vaddrMoved_iff endian zero (within index)).mp (moved i index) m inside
    rw [rewritten_newByte accepted data zero most inside,
      rewritten_vaddr accepted data zero most index inside,
      if_neg (by omega)] at here
    exact here
  · intro reached i index
    rw [vaddrMoved_iff endian zero (within index)]
    intro m inside
    rw [rewritten_newByte accepted data zero most inside,
      rewritten_vaddr accepted data zero most index inside]
    by_cases written : phdrSize * i + 16 + m < most
    · rw [if_pos written]
    · rw [if_neg written]
      exact reached i m index inside (by omega)

/-- When all addresses have moved nothing is left to do. -/
theorem rewritten_of_moved
    (moved :
      ∀ i, i < tableCount endian bytes →
        VaddrMoved endian zero bytes (entryAt endian bytes i)) :
    rewritten host zero bytes most = bytes := by
  apply List.ext_getElem?
  intro j
  rw [rewritten_getElem? accepted data]
  split
  · next inside =>
      obtain ⟨after, written, address⟩ := inside
      have index :
          (j - tableStart endian bytes) / phdrSize <
            tableCount endian bytes :=
        Nat.div_lt_of_lt_mul (by omega)
      have here :=
        (vaddrMoved_iff endian zero (entry_le accepted data index)).mp
          (moved _ index) ((j - tableStart endian bytes) % phdrSize - 16)
      rw [InVaddr] at address
      have position :
          entryAt endian bytes
                ((j - tableStart endian bytes) / phdrSize) + 16 +
              ((j - tableStart endian bytes) % phdrSize - 16) = j := by
        rw [entryAt]
        simp only [phdrSize] at address ⊢
        omega
      rw [position] at here
      exact (here (by omega)).symm
  · rfl

/-- Only load segments change if the other ones need not. -/
theorem movesLoads_iff (reached : Reached endian zero bytes most) :
    MovesLoads endian zero bytes (rewritten host zero bytes most) ↔
      ∀ i, i < tableCount endian bytes →
        typeAt endian bytes (entryAt endian bytes i) ≠ ptLoad →
          VaddrMoved endian zero bytes (entryAt endian bytes i) := by
  have allMoved := (rewritten_moved_iff accepted data).mpr reached
  constructor
  · intro moves i index other
    have within := entry_le accepted data index
    rw [vaddrMoved_iff endian zero within]
    intro m inside
    have here :=
      (vaddrMoved_iff endian zero (by
        rw [rewritten_length accepted]
        exact within)).mp (allMoved i index) m inside
    have same :=
      moves.others (entryAt endian bytes i + 16 + m) (by
        intro load loadIndex isLoad overlaps
        apply other
        have sameEntry : load = i := by
          rw [entryAt, entryAt] at overlaps
          simp only [phdrSize] at overlaps
          omega
        rw [← sameEntry]
        exact isLoad)
    rw [rewritten_newByte accepted data zero most inside, same] at here
    exact here
  · intro settled
    refine ⟨rewritten_length accepted zero most,
      fun i index _ => allMoved i index, ?_⟩
    intro j outside
    rw [rewritten_getElem? accepted data]
    split
    · next inside =>
        obtain ⟨after, written, address⟩ := inside
        let i := (j - tableStart endian bytes) / phdrSize
        have index : i < tableCount endian bytes :=
          Nat.div_lt_of_lt_mul (by omega)
        rw [InVaddr] at address
        have position :
            entryAt endian bytes i + 16 +
                ((j - tableStart endian bytes) % phdrSize - 16) = j := by
          rw [entryAt]
          simp only [phdrSize, i] at address ⊢
          omega
        have other :
            typeAt endian bytes (entryAt endian bytes i) ≠ ptLoad := by
          intro isLoad
          exact outside i index isLoad (by omega)
        have here :=
          (vaddrMoved_iff endian zero (entry_le accepted data index)).mp
            (settled i index other)
            ((j - tableStart endian bytes) % phdrSize - 16) (by omega)
        rw [position] at here
        exact here.symm
    · rfl

end Iff

/-- The run does what the usage text says exactly if nothing has to be done for
the other segments. -/
theorem phys2virt_loads_iff
    {env : Env} {endian : Endian} {zero : Bool} {bytes : List UInt8}
    {status : Int} {last : ByteFile}
    (run : phys2virt env zero ⟨bytes, 0⟩ = .ok status last)
    (data : bytes.getD 5 0 = elfData endian)
    (disjoint :
      tableCount endian bytes = 0 ∨ ehdrSize ≤ tableStart endian bytes) :
    MovesLoads endian zero bytes last.bytes ∧
        (∀ again second final,
          phys2virt again zero ⟨last.bytes, 0⟩ = .ok second final →
            final.bytes = last.bytes) ↔
      OthersSettled env endian zero bytes := by
  obtain ⟨accepted, lastEq⟩ := phys2virt_eq_ok rfl run
  change Accepted env.host bytes at accepted
  rw [phnum_eq accepted data] at lastEq
  change last.bytes = rewritten env.host zero bytes _ at lastEq
  generalize mostEq :
    env.flushes.limit (phdrSize * tableCount endian bytes) = most at lastEq
  have acceptedAgain (other : Endian) : Accepted other last.bytes := by
    rw [lastEq]
    exact rewritten_accepted accepted data disjoint zero most other
  have dataAgain : last.bytes.getD 5 0 = elfData endian := by
    rw [lastEq]
    exact rewritten_data accepted data disjoint zero most
  have sameCount : tableCount endian last.bytes = tableCount endian bytes := by
    rw [lastEq]
    exact rewritten_fileField accepted data disjoint zero most (by decide)
  have sameEntry (i : Nat) :
      entryAt endian last.bytes i = entryAt endian bytes i := by
    rw [entryAt, entryAt, tableStart, lastEq,
      rewritten_fileField accepted data disjoint zero most (by decide)]
    rfl
  -- A second run changes nothing if and only if all addresses have moved.
  have idempotent :
      (∀ again second final,
        phys2virt again zero ⟨last.bytes, 0⟩ = .ok second final →
          final.bytes = last.bytes) ↔
        Reached endian zero bytes most := by
    rw [← rewritten_moved_iff accepted data, ← lastEq]
    constructor
    · intro unchanged i index
      obtain ⟨final, second⟩ :=
        phys2virt_of_accepted zero (acceptedAgain .little)
      have finalEq := (phys2virt_eq_ok rfl second).2
      have number :
          phnum (quietEnv .little).host (slice last.bytes 0 ehdrSize) =
            tableCount endian last.bytes :=
        phnum_eq (acceptedAgain .little) dataAgain
      change
        final.bytes =
          rewritten .little zero last.bytes
            (phdrSize * phnum _ (slice last.bytes 0 ehdrSize)) at finalEq
      rw [unchanged _ _ _ second, number] at finalEq
      have reached :
          Reached endian zero last.bytes
            (phdrSize * tableCount endian last.bytes) := by
        intro k m _ _ unwritten
        rw [phdrSize] at unwritten
        omega
      have moved :=
        (rewritten_moved_iff (acceptedAgain .little) dataAgain).mpr reached i
      rw [← finalEq, sameEntry, sameCount] at moved
      exact moved index
    · intro moved again second final rerun
      obtain ⟨_, finalEq⟩ := phys2virt_eq_ok rfl rerun
      rw [finalEq]
      apply rewritten_of_moved (acceptedAgain again.host) dataAgain
      intro i index
      rw [sameCount] at index
      rw [sameEntry]
      exact moved i index
  rw [idempotent, lastEq, OthersSettled, mostEq]
  constructor
  · rintro ⟨moves, reached⟩
    exact ⟨(movesLoads_iff accepted data reached).mp moves, reached⟩
  · rintro ⟨settled, reached⟩
    exact ⟨(movesLoads_iff accepted data reached).mpr settled, reached⟩

/-- A big-endian core file with a load segment, whose virtual address is 1 and
whose physical address is 2, and a segment of notes, where both are 7. -/
def mixedCore : List UInt8 :=
  [0x7f, 69, 76, 70, 2, 2, 1, 0, 0, 0, 0, 0, 0, 0, 0, 0,
    0, 4, 0, 62, 0, 0, 0, 1, 0, 0, 0, 0, 0, 0, 0, 0,
    0, 0, 0, 0, 0, 0, 0, 64, 0, 0, 0, 0, 0, 0, 0, 0,
    0, 0, 0, 0, 0, 64, 0, 56, 0, 2, 0, 0, 0, 0, 0, 0,
    0, 0, 0, 1, 0, 0, 0, 0, 0, 0, 0, 0, 0, 0, 0, 176,
    0, 0, 0, 0, 0, 0, 0, 1, 0, 0, 0, 0, 0, 0, 0, 2,
    0, 0, 0, 0, 0, 0, 0, 0, 0, 0, 0, 0, 0, 0, 0, 0,
    0, 0, 0, 0, 0, 0, 0, 0,
    0, 0, 0, 4, 0, 0, 0, 0, 0, 0, 0, 0, 0, 0, 0, 176,
    0, 0, 0, 0, 0, 0, 0, 7, 0, 0, 0, 0, 0, 0, 0, 7,
    0, 0, 0, 0, 0, 0, 0, 0, 0, 0, 0, 0, 0, 0, 0, 0,
    0, 0, 0, 0, 0, 0, 0, 0]

/-- A little-endian machine changes the address of the load segment only. -/
theorem phys2virt_loads_iff_mixedCore :
    ∃ status last,
      phys2virt (quietEnv .little) false ⟨mixedCore, 0⟩ = .ok status last ∧
        last.bytes = overwrite mixedCore 87 [2] ∧
        MovesLoads .big false mixedCore last.bytes := by
  obtain ⟨status, last, run, changed⟩ :
      ∃ status last,
        phys2virt (quietEnv .little) false ⟨mixedCore, 0⟩ = .ok status last ∧
          (last.bytes == overwrite mixedCore 87 [2]) = true :=
    exists_of_returnsWith (by decide +kernel)
  have settled : OthersSettled (quietEnv .little) .big false mixedCore := by
    have two : tableCount .big mixedCore = 2 := by decide +kernel
    rw [OthersSettled, two]
    constructor
    · intro i index other
      cases i with
      | zero => exact absurd (by decide +kernel) other
      | succ i =>
          have second : i = 0 := by omega
          subst second
          rw [VaddrMoved]
          decide +kernel
    · intro i m index inside unwritten
      change 56 * 2 ≤ 56 * i + 16 + m at unwritten
      omega
  exact ⟨status, last, run, eq_of_beq changed,
    ((phys2virt_loads_iff run rfl (Or.inr (by decide))).mpr settled).1⟩

/-- A core file with one segment of the type, whose virtual address is 1 and
whose physical address is 2. -/
def exampleCore (type : UInt8) : List UInt8 :=
  [0x7f, 69, 76, 70, 2, 1, 1, 0, 0, 0, 0, 0, 0, 0, 0, 0,
    4, 0, 62, 0, 1, 0, 0, 0, 0, 0, 0, 0, 0, 0, 0, 0,
    64, 0, 0, 0, 0, 0, 0, 0, 0, 0, 0, 0, 0, 0, 0, 0,
    0, 0, 0, 0, 64, 0, 56, 0, 1, 0, 0, 0, 0, 0, 0, 0,
    type, 0, 0, 0, 0, 0, 0, 0, 120, 0, 0, 0, 0, 0, 0, 0,
    1, 0, 0, 0, 0, 0, 0, 0, 2, 0, 0, 0, 0, 0, 0, 0,
    0, 0, 0, 0, 0, 0, 0, 0, 0, 0, 0, 0, 0, 0, 0, 0,
    0, 0, 0, 0, 0, 0, 0, 0]

/-- The run changes the first byte of the virtual address only. -/
def movedTo2 (type : UInt8) (bytes : List UInt8) : Bool :=
  bytes == overwrite (exampleCore type) 80 [2]

/-- A segment of notes is changed, too. -/
theorem phys2virt_changes_notes :
    ¬ ∀ (env : Env) (endian : Endian) (zero : Bool) (bytes : List UInt8)
        (status : Int) (last : ByteFile),
        phys2virt env zero ⟨bytes, 0⟩ = .ok status last →
          bytes.getD 5 0 = elfData endian →
            tableCount endian bytes = 0 ∨
                ehdrSize ≤ tableStart endian bytes →
              MovesLoads endian zero bytes last.bytes ∧
                ∀ again second final,
                  phys2virt again zero ⟨last.bytes, 0⟩ = .ok second final →
                    final.bytes = last.bytes := by
  intro claim
  obtain ⟨status, last, run, bytesEq⟩ :
      ∃ status last,
        phys2virt (quietEnv .little) false ⟨exampleCore 4, 0⟩ =
            .ok status last ∧
          movedTo2 4 last.bytes = true :=
    exists_of_returnsWith (by decide +kernel)
  have single : tableCount .little (exampleCore 4) = 1 := by decide +kernel
  have moves := (claim _ .little _ _ _ _ run rfl (Or.inr (by decide))).1
  have same := moves.others 80 (by
    intro i index isLoad
    rw [single] at index
    have first : i = 0 := by omega
    subst first
    revert isLoad
    decide +kernel)
  rw [movedTo2, beq_iff_eq] at bytesEq
  rw [bytesEq] at same
  revert same
  decide +kernel

end KernelStuff.Phys2virt
