import KernelStuff.Dumpphys.Pages

/-!
# When a successful dump is the whole memory

The writes put what they take one after the other over the old content of the
output.  The result is the memory for every memory there can be exactly when
each write takes its page, the old content does not reach beyond the dump, and
the shift gives the address of each page.
-/

namespace KernelStuff.Dumpphys

open KernelStuff.Library

/-! ## What is expected -/

/-- The pages one after the other. -/
def dump (memory : Nat → UInt8) (pageSize : Nat) (pages : List Nat) :
    List UInt8 :=
  pages.flatMap fun pfn => contents memory (pfn * pageSize) pageSize

/-- The same machine and core file with other bytes in the memory. -/
def Env.withMemory (env : Env) (memory : Nat → UInt8) : Env :=
  { env with memory }

theorem dump_length (memory : Nat → UInt8) (pageSize : Nat)
    (pages : List Nat) :
    (dump memory pageSize pages).length = pages.length * pageSize := by
  induction pages with
  | nil => simp [dump]
  | cons pfn rest inductionHypothesis =>
      rw [dump] at inductionHypothesis
      rw [dump, List.flatMap_cons, List.length_append, inductionHypothesis,
        contents_length, List.length_cons, Nat.succ_mul, Nat.add_comm]

/-! ## What is written -/

/-- The file when `data` has been written from the start on. -/
def covered (old data : List UInt8) : List UInt8 :=
  data ++ old.drop data.length

/-- What the writes take, from the call with the number `call` on. -/
def transferred (env : Env) (mi : MemoryInfo) : List Nat → Nat → List UInt8
  | [], _ => []
  | pfn :: rest, call =>
      (contents env.memory (mi.address pfn) mi.pageSize).take
          (env.taken call mi.pageSize) ++
        transferred env mi rest (call + 1)

theorem dumpPage_run (env : Env) (buf : List UInt8) (process : Process) :
    dumpPage env buf process =
      .ok
        (if env.outcome process.written.length buf.length = .failure then -1
          else 0)
        (process.afterWrite env buf buf.length) := by
  obtain ⟨rv, run, failed⟩ := write_run env buf buf.length process
  rw [dumpPage, bind_of_ok run, if_congr failed.symm rfl rfl]
  rfl

/-! ## The run -/

section Run

variable (env : Env) {mi : MemoryInfo} {options : Options}
  {pagemap : List Bool}

theorem Readable.withMemory
    {env : Env} (correct : Correct env.kdump pagemap) {pages : List Nat}
    (memory : Nat → UInt8) :
    Readable (env.withMemory memory) mi pages ↔ Readable env mi pages := by
  constructor
  · intro readable pfn member
    rw [correct.read_isSome memory env.memory]
    exact readable pfn member
  · intro readable pfn member
    have here := readable pfn member
    rw [correct.read_isSome memory env.memory] at here
    exact here

/-- No write fails from the call with the number `call` on. -/
def Writes (env : Env) (size : Nat) (call count : Nat) : Prop :=
  ∀ k, call ≤ k → k < call + count → env.outcome k size ≠ .failure

/-- A page that can be read and written, and the pages after it. -/
theorem readPages_cons_dump
    {env : Env} (correct : Correct env.kdump pagemap) (dumping : options.op = .dumpPage)
    {pfn : Nat} {rest : List Nat} {process : Process}
    (readable :
      (env.kdump.read env.memory (mi.address pfn) mi.pageSize).isSome) :
    readPages env mi options (pfn :: rest) process =
      if env.outcome process.written.length mi.pageSize = .failure then
        .ok (-1)
          (process.afterWrite env
            (contents env.memory (mi.address pfn) mi.pageSize) mi.pageSize)
      else
        readPages env mi options rest
          (process.afterWrite env
            (contents env.memory (mi.address pfn) mi.pageSize)
            mi.pageSize) := by
  obtain ⟨buf, read⟩ := Option.isSome_iff_exists.mp readable
  have content := correct.read _ _ _ _ read
  have size : buf.length = mi.pageSize := by rw [content, contents_length]
  have first := dumpPage_run env buf process
  rw [size, content] at first
  rw [readPages, read]
  dsimp only
  rw [runOp, dumping, content]
  dsimp only
  rw [bind_of_ok first]
  split
  · rfl
  · rfl

/-- The writes go one after the other over the old content. -/
theorem readPages_dump
    (correct : Correct env.kdump pagemap) (dumping : options.op = .dumpPage)
    {old : List UInt8} :
    ∀ {pages : List Nat} {process : Process} {data : List UInt8},
      process.output = ⟨covered old data, data.length⟩ →
        Readable env mi pages →
          Writes env mi.pageSize process.written.length pages.length →
            ∃ last,
              readPages env mi options pages process = .ok 0 last ∧
                last.output.bytes =
                  covered old
                    (data ++
                      transferred env mi pages process.written.length)
  | [], process, data, start, _, _ => by
      refine ⟨process, rfl, ?_⟩
      rw [start, transferred, List.append_nil]
  | pfn :: rest, process, data, start, readable, writes => by
      obtain ⟨readsFirst, readsRest⟩ := List.forall_mem_cons.mp readable
      have writesFirst :=
        writes process.written.length (Nat.le_refl _)
          (Nat.lt_add_of_pos_right (Nat.succ_pos _))
      rw [readPages_cons_dump correct dumping readsFirst, if_neg writesFirst]
      generalize next :
        process.afterWrite env
          (contents env.memory (mi.address pfn) mi.pageSize) mi.pageSize =
            middle
      have calls : middle.written.length = process.written.length + 1 := by
        rw [← next, Process.afterWrite, List.length_append]
        rfl
      have output : middle.output =
          ⟨covered old
              (data ++
                (contents env.memory (mi.address pfn) mi.pageSize).take
                  (env.taken process.written.length mi.pageSize)),
            (data ++
              (contents env.memory (mi.address pfn) mi.pageSize).take
                (env.taken process.written.length mi.pageSize)).length⟩ := by
        rw [← next, Process.afterWrite, start]
        dsimp only
        rw [covered, overwrite_front, List.length_append, covered,
          List.length_append]
      have writesRest :
          Writes env mi.pageSize middle.written.length rest.length := by
        intro k from_call below
        rw [calls] at from_call below
        refine writes k (by omega) ?_
        rw [List.length_cons]
        omega
      obtain ⟨last, run, result⟩ :=
        readPages_dump correct dumping output readsRest writesRest
      refine ⟨last, run, ?_⟩
      rw [result, calls, transferred, List.append_assoc]

/-- A run that returns zero has read and written every page. -/
theorem readPages_dump_succeeded
    (correct : Correct env.kdump pagemap) (dumping : options.op = .dumpPage)
    (stops : options.persist = false) :
    ∀ {pages : List Nat} {process last : Process},
      readPages env mi options pages process = .ok 0 last →
        Readable env mi pages ∧
          Writes env mi.pageSize process.written.length pages.length
  | [], process, last, _ => by
      refine ⟨nofun, ?_⟩
      intro k from_call below
      rw [List.length_nil] at below
      omega
  | pfn :: rest, process, last, run => by
      cases read : env.kdump.read env.memory (mi.address pfn) mi.pageSize with
      | none =>
          rw [readPages, read, stops] at run
          cases run
      | some buf =>
          have readable :
              (env.kdump.read env.memory (mi.address pfn)
                mi.pageSize).isSome := by
            rw [read]
            rfl
          rw [readPages_cons_dump correct dumping readable] at run
          split at run
          · cases run
          · next succeeded =>
              obtain ⟨readsRest, writesRest⟩ :=
                readPages_dump_succeeded correct dumping stops run
              have calls :
                  (process.afterWrite env
                    (contents env.memory (mi.address pfn) mi.pageSize)
                    mi.pageSize).written.length =
                      process.written.length + 1 := by
                rw [Process.afterWrite, List.length_append]
                rfl
              rw [calls] at writesRest
              refine ⟨List.forall_mem_cons.mpr ⟨readable, readsRest⟩, ?_⟩
              intro k from_call below
              rw [List.length_cons] at below
              by_cases first : k = process.written.length
              · rw [first]
                exact succeeded
              · exact writesRest k (by omega) (by omega)

end Run

/-! ## What the writes take -/

section Transfers

variable {env : Env} {mi : MemoryInfo}

/-- How many bytes the writes take. -/
def total (env : Env) (size : Nat) : Nat → Nat → Nat
  | 0, _ => 0
  | count + 1, call => env.taken call size + total env size count (call + 1)

theorem transferred_length (env : Env) (mi : MemoryInfo) :
    ∀ (pages : List Nat) (call : Nat),
      (transferred env mi pages call).length =
        total env mi.pageSize pages.length call
  | [], _ => rfl
  | pfn :: rest, call => by
      rw [transferred, List.length_append, transferred_length env mi rest,
        List.length_take, contents_length,
        Nat.min_eq_left (env.taken_le call mi.pageSize)]
      rfl

theorem total_withMemory (env : Env) (memory : Nat → UInt8) (size : Nat) :
    ∀ count call,
      total (env.withMemory memory) size count call = total env size count call
  | 0, _ => rfl
  | count + 1, call => by
      rw [total, total_withMemory env memory size count]
      rfl

/-- The writes take everything exactly when each of them takes its page. -/
theorem total_le_and_eq_iff (env : Env) (size : Nat) :
    ∀ count call,
      total env size count call ≤ count * size ∧
        (total env size count call = count * size ↔
          ∀ k, call ≤ k → k < call + count → env.taken k size = size)
  | 0, call => by
      refine ⟨Nat.zero_le _, ?_⟩
      rw [total, Nat.zero_mul]
      exact ⟨fun _ k from_call below => by omega, fun _ => rfl⟩
  | count + 1, call => by
      obtain ⟨most, all⟩ := total_le_and_eq_iff env size count (call + 1)
      have here := env.taken_le call size
      rw [total, Nat.succ_mul]
      refine ⟨by omega, ?_⟩
      constructor
      · intro same k from_call below
        by_cases first : k = call
        · rw [first]
          omega
        · exact all.mp (by omega) k (by omega) (by omega)
      · intro each
        have first := each call (Nat.le_refl _) (by omega)
        have rest := all.mpr fun k from_call below =>
          each k (by omega) (by omega)
        omega

theorem transferred_of_complete :
    ∀ {pages : List Nat} {call : Nat},
      (∀ k, call ≤ k → k < call + pages.length →
        env.taken k mi.pageSize = mi.pageSize) →
        transferred env mi pages call =
          pages.flatMap fun pfn =>
            contents env.memory (mi.address pfn) mi.pageSize
  | [], _, _ => rfl
  | pfn :: rest, call, complete => by
      have first := complete call (Nat.le_refl _)
        (Nat.lt_add_of_pos_right (Nat.succ_pos _))
      rw [transferred, List.flatMap_cons, first, List.take_of_length_le
        (Nat.le_of_eq (contents_length _ _ _)), transferred_of_complete]
      intro k from_call below
      refine complete k (by omega) ?_
      rw [List.length_cons]
      omega

end Transfers

/-! ## Pages in the wrong place -/

/-- Two concatenations of parts of one size have the same parts. -/
theorem eq_of_flatMap_eq
    {left right : Nat → List UInt8} :
    ∀ {pages : List Nat}, (∀ pfn, (left pfn).length = (right pfn).length) →
      pages.flatMap left = pages.flatMap right →
        ∀ pfn ∈ pages, left pfn = right pfn
  | [], _, _ => nofun
  | first :: rest, sameLength, same => by
      rw [List.flatMap_cons, List.flatMap_cons] at same
      obtain ⟨here, others⟩ := List.append_inj same (sameLength first)
      exact List.forall_mem_cons.mpr
        ⟨here, eq_of_flatMap_eq sameLength others⟩

/-- Different addresses have different contents in some memory. -/
theorem address_eq_of_contents_eq
    {addr other size : Nat} (positive : 0 < size)
    (same : ∀ memory, contents memory addr size = contents memory other size) :
    addr = other := by
  have first := congrArg (·[0]?) (same fun i => if i = other then 1 else 0)
  have member : (0 : Nat) < (List.range size).length := by
    rw [List.length_range]
    exact positive
  simp only [contents, List.getElem?_map, List.getElem?_range positive,
    Option.map_some, Nat.add_zero, if_pos, Option.some.injEq] at first
  by_contra different
  rw [if_neg different] at first
  exact absurd first (by decide)

/-- A memory with the same byte everywhere. -/
theorem dump_constant (byte : UInt8) (pageSize : Nat) (pages : List Nat) :
    dump (fun _ => byte) pageSize pages =
      List.replicate (pages.length * pageSize) byte := by
  rw [List.eq_replicate_iff]
  refine ⟨dump_length _ _ _, ?_⟩
  intro found member
  obtain ⟨pfn, -, inPage⟩ := List.mem_flatMap.mp member
  obtain ⟨i, -, same⟩ := List.mem_map.mp inPage
  exact same.symm

/-- What comes after the written bytes does not depend on the memory. -/
theorem dump_length_le_of_covered
    {old : List UInt8} {pageSize length : Nat} {pages : List Nat}
    {data : (Nat → UInt8) → List UInt8}
    (sameLength : ∀ memory, (data memory).length = length)
    (whole : ∀ memory, covered old (data memory) = dump memory pageSize pages) :
    pages.length * pageSize ≤ length ∧
      old.length ≤ pages.length * pageSize := by
  have lengths := congrArg List.length (whole fun _ => 0)
  rw [dump_length, covered, List.length_append, List.length_drop,
    sameLength] at lengths
  refine ⟨?_, by omega⟩
  by_contra short
  have byteThere : ∀ byte : UInt8, old[length]? = some byte := by
    intro byte
    have there := congrArg (·[length]?) (whole fun _ => byte)
    rw [dump_constant, List.getElem?_replicate, if_pos (by omega), covered,
      List.getElem?_append_right (Nat.le_of_eq (sameLength _)), sameLength,
      List.getElem?_drop, Nat.sub_self, Nat.add_zero] at there
    exact there
  have zeroIsOne := (byteThere 0).symm.trans (byteThere 1)
  exact absurd (Option.some.inj zeroIsOne) (by decide)

section Complete

variable {env : Env} {mi : MemoryInfo} {old : List UInt8} {pages : List Nat}

theorem complete_of_whole (info : env.kdump.info = some mi)
    (same : ∀ memory,
      covered old (transferred (env.withMemory memory) mi pages 0) =
        dump memory mi.pageSize pages) :
    (∀ k, k < pages.length → env.taken k mi.pageSize = mi.pageSize) ∧
      old.length ≤ pages.length * mi.pageSize ∧
      ∀ pfn ∈ pages, mi.address pfn = pfn * mi.pageSize := by
  have lengths : ∀ memory,
      (transferred (env.withMemory memory) mi pages 0).length =
        total env mi.pageSize pages.length 0 := by
    intro memory
    rw [transferred_length]
    exact total_withMemory env memory mi.pageSize pages.length 0
  obtain ⟨long, within⟩ :=
    dump_length_le_of_covered lengths same
  obtain ⟨most, all⟩ :=
    total_le_and_eq_iff env mi.pageSize pages.length 0
  have complete := all.mp (Nat.le_antisymm most long)
  refine ⟨fun k below => complete k (Nat.zero_le k) (by omega), within, ?_⟩
  intro pfn member
  apply address_eq_of_contents_eq (pageSize_pos info)
  intro memory
  have taken :
      transferred (env.withMemory memory) mi pages 0 =
        pages.flatMap fun pfn =>
          contents memory (mi.address pfn) mi.pageSize :=
    transferred_of_complete complete
  have whole := same memory
  rw [covered, lengths, List.drop_eq_nil_of_le (within.trans long),
    List.append_nil, taken] at whole
  refine eq_of_flatMap_eq ?_ whole pfn member
  intro pfn
  rw [contents_length, contents_length]

theorem covered_of_complete
    (complete : ∀ k, k < pages.length → env.taken k mi.pageSize = mi.pageSize)
    (within : old.length ≤ pages.length * mi.pageSize)
    (places : ∀ pfn ∈ pages, mi.address pfn = pfn * mi.pageSize) :
    covered old (transferred env mi pages 0) =
      dump env.memory mi.pageSize pages := by
  have inPlace : transferred env mi pages 0 =
      dump env.memory mi.pageSize pages := by
    rw [transferred_of_complete fun k _ below => complete k (by omega), dump]
    apply List.flatMap_congr
    intro pfn member
    rw [places pfn member]
  rw [inPlace, covered, List.drop_eq_nil_of_le, List.append_nil]
  rw [dump_length]
  exact within

end Complete

/-! ## The theorem -/

/-- A dump that succeeds is the whole memory, whatever is in the memory, if and
only if it cannot succeed or nothing goes wrong unnoticed: each write takes its
page, the old content of the output ends with the dump or before, and the shift
by `page_shift` is the product with `page_size`. -/
theorem dump_is_whole_iff
    {env : Env} {options : Options} {pagemap : List Bool} {mi : MemoryInfo}
    {fuel : Nat} (correct : Correct env.kdump pagemap)
    (info : env.kdump.info = some mi) (dumping : options.op = .dumpPage)
    (stops : options.persist = false) (enough : pagemap.length < fuel)
    (old : List UInt8) :
    (∀ memory verdict last,
      main (env.withMemory memory) options fuel (Process.start old) =
          .ok verdict last →
        verdict.success = true →
          last.output.bytes =
            dump memory mi.pageSize (presentFrom pagemap 0)) ↔
      ¬ Readable env mi (presentFrom pagemap 0) ∨
        ¬ Writes env mi.pageSize 0 (presentFrom pagemap 0).length ∨
        ((∀ k, k < (presentFrom pagemap 0).length →
            env.taken k mi.pageSize = mi.pageSize) ∧
          old.length ≤ (presentFrom pagemap 0).length * mi.pageSize ∧
          ∀ pfn ∈ presentFrom pagemap 0,
            mi.address pfn = pfn * mi.pageSize) := by
  have runs : ∀ memory,
      Readable env mi (presentFrom pagemap 0) →
        Writes env mi.pageSize 0 (presentFrom pagemap 0).length →
          ∃ last,
            readPages (env.withMemory memory) mi options
                (presentFrom pagemap 0) (Process.start old) = .ok 0 last ∧
              last.output.bytes =
                covered old
                  (transferred (env.withMemory memory) mi
                    (presentFrom pagemap 0) 0) := by
    intro memory readable writes
    have start : (Process.start old).output =
        ⟨covered old [], ([] : List UInt8).length⟩ := rfl
    exact readPages_dump (env.withMemory memory) correct dumping start
      ((Readable.withMemory correct memory).mpr readable) writes
  constructor
  · intro whole
    by_cases readable : Readable env mi (presentFrom pagemap 0)
    · by_cases writes :
          Writes env mi.pageSize 0 (presentFrom pagemap 0).length
      · refine Or.inr (Or.inr ?_)
        have same : ∀ memory,
            covered old
                (transferred (env.withMemory memory) mi
                  (presentFrom pagemap 0) 0) =
              dump memory mi.pageSize (presentFrom pagemap 0) := by
          intro memory
          obtain ⟨last, run, output⟩ := runs memory readable writes
          rw [← output]
          exact whole memory _ last
            (main_of_readPages (env.withMemory memory) correct info enough run) rfl
        exact complete_of_whole info same
      · exact Or.inr (Or.inl writes)
    · exact Or.inl readable
  · intro condition memory verdict last run succeeded
    obtain ⟨rv, pagesRun, rfl⟩ := readPages_of_main (env.withMemory memory) correct info enough run
    have returnsZero : rv = 0 := of_decide_eq_true succeeded
    rw [returnsZero] at pagesRun
    obtain ⟨readable, writes⟩ :=
      readPages_dump_succeeded (env.withMemory memory) correct dumping
        stops pagesRun
    rw [Readable.withMemory correct] at readable
    rcases condition with unreadable | failing | ⟨complete, within, places⟩
    · exact absurd readable unreadable
    · exact absurd writes failing
    · obtain ⟨_, again, output⟩ := runs memory readable writes
      cases pagesRun.symm.trans again
      rw [output]
      exact covered_of_complete complete within places

/-- Two page frames of four bytes, with one missing between them. -/
def exampleDump (writes : Nat → CallOutcome) : Env where
  kdump := .ofBitmap [true, false, true] 4 2 16
  memory addr := UInt8.ofNat addr
  writes
  behind _ := []

/-- `dumpphys -c VMCORE -o OUTPUT`. -/
def plainOptions : Options where
  op := .dumpPage
  shouldContinue := false
  searchWithinPage := false
  persist := false

/-- Two old bytes are covered by the two pages, whatever is in the memory. -/
theorem dump_is_whole_iff_exampleDump :
    presentFrom [true, false, true] 0 = [0, 2] ∧
      ∀ memory verdict last,
        main ((exampleDump fun _ => .complete).withMemory memory) plainOptions 4
            (Process.start [7, 7]) = .ok verdict last →
          verdict.success = true →
            last.output.bytes = dump memory 4 (presentFrom [true, false, true] 0) := by
  have info : (exampleDump fun _ => .complete).kdump.info = some ⟨4, 2⟩ := rfl
  have dumping : plainOptions.op = .dumpPage := rfl
  have stops : plainOptions.persist = false := rfl
  have enough : [true, false, true].length < 4 := by decide
  have pages : presentFrom [true, false, true] 0 = [0, 2] := by decide
  refine ⟨pages, ?_⟩
  refine
    (dump_is_whole_iff (Kdump.ofBitmap_correct _ _ _ _) info dumping stops
      enough _).mpr ?_
  rw [pages]
  exact Or.inr (Or.inr ⟨fun k _ => rfl, by decide, by decide⟩)

/-- The run succeeds and leaves this output. -/
def leaves (output : List UInt8) (verdict : Verdict) (last : Process) : Bool :=
  verdict.success && last.output.bytes == output

theorem leaves_not_dump
    {env : Env} {options : Options} {fuel : Nat} {old output : List UInt8}
    (runs :
      returnsWith (leaves output)
        (main env options fuel (Process.start old)) = true)
    {expected : List UInt8} (differs : output ≠ expected) :
    ∃ verdict last,
      main env options fuel (Process.start old) = .ok verdict last ∧
        verdict.success = true ∧ last.output.bytes ≠ expected := by
  obtain ⟨verdict, last, run, holds⟩ := exists_of_returnsWith runs
  obtain ⟨succeeded, bytes⟩ := Bool.and_eq_true_iff.mp holds
  rw [beq_iff_eq] at bytes
  exact ⟨verdict, last, run, succeeded, bytes ▸ differs⟩

/-- The old content shows behind the dump, and after a short write the next page
is in the place of the missing bytes. -/
theorem dump_is_not_whole :
    Correct (exampleDump fun _ => .complete).kdump [true, false, true] ∧
      (∃ verdict last,
        main (exampleDump fun _ => .complete) plainOptions 4
            (Process.start [7, 7, 7, 7, 7, 7, 7, 7, 7, 7]) =
          .ok verdict last ∧
          verdict.success = true ∧
          last.output.bytes ≠
            dump (exampleDump fun _ => .complete).memory 4
              (presentFrom [true, false, true] 0)) ∧
      ∃ verdict last,
        main (exampleDump fun _ => .short 3) plainOptions 4
            (Process.start []) = .ok verdict last ∧
          verdict.success = true ∧
          last.output.bytes ≠
            dump (exampleDump fun _ => .short 3).memory 4
              (presentFrom [true, false, true] 0) := by
  refine ⟨Kdump.ofBitmap_correct _ _ _ _, ?_, ?_⟩
  · have runs :
        returnsWith (leaves [0, 1, 2, 3, 8, 9, 10, 11, 7, 7])
          (main (exampleDump fun _ => .complete) plainOptions 4
            (Process.start [7, 7, 7, 7, 7, 7, 7, 7, 7, 7])) = true := by
      decide +kernel
    exact leaves_not_dump runs (by decide +kernel)
  · have runs :
        returnsWith (leaves [0, 1, 2, 8, 9, 10])
          (main (exampleDump fun _ => .short 3) plainOptions 4
            (Process.start [])) = true := by
      decide +kernel
    exact leaves_not_dump runs (by decide +kernel)

end KernelStuff.Dumpphys
