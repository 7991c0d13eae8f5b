import KernelStuff.Dumpphys.Program
import Mathlib.Data.Nat.Find

/-!
# The pages that dumpphys visits

When libkdumpfile finds what the bitmap says, the two nested loops are one loop
over the page frames in the bitmap, in ascending order.
-/

namespace KernelStuff.Dumpphys

open KernelStuff.Library

/-! ## What libkdumpfile does -/

/-- The page frame is in the core file. -/
def Present (pagemap : List Bool) (pfn : Nat) : Prop :=
  pagemap[pfn]? = some true

instance (pagemap : List Bool) (pfn : Nat) : Decidable (Present pagemap pfn) :=
  inferInstanceAs (Decidable (_ = _))

/-- Part of the memory. -/
def contents (memory : Nat → UInt8) (addr len : Nat) : List UInt8 :=
  (List.range len).map fun i => memory (addr + i)

@[simp]
theorem contents_length (memory : Nat → UInt8) (addr len : Nat) :
    (contents memory addr len).length = len := by
  rw [contents, List.length_map, List.length_range]

/-- The searches find the first bit, the reads that succeed get the memory, and
a string goes up to the first NUL.  Whether a page can be read does not depend
on what is in the memory. -/
structure Correct (kdump : Kdump) (pagemap : List Bool) : Prop where
  findSet : ∀ addr pfn, addr ≤ pfn → Present pagemap pfn →
    (∀ i, addr ≤ i → i < pfn → ¬ Present pagemap i) →
      kdump.findSet addr = .found pfn
  findSet_noData : ∀ addr,
    (∀ pfn, addr ≤ pfn → ¬ Present pagemap pfn) →
      kdump.findSet addr = .noData
  findClear : ∀ addr pfn, addr ≤ pfn → ¬ Present pagemap pfn →
    (∀ i, addr ≤ i → i < pfn → Present pagemap i) →
      kdump.findClear addr = .found pfn
  read : ∀ memory addr len bytes,
    kdump.read memory addr len = some bytes → bytes = contents memory addr len
  read_isSome : ∀ memory other addr len,
    (kdump.read other addr len).isSome = (kdump.read memory addr len).isSome
  readString : ∀ memory addr text,
    kdump.readString memory addr = some text →
      contents memory addr text.length = text ∧ 0 ∉ text ∧
        memory (addr + text.length) = 0

/-! ## Writing -/

theorem Env.taken_le (env : Env) (call count : Nat) :
    env.taken call count ≤ count :=
  (CallOutcome.limit_le _ _).trans (Nat.min_le_left _ _)

/-- The state after a call of `write`. -/
def Process.afterWrite (process : Process) (env : Env) (data : List UInt8)
    (count : Nat) : Process :=
  let bytes := data.take (env.taken process.written.length count)
  { process with
    output :=
      ⟨overwrite process.output.bytes process.output.pos bytes,
        process.output.pos + bytes.length⟩
    written := process.written ++ [(data, bytes.length)] }

theorem write_run (env : Env) (data : List UInt8) (count : Nat)
    (process : Process) :
    ∃ rv,
      write env data count process =
        .ok rv (process.afterWrite env data count) ∧
      (rv < 0 ↔ env.outcome process.written.length count = .failure) := by
  refine ⟨_, rfl, ?_⟩
  split
  · next failed => exact ⟨fun _ => failed, fun _ => by decide⟩
  · next succeeded =>
      constructor
      · intro negative
        omega
      · exact fun failed => absurd failed succeeded

/-! ## The page frames -/

/-- The page frames from `addr` on, in ascending order. -/
def presentFrom (pagemap : List Bool) (addr : Nat) : List Nat :=
  (List.range' addr (pagemap.length - addr)).filter (Present pagemap ·)

theorem Present.lt_length {pagemap : List Bool} {pfn : Nat}
    (present : Present pagemap pfn) : pfn < pagemap.length :=
  (List.getElem?_eq_some_iff.mp present).1

theorem mem_presentFrom {pagemap : List Bool} {addr pfn : Nat} :
    pfn ∈ presentFrom pagemap addr ↔ addr ≤ pfn ∧ Present pagemap pfn := by
  rw [presentFrom, List.mem_filter, List.mem_range'_1, decide_eq_true_iff]
  constructor
  · rintro ⟨⟨above, -⟩, present⟩
    exact ⟨above, present⟩
  · rintro ⟨above, present⟩
    have within := present.lt_length
    exact ⟨⟨above, by omega⟩, present⟩

theorem presentFrom_eq_append
    {pagemap : List Bool} {addr next : Nat} (above : addr ≤ next)
    (within : next ≤ pagemap.length) :
    presentFrom pagemap addr =
      (List.range' addr (next - addr)).filter (Present pagemap ·) ++
        presentFrom pagemap next := by
  have parts : pagemap.length - addr =
      (next - addr) + (pagemap.length - next) := by
    omega
  have start : addr + (next - addr) = next := by omega
  rw [presentFrom, parts, ← List.range'_append_1, start, List.filter_append,
    ← presentFrom]

theorem presentFrom_of_absent
    {pagemap : List Bool} {addr next : Nat} (above : addr ≤ next)
    (within : next ≤ pagemap.length)
    (absent : ∀ i, addr ≤ i → i < next → ¬ Present pagemap i) :
    presentFrom pagemap addr = presentFrom pagemap next := by
  have nothing :
      (List.range' addr (next - addr)).filter (Present pagemap ·) = [] := by
    rw [List.filter_eq_nil_iff]
    intro i member
    rw [List.mem_range'_1] at member
    rw [decide_eq_true_iff]
    exact absent i member.1 (by omega)
  rw [presentFrom_eq_append above within, nothing, List.nil_append]

theorem presentFrom_of_present
    {pagemap : List Bool} {addr next : Nat} (above : addr ≤ next)
    (within : next ≤ pagemap.length)
    (present : ∀ i, addr ≤ i → i < next → Present pagemap i) :
    presentFrom pagemap addr =
      List.range' addr (next - addr) ++ presentFrom pagemap next := by
  have everything :
      (List.range' addr (next - addr)).filter (Present pagemap ·) =
        List.range' addr (next - addr) := by
    rw [List.filter_eq_self]
    intro i member
    rw [List.mem_range'_1] at member
    rw [decide_eq_true_iff]
    exact present i member.1 (by omega)
  rw [presentFrom_eq_append above within, everything]

theorem presentFrom_eq_nil_iff {pagemap : List Bool} {addr : Nat} :
    presentFrom pagemap addr = [] ↔
      ∀ pfn, addr ≤ pfn → ¬ Present pagemap pfn := by
  rw [List.eq_nil_iff_forall_not_mem]
  constructor
  · exact fun none pfn above present =>
      none pfn (mem_presentFrom.mpr ⟨above, present⟩)
  · intro none pfn member
    obtain ⟨above, present⟩ := mem_presentFrom.mp member
    exact none pfn above present

/-! ## One run of page frames -/

section Search

variable {kdump : Kdump} {pagemap : List Bool}

/-- The two searches find the first run of page frames, which is not empty. -/
theorem Correct.findRun
    (correct : Correct kdump pagemap) {addr : Nat}
    (some : presentFrom pagemap addr ≠ []) :
    ∃ first last,
      kdump.findSet addr = .found first ∧
        kdump.findClear first = .found last ∧
        addr < last ∧ last ≤ pagemap.length ∧
        presentFrom pagemap addr =
          List.range' first (last - first) ++ presentFrom pagemap last := by
  have there : ∃ pfn, addr ≤ pfn ∧ Present pagemap pfn := by
    obtain ⟨pfn, member⟩ := List.exists_mem_of_ne_nil _ some
    exact ⟨pfn, mem_presentFrom.mp member⟩
  obtain ⟨above, present⟩ := Nat.find_spec there
  have absent : ∀ i, addr ≤ i → i < Nat.find there → ¬ Present pagemap i :=
    fun i from_addr before present =>
      Nat.find_min there before ⟨from_addr, present⟩
  generalize Nat.find there = first at above present absent
  have ends : ∃ pfn, first ≤ pfn ∧ ¬ Present pagemap pfn :=
    ⟨pagemap.length, Nat.le_of_lt present.lt_length,
      fun beyond => Nat.lt_irrefl _ beyond.lt_length⟩
  obtain ⟨aboveFirst, clear⟩ := Nat.find_spec ends
  have run : ∀ i, first ≤ i → i < Nat.find ends → Present pagemap i := by
    intro i from_first before
    by_contra absent
    exact Nat.find_min ends before ⟨from_first, absent⟩
  generalize Nat.find ends = last at aboveFirst clear run
  have different : first ≠ last := fun same => clear (same ▸ present)
  have within : last ≤ pagemap.length := by
    have lastPresent := (run (last - 1) (by omega) (by omega)).lt_length
    omega
  refine ⟨first, last, correct.findSet addr first above present absent,
    correct.findClear first last aboveFirst clear run, by omega, within, ?_⟩
  rw [presentFrom_of_absent above (Nat.le_of_lt present.lt_length) absent,
    presentFrom_of_present aboveFirst within run]

end Search

/-! ## All of them -/

/-- Every page can be read. -/
def Readable (env : Env) (mi : MemoryInfo) (pages : List Nat) : Prop :=
  ∀ pfn ∈ pages,
    (env.kdump.read env.memory (mi.address pfn) mi.pageSize).isSome

section Loops

variable (env : Env) (mi : MemoryInfo) (options : Options)

/-- Reading two parts one after the other. -/
theorem readPages_append (later : List Nat) :
    ∀ pages : List Nat,
      readPages env mi options (pages ++ later) =
        (do
          let rv ← readPages env mi options pages
          if rv < 0 then return rv
          readPages env mi options later)
  | [] => by
      rw [List.nil_append, readPages, pure_bind]
      rfl
  | offset :: rest => by
      rw [List.cons_append, readPages, readPages, readPages_append later rest]
      cases env.kdump.read env.memory (mi.address offset) mi.pageSize with
      | none =>
          cases options.persist
          · rfl
          · rfl
      | some buf =>
          simp only [bind_assoc]
          congr 1
          funext rv
          by_cases negative : rv < 0
          · simp [negative]
          · simp [negative]

/-- The loop ends, and visits the page frames in the bitmap. -/
theorem countPages_eq {pagemap : List Bool}
    (correct : Correct env.kdump pagemap) :
    ∀ {fuel addr : Nat}, pagemap.length - addr < fuel →
      countPages env mi options fuel addr =
        readPages env mi options (presentFrom pagemap addr)
  | fuel + 1, addr, enough => by
      rw [countPages]
      by_cases nothing : presentFrom pagemap addr = []
      · rw [correct.findSet_noData addr (presentFrom_eq_nil_iff.mp nothing),
          nothing]
        rfl
      · obtain ⟨first, last, set, clear, above, within, split⟩ :=
          correct.findRun nothing
        rw [set]
        dsimp only
        rw [clear, split, readPages_append,
          ← countPages_eq correct (by omega : pagemap.length - last < fuel)]

end Loops

/-! ## The whole run -/

/-- The attributes, if they can be read. -/
def Kdump.info (kdump : Kdump) : Option MemoryInfo :=
  match kdump.maxPfn, kdump.pageSize, kdump.pageShift, kdump.hasPagemap with
  | some _, some pageSize, some pageShift, true =>
      some ⟨if pageSize = 0 then 4096 else pageSize, pageShift⟩
  | _, _, _, _ => none

theorem getMemoryInfo_of_info
    {kdump : Kdump} {mi : MemoryInfo} (info : kdump.info = some mi)
    (process : Process) : getMemoryInfo kdump process = .ok mi process := by
  obtain ⟨maxPfn, pageSize, pageShift, hasPagemap, _, _, _, _⟩ := kdump
  cases maxPfn <;> cases pageSize <;> cases pageShift <;> cases hasPagemap <;>
    cases info
  rfl

theorem pageSize_pos
    {kdump : Kdump} {mi : MemoryInfo} (info : kdump.info = some mi) :
    0 < mi.pageSize := by
  rw [Kdump.info] at info
  split at info
  · cases info
    dsimp only
    split <;> omega
  · cases info

section Main

variable (env : Env) {options : Options} {pagemap : List Bool}
  {mi : MemoryInfo} {fuel : Nat}

theorem main_eq
    (correct : Correct env.kdump pagemap) (info : env.kdump.info = some mi)
    (enough : pagemap.length < fuel) (process : Process) :
    main env options fuel process =
      (do
        let rv ← readPages env mi options (presentFrom pagemap 0)
        let process ← get
        return verdict options rv process.foundCount) process := by
  rw [main, bind_of_ok (getMemoryInfo_of_info info process),
    countPages_eq env mi options correct (by omega)]

theorem main_of_readPages
    (correct : Correct env.kdump pagemap) (info : env.kdump.info = some mi)
    (enough : pagemap.length < fuel) {process last : Process} {rv : Int}
    (run :
      readPages env mi options (presentFrom pagemap 0) process =
        .ok rv last) :
    main env options fuel process =
      .ok (verdict options rv last.foundCount) last := by
  rw [main_eq env correct info enough, bind_of_ok run]
  rfl

theorem readPages_of_main
    (correct : Correct env.kdump pagemap) (info : env.kdump.info = some mi)
    (enough : pagemap.length < fuel) {process last : Process}
    {result : Verdict}
    (run : main env options fuel process = .ok result last) :
    ∃ rv,
      readPages env mi options (presentFrom pagemap 0) process =
          .ok rv last ∧
        verdict options rv last.foundCount = result := by
  rw [main_eq env correct info enough] at run
  obtain ⟨rv, next, pages, rest⟩ := bind_eq_ok run
  cases rest
  exact ⟨rv, pages, rfl⟩

end Main

/-! ## A core file with a bitmap -/

/-- The first number from `addr` on that passes the test. -/
def firstFrom (test : Nat → Bool) : Nat → Nat → Option Nat
  | 0, _ => none
  | count + 1, addr =>
      if test addr then some addr else firstFrom test count (addr + 1)

theorem firstFrom_eq_some {test : Nat → Bool} {pfn : Nat}
    (passes : test pfn = true) :
    ∀ {count addr : Nat}, addr ≤ pfn → pfn < addr + count →
      (∀ i, addr ≤ i → i < pfn → test i = false) →
        firstFrom test count addr = some pfn
  | 0, addr, above, below, _ => by omega
  | count + 1, addr, above, below, before => by
      rw [firstFrom]
      by_cases here : addr = pfn
      · rw [here, if_pos passes]
      · have fails := before addr (Nat.le_refl _) (by omega)
        rw [fails]
        exact firstFrom_eq_some passes (by omega) (by omega)
          fun i from_next => before i (by omega)

theorem firstFrom_eq_none {test : Nat → Bool} :
    ∀ {count addr : Nat}, (∀ i, addr ≤ i → test i = false) →
      firstFrom test count addr = none
  | 0, _, _ => rfl
  | count + 1, addr, fails => by
      rw [firstFrom, fails addr (Nat.le_refl _)]
      exact firstFrom_eq_none fun i from_next => fails i (by omega)

scoped instance neZero_shifts : NeZero 64 := ⟨by decide⟩

/-- Everything can be read, strings up to a length. -/
def Kdump.ofBitmap (pagemap : List Bool) (pageSize : Nat) (pageShift : Fin 64)
    (longest : Nat) : Kdump where
  maxPfn := some pagemap.length
  pageSize := some pageSize
  pageShift := some pageShift
  hasPagemap := true
  findSet addr :=
    match firstFrom (Present pagemap ·) (pagemap.length - addr) addr with
    | some pfn => .found pfn
    | none => .noData
  findClear addr :=
    match firstFrom (¬ Present pagemap ·) (pagemap.length - addr + 1) addr with
    | some pfn => .found pfn
    | none => .noData
  read memory addr len := some (contents memory addr len)
  readString memory addr :=
    (firstFrom (memory · = 0) longest addr).map fun last =>
      contents memory addr (last - addr)

theorem firstFrom_spec {test : Nat → Bool} {pfn : Nat} :
    ∀ {count addr : Nat}, firstFrom test count addr = some pfn →
      addr ≤ pfn ∧ test pfn = true ∧
        ∀ i, addr ≤ i → i < pfn → test i = false
  | count + 1, addr, found => by
      rw [firstFrom] at found
      split at found
      · next passes =>
          cases found
          exact ⟨Nat.le_refl _, passes, fun i _ _ => by omega⟩
      · next fails =>
          obtain ⟨above, passes, before⟩ := firstFrom_spec found
          refine ⟨by omega, passes, ?_⟩
          intro i from_addr below
          by_cases here : i = addr
          · rw [here, Bool.eq_false_iff]
            exact fails
          · exact before i (by omega) below

theorem Kdump.ofBitmap_correct (pagemap : List Bool) (pageSize : Nat)
    (pageShift : Fin 64) (longest : Nat) :
    Correct (ofBitmap pagemap pageSize pageShift longest) pagemap where
  findSet addr pfn above present before := by
    have within := present.lt_length
    rw [ofBitmap]
    dsimp only
    rw [firstFrom_eq_some (decide_eq_true present) above (by omega)
      fun i from_addr below => decide_eq_false (before i from_addr below)]
  findSet_noData addr absent := by
    rw [ofBitmap]
    dsimp only
    rw [firstFrom_eq_none fun i from_addr =>
      decide_eq_false (absent i from_addr)]
  findClear addr pfn above absent before := by
    have below : pfn < addr + (pagemap.length - addr + 1) := by
      by_cases first : pfn = addr
      · omega
      · have last := (before (pfn - 1) (by omega) (by omega)).lt_length
        omega
    rw [ofBitmap]
    dsimp only
    rw [firstFrom_eq_some (decide_eq_true absent) above below
      fun i from_addr earlier =>
        decide_eq_false (not_not_intro (before i from_addr earlier))]
  read memory addr len bytes read := (Option.some.inj read).symm
  read_isSome _ _ _ _ := rfl
  readString memory addr text read := by
    obtain ⟨last, found, rfl⟩ := Option.map_eq_some_iff.mp read
    obtain ⟨above, zero, nonzero⟩ := firstFrom_spec found
    rw [contents_length, Nat.add_sub_cancel' above]
    refine ⟨rfl, ?_, of_decide_eq_true zero⟩
    intro member
    obtain ⟨i, inside, isZero⟩ := List.mem_map.mp member
    have below := List.mem_range.mp inside
    exact of_decide_eq_false (nonzero (addr + i) (by omega) (by omega)) isZero

end KernelStuff.Dumpphys
