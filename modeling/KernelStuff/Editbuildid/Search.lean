import KernelStuff.Editbuildid.Program

/-!
# The search when every call completes

With complete calls a fetch depends on the content of the file only, and each
part of the search has one equation.
-/

namespace KernelStuff.Editbuildid

open KernelStuff.Library

/-- Every system call transfers all bytes. -/
def Env.Completes (env : Env) : Prop :=
  ∀ i, env.outcome i = .complete

/-- An environment in which everything completes on a little-endian platform. -/
def quietEnv : Env where
  host := .little
  outcome := fun _ => .complete
  beyond := fun _ _ => 0
  phdrRv := 0
  shdrRv := 0

theorem quietEnv_completes : quietEnv.Completes := fun _ => rfl

/-! ## Fetching -/

/-- The process after a fetch. -/
def Process.fetched (process : Process) (offset len : Nat) : Process :=
  if 2 ^ 63 ≤ offset then { process with calls := process.calls + 1 }
  else
    { process with
      calls := process.calls + 2
      file.pos := offset + (slice process.file.bytes offset len).length }

/-- The range can be fetched: it lies in the file, and its length is an `int`. -/
structure Fetchable (bytes : List UInt8) (offset len : Nat) : Prop where
  offset_lt : offset < 2 ^ 63
  length_eq : (slice bytes offset len).length = len
  len_lt : len < 2 ^ 31

instance (bytes : List UInt8) (offset len : Nat) :
    Decidable (Fetchable bytes offset len) :=
  decidable_of_iff
    (offset < 2 ^ 63 ∧ (slice bytes offset len).length = len ∧ len < 2 ^ 31)
    ⟨fun ⟨first, second, third⟩ => ⟨first, second, third⟩,
      fun fetchable =>
        ⟨fetchable.offset_lt, fetchable.length_eq, fetchable.len_lt⟩⟩

section Fetch

variable {env : Env} (completes : env.Completes)

include completes

theorem nextOutcome_of_completes (process : Process) :
    nextOutcome env process =
      .ok .complete { process with calls := process.calls + 1 } := by
  change EStateM.Result.ok (env.outcome process.calls) _ = _
  rw [completes]

theorem lseek_of_completes (offset : Nat) (process : Process) :
    lseek env offset process =
      if 2 ^ 63 ≤ offset then
        .ok false { process with calls := process.calls + 1 }
      else
        .ok true
          { process with
            calls := process.calls + 1
            file.pos := offset } := by
  rw [lseek, bind_of_ok (nextOutcome_of_completes completes process)]
  by_cases beyond : 2 ^ 63 ≤ offset
  · rw [if_pos (Or.inr beyond), if_pos beyond]
    rfl
  · have reachable :
        ¬ (CallOutcome.complete = .failure ∨ 2 ^ 63 ≤ offset) := by
      rintro (impossible | large)
      · cases impossible
      · exact beyond large
    rw [if_neg reachable, if_neg beyond]
    rfl

theorem read_of_completes (count : Nat) (process : Process) :
    read env count process =
      .ok
        (intOf (slice process.file.bytes process.file.pos count).length,
          slice process.file.bytes process.file.pos count)
        { process with
          calls := process.calls + 1
          file.pos :=
            process.file.pos +
              (slice process.file.bytes process.file.pos count).length } := by
  rw [read, bind_of_ok (nextOutcome_of_completes completes process),
    if_neg (by decide)]
  rfl

omit completes in
theorem inspect_eq (ranges : List Range) (process : Process) :
    inspect ranges process =
      .ok ⟨⟩ { process with inspected := process.inspected ++ ranges } :=
  rfl

omit completes in
theorem get_eq (process : Process) :
    (get : Program Process) process = .ok process process :=
  rfl

/-- A fetch gets the range exactly if it is fetchable. -/
theorem fetchData_of_completes (offset len : Nat) (process : Process) :
    fetchData env offset len process =
      .ok
        (if Fetchable process.file.bytes offset len then
          some ⟨slice process.file.bytes offset len,
            env.beyond (process.calls + 1)⟩
        else none)
        (process.fetched offset len) := by
  have seeks := lseek_of_completes completes offset process
  rw [fetchData, Process.fetched]
  by_cases beyond : 2 ^ 63 ≤ offset
  · rw [if_pos beyond] at seeks
    have notFetchable : ¬ Fetchable process.file.bytes offset len :=
      fun fetchable => absurd fetchable.offset_lt (by omega)
    rw [bind_of_ok seeks, if_pos beyond, if_neg notFetchable]
    rfl
  rw [if_neg beyond] at seeks
  rw [bind_of_ok seeks, if_neg beyond]
  change ((get : Program Process) >>= _) _ = _
  rw [bind_of_ok (get_eq _), bind_of_ok (read_of_completes completes len _)]
  have within : (slice process.file.bytes offset len).length ≤ len := by
    rw [slice_length]
    omega
  by_cases fetchable : Fetchable process.file.bytes offset len
  · obtain ⟨_, lengthEq, lenLt⟩ := fetchable
    have accepted :
        ¬ (sizeT (intOf (slice process.file.bytes offset len).length) ≠ len ∨
          2 ^ 63 ≤ len) := by
      rintro (differs | large)
      · exact differs
          ((sizeT_intOf_eq_iff within (by omega)).mpr ⟨lengthEq, lenLt⟩)
      · omega
    rw [if_pos ⟨by omega, lengthEq, lenLt⟩]
    change (if _ then _ else _ : Program (Option Buffer)) _ = _
    rw [if_neg accepted]
    rfl
  · have refused :
        sizeT (intOf (slice process.file.bytes offset len).length) ≠ len ∨
          2 ^ 63 ≤ len := by
      by_contra accepted
      rw [not_or, not_not] at accepted
      obtain ⟨lengthEq, lenLt⟩ :=
        (sizeT_intOf_eq_iff within (by omega)).mp accepted.1
      exact fetchable ⟨by omega, lengthEq, lenLt⟩
    rw [if_neg fetchable]
    change (if _ then _ else _ : Program (Option Buffer)) _ = _
    rw [if_pos refused]
    rfl

end Fetch

/-! ## One note area -/

section Area

variable (env : Env)

/-- The buffer a fetch by this process returns. -/
def Process.buffer (process : Process) (offset len : Nat) : Buffer :=
  ⟨slice process.file.bytes offset len, env.beyond (process.calls + 1)⟩

/-- The process after a note area has been walked through. -/
def Process.scanned (process : Process) (info : ElfInfo) (offset len : Nat) :
    Process :=
  { process.fetched offset len with
    areas := process.areas ++ [(offset, len)]
    inspected :=
      process.inspected ++
        inspectedNotes env info offset (process.buffer env offset len) }

/-- What `find_buildid` makes of the end of the walk. -/
def areaResult (out : BuildidInfo) (process : Process) :
    Option NoteExit → EStateM.Result Spin Process (Int × BuildidInfo)
  | some (.found found) => .ok (1, found) process
  | some .notFound => .ok (0, out) process
  | none => .error .spins process

variable {env}

theorem Process.fetched_inspected (process : Process) (offset len : Nat) :
    (process.fetched offset len).inspected = process.inspected := by
  rw [Process.fetched]
  split <;> rfl

theorem Process.fetched_areas (process : Process) (offset len : Nat) :
    (process.fetched offset len).areas = process.areas := by
  rw [Process.fetched]
  split <;> rfl

theorem Process.fetched_bytes (process : Process) (offset len : Nat) :
    (process.fetched offset len).file.bytes = process.file.bytes := by
  rw [Process.fetched]
  split <;> rfl

theorem findBuildid_of_fetchable
    (completes : env.Completes) (info : ElfInfo) {offset len : Nat}
    (out : BuildidInfo) {process : Process}
    (fetchable : Fetchable process.file.bytes offset len) :
    findBuildid env info offset len out process =
      areaResult out (process.scanned env info offset len)
        (evaluate
          (noteStep env.host info offset (process.buffer env offset len))
          (len + 1) 0) := by
  have fetch := fetchData_of_completes completes offset len process
  rw [if_pos fetchable] at fetch
  rw [findBuildid, bind_of_ok fetch]
  have length : (slice process.file.bytes offset len).length = len :=
    fetchable.length_eq
  have areasEq := process.fetched_areas offset len
  have inspectedEq := process.fetched_inspected offset len
  simp only [length]
  rw [Process.scanned, ← areasEq, ← inspectedEq, Process.buffer]
  cases outcome :
      evaluate
        (noteStep env.host info offset
          ⟨slice process.file.bytes offset len,
            env.beyond (process.calls + 1)⟩)
        (len + 1) 0 with
  | none => rfl
  | some exit => cases exit <;> rfl

theorem findBuildid_of_not_fetchable
    (completes : env.Completes) (info : ElfInfo) {offset len : Nat}
    (out : BuildidInfo) {process : Process}
    (unreadable : ¬ Fetchable process.file.bytes offset len) :
    findBuildid env info offset len out process =
      .ok (-1, out) (process.fetched offset len) := by
  have fetch := fetchData_of_completes completes offset len process
  rw [if_neg unreadable] at fetch
  rw [findBuildid, bind_of_ok fetch]
  rfl

end Area

/-! ## The loop over the areas -/

section Areas

variable {env : Env} {table : Table} {entries : Buffer} {info : ElfInfo}
  {number entsize start : Nat} {rv : Int} {out : BuildidInfo}

theorem searchNotes_of_none
    (none_eq : findNotes env table entries info start number entsize = none) :
    searchNotes env table entries info number entsize start rv out =
      pure (rv, out) := by
  rw [searchNotes]
  split
  · rfl
  · next found =>
      rw [none_eq] at found
      cases found

theorem searchNotes_of_some {i offset size : Nat}
    (some_eq :
      findNotes env table entries info start number entsize =
        some (i, offset, size)) :
    searchNotes env table entries info number entsize start rv out =
      findBuildid env info offset size out >>= fun result =>
        if result.1 ≠ 0 then pure result
        else
          searchNotes env table entries info number entsize (i + 1) result.1
            result.2 := by
  rw [searchNotes]
  split
  · next found =>
      rw [some_eq] at found
      cases found
  · next found =>
      rw [some_eq] at found
      cases found
      rfl

/-- Searches that come to the same entry are the same. -/
theorem searchNotes_congr {other : Nat}
    (same :
      findNotes env table entries info start number entsize =
        findNotes env table entries info other number entsize) :
    searchNotes env table entries info number entsize start rv out =
      searchNotes env table entries info number entsize other rv out := by
  cases first : findNotes env table entries info other number entsize with
  | none => rw [searchNotes_of_none first, searchNotes_of_none (same.trans first)]
  | some found =>
      obtain ⟨i, offset, size⟩ := found
      rw [searchNotes_of_some first, searchNotes_of_some (same.trans first)]

end Areas

/-! ## The search only looks -/

/-- The file has the same content and nothing was printed; what has been looked
at stays recorded. -/
structure Looks (process next : Process) : Prop where
  bytes_eq : next.file.bytes = process.file.bytes
  stdout_eq : next.stdout = process.stdout
  inspected : process.inspected <+: next.inspected

theorem Looks.refl (process : Process) : Looks process process :=
  ⟨rfl, rfl, List.prefix_rfl⟩

theorem Looks.trans (first second third : Process)
    (left : Looks first second) (right : Looks second third) :
    Looks first third :=
  ⟨right.bytes_eq.trans left.bytes_eq, right.stdout_eq.trans left.stdout_eq,
    left.inspected.trans right.inspected⟩

section Looking

variable (env : Env)

theorem nextOutcome_keeps : Keeps Looks (nextOutcome env) :=
  fun _ => ⟨rfl, rfl, List.prefix_rfl⟩

theorem openFile_keeps : Keeps Looks (openFile env) :=
  fun _ => ⟨rfl, rfl, List.prefix_rfl⟩

theorem lseek_keeps (offset : Nat) : Keeps Looks (lseek env offset) := by
  apply Keeps.bind Looks.trans (nextOutcome_keeps env)
  intro outcome
  apply Keeps.ite
  · exact keeps_pure Looks.refl false
  · exact fun _ => ⟨rfl, rfl, List.prefix_rfl⟩

theorem read_keeps (count : Nat) : Keeps Looks (read env count) := by
  apply Keeps.bind Looks.trans (nextOutcome_keeps env)
  intro outcome
  apply Keeps.ite
  · exact keeps_pure Looks.refl _
  · exact fun _ => ⟨rfl, rfl, List.prefix_rfl⟩

theorem inspect_keeps (ranges : List Range) :
    Keeps Looks (inspect ranges) :=
  fun _ => ⟨rfl, rfl, List.prefix_append _ _⟩

theorem fetchData_keeps (offset len : Nat) :
    Keeps Looks (fetchData env offset len) := by
  apply Keeps.bind Looks.trans (lseek_keeps env offset)
  intro reached
  apply Keeps.ite
  · exact keeps_pure Looks.refl none
  · apply Keeps.bind Looks.trans (keeps_get Looks.refl)
    intro process
    apply Keeps.bind Looks.trans (read_keeps env len)
    intro result
    apply Keeps.ite
    · exact keeps_pure Looks.refl _
    · exact keeps_pure Looks.refl _

theorem findBuildid_keeps (info : ElfInfo) (offset len : Nat)
    (out : BuildidInfo) :
    Keeps Looks (findBuildid env info offset len out) := by
  apply Keeps.bind Looks.trans (fetchData_keeps env offset len)
  intro fetched
  cases fetched with
  | none => exact keeps_pure Looks.refl _
  | some data =>
      dsimp only
      refine Keeps.bind Looks.trans (keeps_modify ?_) ?_
      · exact fun _ => ⟨rfl, rfl, List.prefix_rfl⟩
      intro _
      apply Keeps.bind Looks.trans (inspect_keeps _)
      intro _
      cases evaluate (noteStep env.host info offset data)
          (data.bytes.length + 1) 0 with
      | none => exact keeps_throw Looks.refl _
      | some exit =>
          cases exit with
          | found found => exact keeps_pure Looks.refl _
          | notFound => exact keeps_pure Looks.refl _

theorem searchNotes_keeps (table : Table) (entries : Buffer) (info : ElfInfo)
    (number entsize start : Nat) (rv : Int) (out : BuildidInfo) :
    Keeps Looks
      (searchNotes env table entries info number entsize start rv out) := by
  rw [searchNotes]
  split
  · exact keeps_pure Looks.refl _
  · next i offset size found =>
      have smaller : number - (i + 1) < number - start := by
        have bounds := findNotes_bounds found
        omega
      apply Keeps.bind Looks.trans (findBuildid_keeps env info offset size out)
      rintro ⟨rv, out⟩
      apply Keeps.ite
      · exact keeps_pure Looks.refl _
      · exact
          searchNotes_keeps table entries info number entsize (i + 1) rv out
termination_by number - start

theorem findBuildidTable_keeps (table : Table) (rv : Int) (info : ElfInfo)
    (ehdr : Buffer) (out : BuildidInfo) :
    Keeps Looks (findBuildidTable env table rv info ehdr out) := by
  apply Keeps.ite
  · exact keeps_pure Looks.refl _
  · apply Keeps.bind Looks.trans (fetchData_keeps env _ _)
    intro fetched
    cases fetched with
    | none => exact keeps_pure Looks.refl _
    | some entries =>
        apply Keeps.bind Looks.trans (inspect_keeps _)
        intro _
        exact searchNotes_keeps env table entries info _ _ 0 rv out

theorem findBuildId_keeps (out : BuildidInfo) :
    Keeps Looks (findBuildId env out) := by
  apply Keeps.bind Looks.trans (keeps_get Looks.refl)
  intro process
  apply Keeps.bind Looks.trans (read_keeps env ehdrSize)
  rintro ⟨rv, bytes⟩
  apply Keeps.ite
  · exact keeps_pure Looks.refl _
  · apply Keeps.bind Looks.trans (inspect_keeps _)
    intro _
    dsimp only
    cases elfInfo ⟨bytes, env.beyond process.calls⟩ with
    | none => exact keeps_pure Looks.refl _
    | some info =>
        apply Keeps.bind Looks.trans
          (findBuildidTable_keeps env phdrTable env.phdrRv info _ out)
        rintro ⟨rv, out⟩
        apply Keeps.ite
        · exact keeps_pure Looks.refl _
        · exact
            findBuildidTable_keeps env shdrTable env.shdrRv info _ out

end Looking

end KernelStuff.Editbuildid
