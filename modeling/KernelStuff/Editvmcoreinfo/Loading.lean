import KernelStuff.Editvmcoreinfo.Program

/-!
# What read_elfdata accepts

`Loads` lists what `read_elfdata` has found in the content of the file when it
returns 0.  Every run that returns 0 has found that, and with complete calls
there is such a run.
-/

namespace KernelStuff.Editvmcoreinfo

open KernelStuff.Library

/-! ## Single calls -/

/-- The process after the outcome of a call has been taken. -/
def Process.tick (process : Process) : Process :=
  { process with calls := process.calls + 1 }

namespace Process

variable (process : Process) (fd : Fd) (pos : Nat) (data : List UInt8)

@[simp]
theorem tick_file : process.tick.file fd = process.file fd := by
  cases fd <;> rfl

@[simp]
theorem tick_changes : process.tick.changes = process.changes := rfl

@[simp]
theorem seek_file_self :
    (process.seek fd pos).file fd = ⟨(process.file fd).bytes, pos⟩ := by
  cases fd <;> rfl

theorem seek_file_of_ne {other : Fd} (different : other ≠ fd) :
    (process.seek fd pos).file other = process.file other := by
  cases fd <;> cases other <;> first | rfl | exact absurd rfl different

@[simp]
theorem seek_changes : (process.seek fd pos).changes = process.changes := by
  cases fd <;> rfl

@[simp]
theorem wrote_file_self :
    (process.wrote fd data).file fd =
      ⟨overwrite (process.file fd).bytes (process.file fd).pos data,
        (process.file fd).pos + data.length⟩ := by
  cases fd <;> rfl

theorem wrote_file_of_ne {other : Fd} (different : other ≠ fd) :
    (process.wrote fd data).file other = process.file other := by
  cases fd <;> cases other <;> first | rfl | exact absurd rfl different

end Process

section Calls

variable (env : Env) (fd : Fd) (process : Process)

theorem succeeds_eq :
    succeeds env process =
      .ok (env.outcome process.calls ≠ .failure) process.tick := rfl

theorem lseek_eq (offset : Nat) :
    lseek env fd offset process =
      if env.outcome process.calls = .failure ∨ 2 ^ 63 ≤ offset then
        .ok false process.tick
      else .ok true (process.tick.seek fd offset) := by
  change (if _ then _ else _ : Program Bool) process.tick = _
  split <;> rfl

theorem lseekEnd_eq :
    lseekEnd env fd process =
      if env.outcome process.calls = .failure ∨
          2 ^ 63 ≤ (process.file fd).bytes.length then
        .ok none process.tick
      else
        .ok (some (process.file fd).bytes.length)
          (process.tick.seek fd (process.file fd).bytes.length) := by
  rw [← process.tick_file fd]
  change
    (if env.outcome process.calls = .failure ∨
        2 ^ 63 ≤ (process.tick.file fd).bytes.length then _
      else _ : Program (Option Nat)) process.tick = _
  split <;> rfl

theorem read_eq (count : Nat) :
    read env fd count process =
      if env.outcome process.calls = .failure then .ok none process.tick
      else
        .ok
          (some (slice (process.file fd).bytes (process.file fd).pos
            ((env.outcome process.calls).limit count)))
          (process.tick.seek fd ((process.file fd).pos +
            (slice (process.file fd).bytes (process.file fd).pos
              ((env.outcome process.calls).limit count)).length)) := by
  rw [← process.tick_file fd]
  change
    (if _ then _ else _ : Program (Option (List UInt8))) process.tick = _
  split <;> rfl

theorem write_eq (data : List UInt8) :
    write env fd data process =
      if env.outcome process.calls = .failure then .ok none process.tick
      else
        .ok
          (some (data.take
            ((env.outcome process.calls).limit data.length)).length)
          (process.tick.wrote fd
            (data.take ((env.outcome process.calls).limit data.length))) := by
  change (if _ then _ else _ : Program (Option Nat)) process.tick = _
  split <;> rfl

theorem sendfile_eq (dst src : Fd) (count : Nat) :
    sendfile env dst src count process =
      if env.sent process.calls = .failure then .ok none process.tick
      else
        .ok
          (some (slice (process.file src).bytes (process.file src).pos
            ((env.sent process.calls).limit count)).length)
          ((process.tick.seek src ((process.file src).pos +
            (slice (process.file src).bytes (process.file src).pos
              ((env.sent process.calls).limit count)).length)).wrote dst
            (slice (process.file src).bytes (process.file src).pos
              ((env.sent process.calls).limit count))) := by
  rw [← process.tick_file src]
  change (if _ then _ else _ : Program (Option Nat)) process.tick = _
  split <;> rfl

theorem ftruncate_eq (length : Nat) :
    ftruncate env length process =
      if env.outcome process.calls = .failure ∨ 2 ^ 63 ≤ length then
        .ok false process.tick
      else
        .ok true { process.tick with
          elf.bytes := truncate process.elf.bytes length
          changes := process.changes ++ [.truncated length] } := by
  change (if _ then _ else _ : Program Bool) process.tick = _
  split <;> rfl

end Calls

section Returned

variable {env : Env} {fd : Fd} {process last : Process}

theorem succeeds_eq_ok {result : Bool}
    (run : succeeds env process = .ok result last) : last = process.tick := by
  rw [succeeds_eq] at run
  exact (EStateM.Result.ok.inj run).2.symm

theorem lseek_eq_true {offset : Nat}
    (run : lseek env fd offset process = .ok true last) :
    offset < 2 ^ 63 ∧ last = process.tick.seek fd offset := by
  rw [lseek_eq] at run
  split at run
  · cases run
  · next possible =>
      cases run
      exact ⟨by omega, rfl⟩

theorem lseekEnd_eq_some {length : Nat}
    (run : lseekEnd env fd process = .ok (some length) last) :
    length = (process.file fd).bytes.length ∧ length < 2 ^ 63 ∧
      last = process.tick.seek fd length := by
  rw [lseekEnd_eq] at run
  split at run
  · cases run
  · next possible =>
      cases run
      exact ⟨rfl, by omega, rfl⟩

/-- A read that is recognised as complete. -/
theorem read_eq_some {count : Nat} {bytes : List UInt8}
    (run : read env fd count process = .ok (some bytes) last)
    (recognised : ¬ sizeT (intOf bytes.length) ≠ count)
    (bound : count < 2 ^ 63) :
    count < 2 ^ 31 ∧ bytes.length = count ∧
      bytes = slice (process.file fd).bytes (process.file fd).pos count ∧
      last = process.tick.seek fd ((process.file fd).pos + count) := by
  rw [read_eq] at run
  split at run
  · cases run
  · cases run
    have most := (env.outcome process.calls).limit_le count
    have within :=
      slice_length (process.file fd).bytes (process.file fd).pos
        ((env.outcome process.calls).limit count)
    obtain ⟨complete, small⟩ :=
      (sizeT_intOf_eq_iff (by omega) bound).mp (not_not.mp recognised)
    have all : (env.outcome process.calls).limit count = count := by omega
    rw [all] at complete ⊢
    rw [complete]
    exact ⟨small, rfl, rfl, rfl⟩

/-- A write that was not short. -/
theorem write_eq_some {data : List UInt8}
    (run : write env fd data process = .ok (some data.length) last) :
    last = process.tick.wrote fd data := by
  rw [write_eq] at run
  split at run
  · cases run
  · obtain ⟨sameLength, sameState⟩ := EStateM.Result.ok.inj run
    rw [Option.some.injEq, List.length_take] at sameLength
    rw [← sameState, List.take_of_length_le (by omega)]

theorem ftruncate_eq_true {length : Nat}
    (run : ftruncate env length process = .ok true last) :
    length < 2 ^ 63 ∧
      last =
        { process.tick with
          elf.bytes := truncate process.elf.bytes length
          changes := process.changes ++ [.truncated length] } := by
  rw [ftruncate_eq] at run
  split at run
  · cases run
  · next possible =>
      cases run
      exact ⟨by omega, rfl⟩

theorem assertThat_eq_ok {condition : Prop} [Decidable condition] {value : PUnit}
    (run : assertThat condition process = .ok value last) :
    condition ∧ last = process := by
  rw [assertThat] at run
  split at run
  · next holds =>
      cases run
      exact ⟨holds, rfl⟩
  · cases run

end Returned

/-! ## What has been found -/

/-- The number of bytes of the table of program headers. -/
def tableSize (ehdr : Elf64Ehdr) : Nat :=
  ehdr.ePhentsize.toNat * ehdr.ePhnum.toNat

theorem tableSize_lt (ehdr : Elf64Ehdr) : tableSize ehdr < 2 ^ 32 := by
  have entsize := ehdr.ePhentsize.toNat_lt
  have number := ehdr.ePhnum.toNat_lt
  calc
    tableSize ehdr < 2 ^ 16 * 2 ^ 16 :=
      Nat.mul_lt_mul'' entsize number
    _ = 2 ^ 32 := rfl

/-- The headers are those of a supported file. -/
structure Headers (bytes : List UInt8) (ehdr : Elf64Ehdr)
    (phdr : List Elf64Phdr) : Prop where
  header_le : elf64EhdrSize ≤ bytes.length
  ehdr_eq : ehdr = Elf64Ehdr.decode (slice bytes 0 elf64EhdrSize)
  supported : identSupported ehdr.eIdent = true
  sectionless : ehdr.eShentsize = 0
  entsize : ehdr.ePhentsize.toNat = elf64PhdrSize
  phoff_lt : ehdr.ePhoff.toNat < 2 ^ 63
  table_length :
    (slice bytes ehdr.ePhoff.toNat (tableSize ehdr)).length = tableSize ehdr
  phdr_eq :
    phdr =
      Elf64Phdr.decodeTable ehdr.ePhnum.toNat
        (slice bytes ehdr.ePhoff.toNat (tableSize ehdr))

structure Loads (bytes : List UInt8) (beyond : Nat → UInt8)
    (se : SavedElfdata) : Prop where
  headers : Headers bytes se.ehdr se.phdr
  segment :
    ∃ segment,
      firstNotes 0 se.phdr = some (se.notesSeg, segment) ∧
        se.notesStart = segment.pOffset.toNat ∧
        se.notesLen = segment.pFilesz.toNat
  notesStart_lt : se.notesStart < 2 ^ 63
  notesLen_lt : se.notesLen < 2 ^ 31
  notes_length :
    (slice bytes se.notesStart se.notesLen).length = se.notesLen
  notes_eq : se.notes = ⟨slice bytes se.notesStart se.notesLen, beyond⟩
  viNote_eq : lastVmcoreinfo se.notes 0 none = some se.viNote
  viNoteStart_eq : se.viNoteStart = se.viNote
  viNoteEnd_eq :
    se.viNoteEnd =
      se.viNote + nhdrSize + pad4 (descszAt se.notes se.viNote) +
        pad4 (nameszAt se.notes se.viNote)
  oldDescsz_eq : se.oldDescsz = descszAt se.notes se.viNote

theorem Headers.tableSize_eq
    {bytes : List UInt8} {ehdr : Elf64Ehdr} {phdr : List Elf64Phdr}
    (headers : Headers bytes ehdr phdr) :
    tableSize ehdr = elf64PhdrSize * ehdr.ePhnum.toNat := by
  rw [tableSize, headers.entsize]

theorem Headers.tableSize_lt
    {bytes : List UInt8} {ehdr : Elf64Ehdr} {phdr : List Elf64Phdr}
    (headers : Headers bytes ehdr phdr) : tableSize ehdr < 2 ^ 31 := by
  have number := ehdr.ePhnum.toNat_lt
  rw [headers.tableSize_eq, elf64PhdrSize]
  omega

/-! ## Reading changes nothing -/

/-- Only positions of descriptors and the count of calls differ. -/
structure Looks (process last : Process) : Prop where
  elf_eq : last.elf.bytes = process.elf.bytes
  tmp_eq : last.tmp = process.tmp
  changes_eq : last.changes = process.changes

namespace Looks

theorem refl (process : Process) : Looks process process := ⟨rfl, rfl, rfl⟩

theorem trans (first second third : Process)
    (left : Looks first second) (right : Looks second third) :
    Looks first third where
  elf_eq := right.elf_eq.trans left.elf_eq
  tmp_eq := right.tmp_eq.trans left.tmp_eq
  changes_eq := right.changes_eq.trans left.changes_eq

end Looks

section Looking

variable (env : Env)

theorem lseek_keeps (offset : Nat) : Keeps Looks (lseek env .elf offset) := by
  intro process
  rw [lseek_eq]
  split <;> exact ⟨rfl, rfl, rfl⟩

theorem read_keeps (count : Nat) : Keeps Looks (read env .elf count) := by
  intro process
  rw [read_eq]
  split <;> exact ⟨rfl, rfl, rfl⟩

theorem readPhdrs_keeps : Keeps Looks (readPhdrs env) := by
  apply Keeps.bind Looks.trans (read_keeps env _)
  intro header
  cases header with
  | none => exact keeps_pure Looks.refl _
  | some bytes =>
      apply Keeps.ite (keeps_pure Looks.refl _)
      apply Keeps.ite (keeps_pure Looks.refl _)
      apply Keeps.ite (keeps_pure Looks.refl _)
      refine Keeps.bind Looks.trans ?_ fun _ => ?_
      · exact Keeps.ite (keeps_pure Looks.refl _) (keeps_throw Looks.refl _)
      · apply Keeps.bind Looks.trans (lseek_keeps env _)
        intro reached
        apply Keeps.ite (keeps_pure Looks.refl _)
        apply Keeps.bind Looks.trans (read_keeps env _)
        intro table
        cases table with
        | none => exact keeps_pure Looks.refl _
        | some bytes =>
            exact Keeps.ite (keeps_pure Looks.refl _) (keeps_pure Looks.refl _)

theorem readNotes_keeps (notesStart notesLen : Nat) :
    Keeps Looks (readNotes env notesStart notesLen) := by
  apply Keeps.bind Looks.trans (lseek_keeps env _)
  intro reached
  apply Keeps.ite (keeps_pure Looks.refl _)
  apply Keeps.ite
  · exact Keeps.ite (keeps_pure Looks.refl _) (keeps_throw Looks.refl _)
  · apply Keeps.bind Looks.trans (read_keeps env _)
    intro notes
    cases notes with
    | none => exact keeps_pure Looks.refl _
    | some bytes =>
        exact Keeps.ite (keeps_pure Looks.refl _) (keeps_pure Looks.refl _)

theorem readElfdata_keeps : Keeps Looks (readElfdata env) := by
  apply Keeps.bind Looks.trans (readPhdrs_keeps env)
  intro headers
  cases headers with
  | none => exact keeps_pure Looks.refl _
  | some headers =>
      dsimp only
      cases firstNotes 0 headers.2 with
      | none => exact keeps_pure Looks.refl _
      | some found =>
          apply Keeps.bind Looks.trans (readNotes_keeps env _ _)
          intro area
          cases area with
          | none => exact keeps_pure Looks.refl _
          | some notes =>
              dsimp only
              cases lastVmcoreinfo notes 0 none with
              | none => exact keeps_pure Looks.refl _
              | some nhdr => exact keeps_pure Looks.refl _

end Looking

/-! ## Runs that return 0 -/

section Accepting

variable {env : Env} {process last : Process}

theorem readPhdrs_eq_some
    {ehdr : Elf64Ehdr} {phdr : List Elf64Phdr}
    (start : process.elf.pos = 0)
    (run : readPhdrs env process = .ok (some (ehdr, phdr)) last) :
    Headers process.elf.bytes ehdr phdr := by
  rw [readPhdrs] at run
  obtain ⟨bytes, afterHeader, readHeader, run⟩ :=
    bind_some_eq_ok (Option.some_ne_none _) run rfl
  obtain ⟨headerSeen, run⟩ := guard_eq_ok (Option.some_ne_none _) run
  obtain ⟨supported, run⟩ := guard_eq_ok (Option.some_ne_none _) run
  obtain ⟨sectionless, run⟩ := guard_eq_ok (Option.some_ne_none _) run
  obtain ⟨_, asserted, assertion, run⟩ := bind_eq_ok run
  obtain ⟨afterSeek, seek, run⟩ := bind_check_eq_ok (Option.some_ne_none _) run
  obtain ⟨table, afterTable, readTable, run⟩ :=
    bind_some_eq_ok (Option.some_ne_none _) run rfl
  obtain ⟨tableSeen, run⟩ := guard_eq_ok (Option.some_ne_none _) run
  obtain ⟨-, headerLength, headerEq, afterEq⟩ :=
    read_eq_some readHeader headerSeen (by decide)
  obtain ⟨entsize, same⟩ := assertThat_eq_ok assertion
  obtain ⟨phoffLt, seekEq⟩ := lseek_eq_true seek
  have sizeBound := tableSize_lt (Elf64Ehdr.decode bytes)
  obtain ⟨-, tableLength, tableEq, -⟩ :=
    read_eq_some readTable tableSeen (by
      change tableSize (Elf64Ehdr.decode bytes) < 2 ^ 63
      omega)
  have headerSlice : bytes = slice process.elf.bytes 0 elf64EhdrSize := by
    rw [headerEq]
    exact congrArg (slice process.elf.bytes · elf64EhdrSize) start
  have tableSlice :
      table =
        slice process.elf.bytes (Elf64Ehdr.decode bytes).ePhoff.toNat
          (tableSize (Elf64Ehdr.decode bytes)) := by
    rw [tableEq, seekEq, same, afterEq]
    rfl
  have long : elf64EhdrSize ≤ process.elf.bytes.length := by
    have length := slice_length process.elf.bytes 0 elf64EhdrSize
    rw [← headerSlice] at length
    omega
  cases run
  exact
    { header_le := long
      ehdr_eq := congrArg Elf64Ehdr.decode headerSlice
      supported := by
        rw [Bool.not_eq_true, Bool.not_eq_false'] at supported
        exact supported
      sectionless := not_not.mp sectionless
      entsize := entsize.symm
      phoff_lt := phoffLt
      table_length := by
        rw [← tableSlice]
        exact tableLength
      phdr_eq := congrArg (Elf64Phdr.decodeTable _) tableSlice }

theorem readNotes_eq_some
    {notesStart notesLen : Nat} {notes : Buffer}
    (run : readNotes env notesStart notesLen process = .ok (some notes) last) :
    notesStart < 2 ^ 63 ∧ notesLen < 2 ^ 31 ∧
      (slice process.elf.bytes notesStart notesLen).length = notesLen ∧
      notes = ⟨slice process.elf.bytes notesStart notesLen, env.beyond⟩ := by
  rw [readNotes] at run
  obtain ⟨afterSeek, seek, run⟩ := bind_check_eq_ok (Option.some_ne_none _) run
  by_cases large : 2 ^ 63 ≤ notesLen
  · rw [if_pos large] at run
    obtain ⟨_, run⟩ := guard_eq_ok (Option.some_ne_none _) run
    cases run
  · rw [if_neg large] at run
    obtain ⟨bytes, afterRead, readArea, run⟩ :=
      bind_some_eq_ok (Option.some_ne_none _) run rfl
    obtain ⟨seen, run⟩ := guard_eq_ok (Option.some_ne_none _) run
    obtain ⟨startLt, seekEq⟩ := lseek_eq_true seek
    obtain ⟨lenLt, length, bytesEq, -⟩ := read_eq_some readArea seen (by omega)
    have area : bytes = slice process.elf.bytes notesStart notesLen := by
      rw [bytesEq, seekEq]
      rfl
    cases run
    rw [← area]
    exact ⟨startLt, lenLt, length, rfl⟩

theorem readElfdata_loads
    {se : SavedElfdata} (start : process.elf.pos = 0)
    (run : readElfdata env process = .ok (some se) last) :
    Loads process.elf.bytes env.beyond se := by
  rw [readElfdata] at run
  obtain ⟨⟨ehdr, phdr⟩, afterHeaders, readHeaders, run⟩ :=
    bind_some_eq_ok (Option.some_ne_none _) run rfl
  have headers := readPhdrs_eq_some start readHeaders
  have content := ((readPhdrs_keeps env).ok readHeaders).elf_eq
  dsimp only at run
  cases found : firstNotes 0 phdr with
  | none =>
      rw [found] at run
      cases run
  | some entry =>
      obtain ⟨i, segment⟩ := entry
      rw [found] at run
      obtain ⟨notes, afterNotes, readArea, run⟩ :=
        bind_some_eq_ok (Option.some_ne_none _) run rfl
      obtain ⟨startLt, lenLt, length, notesEq⟩ := readNotes_eq_some readArea
      rw [content] at length notesEq
      dsimp only at run
      cases last : lastVmcoreinfo notes 0 none with
      | none =>
          rw [last] at run
          cases run
      | some nhdr =>
          rw [last] at run
          cases run
          exact
            { headers := headers
              segment := ⟨segment, found, rfl, rfl⟩
              notesStart_lt := startLt
              notesLen_lt := lenLt
              notes_length := length
              notes_eq := notesEq
              viNote_eq := last
              viNoteStart_eq := rfl
              viNoteEnd_eq := rfl
              oldDescsz_eq := rfl }

end Accepting

/-! ## Complete calls -/

/-- Every call succeeds, and reads and writes everything; `sendfile` transfers
at least a part. -/
structure Env.Completes (env : Env) : Prop where
  outcome_eq : ∀ k, env.outcome k = .complete
  sent_ne : ∀ k, env.sent k ≠ .failure ∧ env.sent k ≠ .short 0

/-- An environment in which everything completes at once. -/
def quietEnv (fuel : Nat) : Env where
  outcome := fun _ => .complete
  sent := fun _ => .complete
  beyond := fun _ => 0
  fuel := fuel

theorem quietEnv_completes (fuel : Nat) : (quietEnv fuel).Completes where
  outcome_eq := fun _ => rfl
  sent_ne := fun _ => ⟨nofun, nofun⟩

section Completing

variable {env : Env} (completes : env.Completes)

include completes

theorem succeeds_of_completes (process : Process) :
    succeeds env process = .ok true process.tick := by
  rw [succeeds_eq, completes.outcome_eq]
  rfl

theorem lseek_of_completes
    (fd : Fd) (process : Process) {offset : Nat} (bound : offset < 2 ^ 63) :
    lseek env fd offset process = .ok true (process.tick.seek fd offset) := by
  rw [lseek_eq, completes.outcome_eq, if_neg]
  rintro (failure | negative)
  · cases failure
  · omega

theorem lseekEnd_of_completes
    (fd : Fd) (process : Process)
    (bound : (process.file fd).bytes.length < 2 ^ 63) :
    lseekEnd env fd process =
      .ok (some (process.file fd).bytes.length)
        (process.tick.seek fd (process.file fd).bytes.length) := by
  rw [lseekEnd_eq, completes.outcome_eq, if_neg]
  rintro (failure | negative)
  · cases failure
  · omega

theorem read_of_completes (fd : Fd) (process : Process) (count : Nat) :
    ∃ last,
      read env fd count process =
        .ok
          (some (slice (process.file fd).bytes (process.file fd).pos count))
          last := by
  rw [read_eq, completes.outcome_eq]
  exact ⟨_, rfl⟩

theorem write_of_completes
    (fd : Fd) (process : Process) (data : List UInt8) :
    write env fd data process =
      .ok (some data.length) (process.tick.wrote fd data) := by
  rw [write_eq, completes.outcome_eq]
  change EStateM.Result.ok (some (data.take data.length).length)
    (process.tick.wrote fd (data.take data.length)) = _
  rw [List.take_length]

theorem ftruncate_of_completes
    (process : Process) {length : Nat} (bound : length < 2 ^ 63) :
    ftruncate env length process =
      .ok true { process.tick with
        elf.bytes := truncate process.elf.bytes length
        changes := process.changes ++ [.truncated length] } := by
  rw [ftruncate_eq, completes.outcome_eq, if_neg]
  rintro (failure | negative)
  · cases failure
  · omega

theorem readPhdrs_of_headers
    {process : Process} {ehdr : Elf64Ehdr} {phdr : List Elf64Phdr}
    (start : process.elf.pos = 0)
    (headers : Headers process.elf.bytes ehdr phdr) :
    ∃ last, readPhdrs env process = .ok (some (ehdr, phdr)) last := by
  have headerLength :
      (slice process.elf.bytes 0 elf64EhdrSize).length = elf64EhdrSize :=
    slice_length_of_le (by
      rw [Nat.zero_add]
      exact headers.header_le)
  obtain ⟨afterHeader, readHeader⟩ :=
    read_of_completes completes .elf process elf64EhdrSize
  have headerSlice :
      slice (process.file .elf).bytes (process.file .elf).pos elf64EhdrSize =
        slice process.elf.bytes 0 elf64EhdrSize :=
    congrArg (slice process.elf.bytes · elf64EhdrSize) start
  rw [headerSlice] at readHeader
  have seek := lseek_of_completes completes .elf afterHeader headers.phoff_lt
  obtain ⟨afterTable, readTable⟩ :=
    read_of_completes completes .elf
      (afterHeader.tick.seek .elf ehdr.ePhoff.toNat) (tableSize ehdr)
  have kept : afterHeader.elf.bytes = process.elf.bytes :=
    ((read_keeps env elf64EhdrSize).ok readHeader).elf_eq
  rw [Process.seek_file_self, Process.tick_file] at readTable
  change
    read env .elf (tableSize ehdr) _ =
      .ok (some (slice afterHeader.elf.bytes _ _)) _ at readTable
  rw [kept] at readTable
  have headerSeen :
      sizeT (intOf (slice process.elf.bytes 0 elf64EhdrSize).length) =
        elf64EhdrSize := by
    rw [headerLength]
    decide
  have tableSeen :
      sizeT (intOf (slice process.elf.bytes ehdr.ePhoff.toNat
        (tableSize ehdr)).length) = tableSize ehdr := by
    rw [headers.table_length, sizeT_intOf_of_lt headers.tableSize_lt]
  have asserted :
      assertThat (elf64PhdrSize = ehdr.ePhentsize.toNat) afterHeader =
        .ok PUnit.unit afterHeader := by
    rw [assertThat, if_pos headers.entsize.symm]
    rfl
  refine ⟨afterTable, ?_⟩
  rw [readPhdrs, bind_of_ok readHeader]
  dsimp only
  rw [if_neg (not_not.mpr headerSeen), ← headers.ehdr_eq, headers.supported,
    if_neg (by decide), if_neg (not_not.mpr headers.sectionless),
    bind_of_ok asserted]
  rw [bind_of_ok seek]
  change (read env .elf (tableSize ehdr) >>= _) _ = _
  rw [bind_of_ok readTable]
  dsimp only
  change (if sizeT _ ≠ tableSize ehdr then _ else _ : Program _) _ = _
  rw [if_neg (not_not.mpr tableSeen), ← headers.phdr_eq]
  rfl

theorem readNotes_of_completes
    {process : Process} {notesStart notesLen : Nat}
    (startLt : notesStart < 2 ^ 63) (lenLt : notesLen < 2 ^ 31)
    (length :
      (slice process.elf.bytes notesStart notesLen).length = notesLen) :
    ∃ last,
      readNotes env notesStart notesLen process =
        .ok
          (some ⟨slice process.elf.bytes notesStart notesLen, env.beyond⟩)
          last := by
  have seek := lseek_of_completes completes .elf process startLt
  obtain ⟨afterRead, readArea⟩ :=
    read_of_completes completes .elf (process.tick.seek .elf notesStart)
      notesLen
  rw [Process.seek_file_self, Process.tick_file] at readArea
  change
    read env .elf notesLen _ =
      .ok (some (slice process.elf.bytes notesStart notesLen)) _ at readArea
  have seen :
      sizeT (intOf (slice process.elf.bytes notesStart notesLen).length) =
        notesLen := by
    rw [length, sizeT_intOf_of_lt lenLt]
  refine ⟨afterRead, ?_⟩
  rw [readNotes, bind_of_ok seek]
  change (if 2 ^ 63 ≤ notesLen then _ else _ : Program _) _ = _
  rw [if_neg (by omega), bind_of_ok readArea]
  dsimp only
  rw [if_neg (not_not.mpr seen)]
  rfl

/-- With complete calls everything that can be loaded is loaded. -/
theorem readElfdata_of_loads
    {process : Process} {se : SavedElfdata} (start : process.elf.pos = 0)
    (loads : Loads process.elf.bytes env.beyond se) :
    ∃ last, readElfdata env process = .ok (some se) last := by
  obtain ⟨afterHeaders, readHeaders⟩ :=
    readPhdrs_of_headers completes start loads.headers
  have kept : afterHeaders.elf.bytes = process.elf.bytes :=
    ((readPhdrs_keeps env).ok readHeaders).elf_eq
  obtain ⟨segment, found, startEq, lenEq⟩ := loads.segment
  have length :
      (slice afterHeaders.elf.bytes se.notesStart se.notesLen).length =
        se.notesLen := by
    rw [kept]
    exact loads.notes_length
  obtain ⟨last, readArea⟩ :=
    readNotes_of_completes completes loads.notesStart_lt loads.notesLen_lt
      length
  rw [kept, ← loads.notes_eq, startEq, lenEq] at readArea
  refine ⟨last, ?_⟩
  rw [readElfdata, bind_of_ok readHeaders]
  dsimp only
  rw [found]
  dsimp only
  rw [bind_of_ok readArea]
  dsimp only
  rw [loads.viNote_eq]
  have viNoteStart := loads.viNoteStart_eq
  have viNoteEnd := loads.viNoteEnd_eq
  have oldDescsz := loads.oldDescsz_eq
  cases se
  dsimp only at startEq lenEq viNoteStart viNoteEnd oldDescsz
  rw [startEq, lenEq, viNoteStart, viNoteEnd, oldDescsz]
  rfl

end Completing

/-- The file and the memory after the notes determine what is loaded. -/
theorem Loads.unique
    {bytes : List UInt8} {beyond : Nat → UInt8} {se other : SavedElfdata}
    (left : Loads bytes beyond se) (right : Loads bytes beyond other) :
    se = other := by
  let env : Env := { quietEnv 0 with beyond := beyond }
  have completes : env.Completes :=
    ⟨(quietEnv_completes 0).outcome_eq, (quietEnv_completes 0).sent_ne⟩
  obtain ⟨last, here⟩ :
      ∃ last, readElfdata env (Process.initial bytes) = .ok (some se) last :=
    readElfdata_of_loads completes rfl left
  obtain ⟨final, there⟩ :
      ∃ last,
        readElfdata env (Process.initial bytes) = .ok (some other) last :=
    readElfdata_of_loads completes rfl right
  rw [here] at there
  exact Option.some.inj (EStateM.Result.ok.inj there).1

end KernelStuff.Editvmcoreinfo
