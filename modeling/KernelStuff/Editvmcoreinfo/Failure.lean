import KernelStuff.Editvmcoreinfo.Editing

/-!
# Runs that fail

The core file is edited in place: the program headers first, then the rest from
the old note on.  A run that fails before the file has been cut off has changed
nothing but program headers; afterwards what was in front of the note is left.
-/

namespace KernelStuff.Editvmcoreinfo

open KernelStuff.Library

/-! ## The record of changes -/

def Change.apply (bytes : List UInt8) : Change → List UInt8
  | .wrote pos data => overwrite bytes pos data
  | .truncated length => truncate bytes length

def replay (bytes : List UInt8) (changes : List Change) : List UInt8 :=
  changes.foldl Change.apply bytes

/-- The changes that were recorded are the changes that were made, and all of
them are allowed. -/
def Records (allowed : Change → Prop) (process last : Process) : Prop :=
  ∃ more,
    last.changes = process.changes ++ more ∧
      last.elf.bytes = replay process.elf.bytes more ∧
      ∀ change ∈ more, allowed change

namespace Records

variable {allowed wider : Change → Prop}

theorem ofSame {process last : Process}
    (bytesEq : last.elf.bytes = process.elf.bytes)
    (changesEq : last.changes = process.changes) :
    Records allowed process last :=
  ⟨[], by rw [changesEq, List.append_nil], bytesEq,
    fun _ member => absurd member List.not_mem_nil⟩

theorem refl (process : Process) : Records allowed process process :=
  ofSame rfl rfl

theorem single {process last : Process} {change : Change}
    (bytesEq : last.elf.bytes = change.apply process.elf.bytes)
    (changesEq : last.changes = process.changes ++ [change])
    (isAllowed : allowed change) : Records allowed process last := by
  refine ⟨[change], changesEq, bytesEq, fun other member => ?_⟩
  rw [List.mem_singleton.mp member]
  exact isAllowed

theorem trans (first second third : Process)
    (left : Records allowed first second)
    (right : Records allowed second third) : Records allowed first third := by
  obtain ⟨early, earlyChanges, earlyBytes, earlyAllowed⟩ := left
  obtain ⟨late, lateChanges, lateBytes, lateAllowed⟩ := right
  refine ⟨early ++ late, ?_, ?_, ?_⟩
  · rw [lateChanges, earlyChanges, List.append_assoc]
  · rw [lateBytes, earlyBytes, replay, replay, replay, List.foldl_append]
  · intro change member
    rcases List.mem_append.mp member with here | there
    · exact earlyAllowed change here
    · exact lateAllowed change there

theorem mono {process last : Process}
    (records : Records allowed process last)
    (allows : ∀ change, allowed change → wider change) :
    Records wider process last := by
  obtain ⟨more, changesEq, bytesEq, all⟩ := records
  exact
    ⟨more, changesEq, bytesEq, fun change member =>
      allows change (all change member)⟩

/-- Nothing is allowed. -/
theorem unchanged {process last : Process}
    (records : Records (fun _ => False) process last) :
    last.elf.bytes = process.elf.bytes ∧ last.changes = process.changes := by
  obtain ⟨more, changesEq, bytesEq, none⟩ := records
  rw [List.eq_nil_iff_forall_not_mem.mpr none] at changesEq bytesEq
  rw [List.append_nil] at changesEq
  exact ⟨bytesEq, changesEq⟩

end Records

/-- The core file is written to. -/
def Change.IsWrite : Change → Prop
  | .wrote _ _ => True
  | .truncated _ => False

section Recording

variable (env : Env) {allowed : Change → Prop}

theorem succeeds_records : Keeps (Records allowed) (succeeds env) :=
  fun _ => Records.ofSame rfl rfl

theorem seek_records (process : Process) (fd : Fd) (pos : Nat) :
    Records allowed process (process.tick.seek fd pos) := by
  cases fd <;> exact Records.ofSame rfl rfl

theorem lseek_records (fd : Fd) (offset : Nat) :
    Keeps (Records allowed) (lseek env fd offset) := by
  intro process
  rw [lseek_eq]
  split
  · exact Records.ofSame rfl rfl
  · exact seek_records process fd offset

theorem lseekEnd_records (fd : Fd) : Keeps (Records allowed) (lseekEnd env fd) := by
  intro process
  rw [lseekEnd_eq]
  split
  · exact Records.ofSame rfl rfl
  · exact seek_records process fd _

section Writing

variable {fd : Fd} (writes : fd = .elf → ∀ pos data, allowed (.wrote pos data))

include writes

theorem wrote_records (process : Process) (data : List UInt8) :
    Records allowed process (process.wrote fd data) := by
  cases fd with
  | elf => exact Records.single rfl rfl (writes rfl process.elf.pos data)
  | tmp => exact Records.ofSame rfl rfl

theorem write_records (data : List UInt8) :
    Keeps (Records allowed) (write env fd data) := by
  intro process
  rw [write_eq]
  split
  · exact Records.ofSame rfl rfl
  · exact wrote_records writes process.tick _

theorem sendfile_records (src : Fd) (count : Nat) :
    Keeps (Records allowed) (sendfile env fd src count) := by
  intro process
  rw [sendfile_eq]
  split
  · exact Records.ofSame rfl rfl
  · exact
      (seek_records process src _).trans _ _ _ (wrote_records writes _ _)

theorem sendfileRounds_records (src : Fd) (amt : Nat) :
    ∀ fuel cur, Keeps (Records allowed) (sendfileRounds env fd src amt fuel cur)
  | 0, _ => keeps_throw Records.refl _
  | fuel + 1, cur => by
      apply Keeps.bind Records.trans (sendfile_records env writes src _)
      intro sent
      cases sent with
      | none => exact keeps_pure Records.refl _
      | some rv =>
          exact
            Keeps.ite (sendfileRounds_records src amt fuel (cur + rv))
              (keeps_pure Records.refl _)

end Writing

/-- Saving what follows the note changes nothing. -/
theorem saveTail_records (se : SavedElfdata) :
    Keeps (Records allowed) (saveTail env se) := by
  apply Keeps.bind Records.trans (lseekEnd_records env _)
  intro length
  cases length with
  | none => exact keeps_pure Records.refl _
  | some length =>
      apply Keeps.bind Records.trans (lseek_records env _ _)
      intro reached
      apply Keeps.ite (keeps_pure Records.refl _)
      apply Keeps.bind Records.trans (succeeds_records env)
      intro made
      apply Keeps.ite (keeps_pure Records.refl _)
      apply Keeps.bind Records.trans (succeeds_records env)
      intro unlinked
      apply Keeps.ite (keeps_pure Records.refl _)
      apply Keeps.bind Records.trans
        (sendfileRounds_records env nofun _ _ _ _)
      intro copied
      exact Keeps.ite (keeps_pure Records.refl _) (keeps_pure Records.refl _)

section Writing

variable (writes : ∀ pos data, allowed (.wrote pos data))

include writes

theorem appendNote_records (newnote : List UInt8) (savesz : Nat) :
    Keeps (Records allowed) (appendNote env newnote savesz) := by
  apply Keeps.bind Records.trans (lseekEnd_records env _)
  intro length
  cases length with
  | none => exact keeps_pure Records.refl _
  | some length =>
      apply Keeps.bind Records.trans (lseek_records env _ _)
      intro reached
      apply Keeps.ite (keeps_pure Records.refl _)
      apply Keeps.bind Records.trans (write_records env (fun _ => writes) _)
      intro written
      cases written with
      | none => exact keeps_pure Records.refl _
      | some rv =>
          exact
            Keeps.ite (keeps_pure Records.refl _)
              (sendfileRounds_records env (fun _ => writes) _ _ _ _)

end Writing

end Recording

/-! ## Appending -/

/-- A core file whose descriptor is at the end is appended to. -/
def Grows (process last : Process) : Prop :=
  process.elf.pos = process.elf.bytes.length →
    last.elf.pos = last.elf.bytes.length ∧
      process.elf.bytes <+: last.elf.bytes

namespace Grows

theorem ofSame {process last : Process} (same : last.elf = process.elf) :
    Grows process last := by
  intro atEnd
  rw [same]
  exact ⟨atEnd, List.prefix_rfl⟩

theorem refl (process : Process) : Grows process process :=
  ofSame rfl

theorem trans (first second third : Process)
    (left : Grows first second) (right : Grows second third) :
    Grows first third := by
  intro atEnd
  obtain ⟨secondEnd, early⟩ := left atEnd
  obtain ⟨thirdEnd, late⟩ := right secondEnd
  exact ⟨thirdEnd, early.trans late⟩

theorem wrote (process : Process) (data : List UInt8) :
    Grows process (process.wrote .elf data) := by
  intro atEnd
  have bytesEq :
      (process.wrote .elf data).elf.bytes = process.elf.bytes ++ data := by
    rw [← overwrite_end, ← atEnd]
    rfl
  rw [bytesEq, List.length_append, ← atEnd]
  exact ⟨rfl, List.prefix_append _ _⟩

end Grows

section Growing

variable (env : Env)

theorem lseek_grows (offset : Nat) : Keeps Grows (lseek env .tmp offset) := by
  intro process
  rw [lseek_eq]
  split <;> exact Grows.ofSame rfl

theorem write_grows (data : List UInt8) :
    Keeps Grows (write env .elf data) := by
  intro process
  rw [write_eq]
  split
  · exact Grows.ofSame rfl
  · exact Grows.wrote process.tick _

theorem sendfileRounds_grows (amt : Nat) :
    ∀ fuel cur, Keeps Grows (sendfileRounds env .elf .tmp amt fuel cur)
  | 0, _ => keeps_throw Grows.refl _
  | fuel + 1, cur => by
      refine Keeps.bind Grows.trans (fun process => ?_) fun sent => ?_
      · rw [sendfile_eq]
        split
        · exact Grows.ofSame rfl
        · exact Grows.wrote (process.tick.seek .tmp _) _
      cases sent with
      | none => exact keeps_pure Grows.refl _
      | some rv =>
          exact
            Keeps.ite (sendfileRounds_grows amt fuel (cur + rv))
              (keeps_pure Grows.refl _)

/-- `append_note` first moves to the end of the core file. -/
theorem appendNote_grows (newnote : List UInt8) (savesz : Nat) :
    Keeps (fun process last => process.elf.bytes <+: last.elf.bytes)
      (appendNote env newnote savesz) := by
  intro process
  rw [appendNote]
  cases moved : lseekEnd env .elf process with
  | error fault next =>
      rw [lseekEnd_eq] at moved
      split at moved <;> cases moved
  | ok length next =>
      cases length with
      | none =>
          rw [bind_of_ok moved]
          rw [lseekEnd_eq] at moved
          split at moved <;> cases moved
          exact List.prefix_rfl
      | some length =>
          obtain ⟨lengthEq, -, nextEq⟩ := lseekEnd_eq_some moved
          have sameBytes : next.elf.bytes = process.elf.bytes := by
            rw [nextEq]
            rfl
          have atEnd : next.elf.pos = next.elf.bytes.length := by
            rw [nextEq, lengthEq]
            rfl
          rw [bind_of_ok moved, ← sameBytes]
          refine And.right (Keeps.bind Grows.trans (lseek_grows env 0) ?_
            next atEnd)
          intro rewound
          apply Keeps.ite (keeps_pure Grows.refl _)
          apply Keeps.bind Grows.trans (write_grows env _)
          intro written
          cases written with
          | none => exact keeps_pure Grows.refl _
          | some rv =>
              exact
                Keeps.ite (keeps_pure Grows.refl _)
                  (sendfileRounds_grows env _ _ _)

end Growing

/-- Either the core file is as it was, or it has been cut off and appended to. -/
theorem shiftData_ok {env : Env} {process last : Process}
    {se : SavedElfdata} {newdesc : List UInt8} {result : Bool}
    (run : shiftData env se newdesc process = .ok result last) :
    last.elf.bytes = process.elf.bytes ∧ last.changes = process.changes ∨
      ∃ more,
        last.changes =
            process.changes ++
              .truncated ((se.notesStart + se.viNoteStart) % 2 ^ 64) ::
                more ∧
          (∀ change ∈ more, change.IsWrite) ∧
          truncate process.elf.bytes
              ((se.notesStart + se.viNoteStart) % 2 ^ 64) <+:
            last.elf.bytes := by
  rw [shiftData] at run
  obtain ⟨savesz, saved, saving, run⟩ := bind_eq_ok run
  obtain ⟨sameBytes, sameChanges⟩ :=
    Records.unchanged ((saveTail_records env se).ok saving)
  cases savesz with
  | none =>
      cases run
      exact Or.inl ⟨sameBytes, sameChanges⟩
  | some savesz =>
      obtain ⟨done, cut, truncating, run⟩ := bind_eq_ok run
      rw [ftruncate_eq] at truncating
      split at truncating
      · cases truncating
        cases run
        exact Or.inl ⟨sameBytes, sameChanges⟩
      · cases truncating
        change appendNote env _ savesz _ = _ at run
        have allows (pos : Nat) (data : List UInt8) :
            (Change.wrote pos data).IsWrite := trivial
        obtain ⟨more, changesEq, -, writes⟩ :=
          (appendNote_records env allows _ _).ok run
        have grown := (appendNote_grows env _ _).ok run
        refine Or.inr ⟨more, ?_, writes, ?_⟩
        · rw [changesEq, sameChanges, List.append_assoc]
          rfl
        · rw [← sameBytes]
          exact grown

/-! ## Failing -/

/-- What is left when a run with new data fails. -/
inductive Left (env : Env) (bytes newdata : List UInt8) (last : Process) :
    Prop where
  | untouched
      (bytes_eq : last.elf.bytes = bytes) (changes_eq : last.changes = [])
  | headers (se : SavedElfdata) (part rest : List UInt8)
      (loads : Loads bytes env.beyond se)
      (split :
        Elf64Phdr.encodeTable (shiftPhdrs se newdata.length) = part ++ rest)
      (bytes_eq :
        last.elf.bytes = overwrite bytes se.ehdr.ePhoff.toNat part)
      (changes_eq : last.changes = [.wrote se.ehdr.ePhoff.toNat part])
  | cut (se : SavedElfdata) (more : List Change)
      (loads : Loads bytes env.beyond se)
      (changes_eq :
        last.changes =
          .wrote se.ehdr.ePhoff.toNat
              (Elf64Phdr.encodeTable (shiftPhdrs se newdata.length)) ::
            .truncated ((se.notesStart + se.viNoteStart) % 2 ^ 64) :: more)
      (writes : ∀ change ∈ more, change.IsWrite)
      (grown :
        truncate (withPhdrs bytes se newdata.length)
            ((se.notesStart + se.viNoteStart) % 2 ^ 64) <+:
          last.elf.bytes)

theorem editFile_left
    {env : Env} {bytes newdata : List UInt8} {last : Process} {rv : Int}
    (run : editFile env newdata (Process.initial bytes) = .ok rv last)
    (failed : rv ≠ 0) : Left env bytes newdata last := by
  rw [editFile] at run
  obtain ⟨opened, afterOpen, opening, run⟩ := bind_eq_ok run
  have openEq := succeeds_eq_ok opening
  cases opened with
  | false =>
      cases run
      rw [openEq]
      exact .untouched rfl rfl
  | true =>
      obtain ⟨loaded, afterLoad, loading, run⟩ := bind_eq_ok run
      have looks := (readElfdata_keeps env).ok loading
      rw [openEq] at loading looks
      cases loaded with
      | none =>
          cases run
          exact .untouched looks.elf_eq looks.changes_eq
      | some se =>
          have loads : Loads bytes env.beyond se :=
            readElfdata_loads rfl loading
          obtain ⟨updated, afterUpdate, updating, run⟩ := bind_eq_ok run
          obtain ⟨part, rest, split, bytesEq, -, changesEq, whole⟩ :=
            updateOffsets_ok (loads.table_length _) updating
          rw [looks.elf_eq] at bytesEq
          rw [looks.changes_eq] at changesEq
          change
            afterUpdate.elf.bytes =
              overwrite bytes se.ehdr.ePhoff.toNat part at bytesEq
          cases updated with
          | false =>
              cases run
              rcases changesEq with ⟨none, nothing, -⟩ | some
              · rw [nothing, overwrite_nil] at bytesEq
                exact .untouched bytesEq none
              · exact .headers se part rest loads split bytesEq some
          | true =>
              rcases changesEq with ⟨-, -, impossible⟩ | some
              · cases impossible
              rw [whole rfl, List.append_nil] at split
              obtain ⟨shifted, afterShift, shifting, run⟩ := bind_eq_ok run
              cases shifted with
              | true =>
                  cases run
                  exact absurd rfl failed
              | false =>
                  cases run
                  rcases shiftData_ok shifting with
                    ⟨sameBytes, sameChanges⟩ | ⟨more, cut, writes, grown⟩
                  · exact
                      .headers se part [] loads
                        (by rw [split, List.append_nil])
                        (sameBytes.trans bytesEq) (sameChanges.trans some)
                  · rw [bytesEq, ← split] at grown
                    refine .cut se more loads ?_ writes grown
                    rw [cut, some, split]
                    rfl

/-- The bytes of the program headers, as the file header locates them. -/
def InTable (bytes : List UInt8) (i : Nat) : Prop :=
  let ehdr := Elf64Ehdr.decode (slice bytes 0 elf64EhdrSize)
  ehdr.ePhoff.toNat ≤ i ∧ i < ehdr.ePhoff.toNat + tableSize ehdr

section Parts

variable {bytes newdata part rest : List UInt8} {beyond : Nat → UInt8}
  {se : SavedElfdata} (loads : Loads bytes beyond se)
  (split : Elf64Phdr.encodeTable (shiftPhdrs se newdata.length) = part ++ rest)

include loads split

theorem part_le :
    se.ehdr.ePhoff.toNat + part.length ≤ bytes.length ∧
      part.length ≤ tableSize se.ehdr := by
  have length := loads.table_length newdata.length
  rw [split, List.length_append] at length
  have within := loads.table_le
  omega

/-- Only bytes of the table are overwritten. -/
theorem overwrite_part_outside {i : Nat} (outside : ¬ InTable bytes i) :
    (overwrite bytes se.ehdr.ePhoff.toNat part)[i]? = bytes[i]? := by
  obtain ⟨within, short⟩ := part_le loads split
  apply getElem?_overwrite_outside within
  rw [InTable, ← loads.headers.ehdr_eq] at outside
  omega

/-- When the padded size stays the table stays. -/
theorem overwrite_part_same
    (same : pad4 newdata.length = pad4 se.oldDescsz) :
    overwrite bytes se.ehdr.ePhoff.toNat part = bytes := by
  rw [shiftPhdrs_of_same same, loads.table_eq] at split
  have short := (part_le loads (by
    rw [shiftPhdrs_of_same same, loads.table_eq]
    exact split)).2
  have partEq :
      part = slice bytes se.ehdr.ePhoff.toNat part.length := by
    have front := congrArg (List.take part.length) split
    rw [List.take_left, slice, List.take_take, Nat.min_eq_left short] at front
    exact front.symm
  rw [partEq]
  exact overwrite_slice _ _ _

end Parts

/-- What a failed run keeps.  As long as the file has not been cut off only
program headers can have changed, and not even they if nothing was written or
the padded size is the old one; afterwards the part in front of the note is
kept. -/
structure KeepsCore (env : Env) (bytes : List UInt8)
    (content : Option (List UInt8)) (last : Process) : Prop where
  length_eq :
    (∀ length, Change.truncated length ∉ last.changes) →
      last.elf.bytes.length = bytes.length
  outside :
    (∀ length, Change.truncated length ∉ last.changes) →
      ∀ i, ¬ InTable bytes i → last.elf.bytes[i]? = bytes[i]?
  unwritten :
    (∀ length, Change.truncated length ∉ last.changes) →
      (∀ pos data, Change.wrote pos data ∈ last.changes → data = []) →
        last.elf.bytes = bytes
  unresized :
    (∀ length, Change.truncated length ∉ last.changes) →
      ∀ se newdata, Loads bytes env.beyond se →
        readNewdata content = some newdata →
          pad4 newdata.length = pad4 se.oldDescsz → last.elf.bytes = bytes
  before :
    ∀ length, Change.truncated length ∈ last.changes →
      ∀ i, i < length → i < bytes.length → ¬ InTable bytes i →
        last.elf.bytes[i]? = bytes[i]?

theorem KeepsCore.ofSame
    {env : Env} {bytes : List UInt8} {content : Option (List UInt8)}
    {last : Process} (same : last.elf.bytes = bytes) :
    KeepsCore env bytes content last where
  length_eq := fun _ => congrArg List.length same
  outside := fun _ i _ => congrArg (·[i]?) same
  unwritten := fun _ _ => same
  unresized := fun _ _ _ _ _ _ => same
  before := fun _ _ i _ _ _ => congrArg (·[i]?) same

theorem Left.keepsCore
    {env : Env} {bytes newdata : List UInt8}
    {content : Option (List UInt8)} {last : Process}
    (left : Left env bytes newdata last)
    (read : readNewdata content = some newdata) :
    KeepsCore env bytes content last := by
  cases left with
  | untouched bytesEq changesEq => exact KeepsCore.ofSame bytesEq
  | headers se part rest loads split bytesEq changesEq =>
      obtain ⟨within, short⟩ := part_le loads split
      constructor
      case length_eq =>
        intro _
        rw [bytesEq]
        exact overwrite_length within
      case outside =>
        intro _ i out
        rw [bytesEq]
        exact overwrite_part_outside loads split out
      case unwritten =>
        intro _ nothing
        have isNil : part = [] := by
          apply nothing se.ehdr.ePhoff.toNat
          rw [changesEq]
          exact List.mem_singleton_self _
        rw [bytesEq, isNil, overwrite_nil]
      case unresized =>
        intro _ other data otherLoads otherRead same
        rw [read] at otherRead
        cases otherRead
        rw [loads.unique otherLoads] at *
        rw [bytesEq]
        exact overwrite_part_same otherLoads split same
      case before =>
        intro length cut
        rw [changesEq] at cut
        cases List.mem_singleton.mp cut
  | cut se more loads changesEq writes grown =>
      have isCut :
          Change.truncated ((se.notesStart + se.viNoteStart) % 2 ^ 64) ∈
            last.changes := by
        rw [changesEq]
        exact List.mem_cons_of_mem _ List.mem_cons_self
      constructor
      case length_eq => exact fun uncut => absurd isCut (uncut _)
      case outside => exact fun uncut => absurd isCut (uncut _)
      case unwritten => exact fun uncut => absurd isCut (uncut _)
      case unresized => exact fun uncut => absurd isCut (uncut _)
      case before =>
        intro length member i below inside out
        have cutAt :
            length = (se.notesStart + se.viNoteStart) % 2 ^ 64 := by
          rw [changesEq] at member
          rcases List.mem_cons.mp member with isWrite | member
          · cases isWrite
          rcases List.mem_cons.mp member with isCut | later
          · exact Change.truncated.inj isCut
          · exact False.elim (writes _ later)
        obtain ⟨tail, grownEq⟩ := grown
        have present : i < (withPhdrs bytes se newdata.length).length := by
          rw [withPhdrs_length loads]
          exact inside
        rw [cutAt] at below
        rw [← grownEq, List.getElem?_append_left (by
          rw [truncate_length]
          exact below), getElem?_truncate below present]
        have whole :
            Elf64Phdr.encodeTable (shiftPhdrs se newdata.length) =
              Elf64Phdr.encodeTable (shiftPhdrs se newdata.length) ++ [] :=
          (List.append_nil _).symm
        exact overwrite_part_outside loads whole out

/-- A failed run, whatever the outcome of each call, keeps the core file as far
as that is possible for an edit in place. -/
theorem editvmcoreinfo_failed
    {env : Env} {bytes : List UInt8} {content : Option (List UInt8)}
    {rv : Int} {last : Process}
    (run : main env content (Process.initial bytes) = .ok rv last)
    (failed : rv ≠ 0) : KeepsCore env bytes content last := by
  rw [main] at run
  cases read : readNewdata content with
  | none =>
      rw [read] at run
      cases run
      exact KeepsCore.ofSame rfl
  | some newdata =>
      rw [read] at run
      exact (editFile_left run failed).keepsCore read

/-- The temporary file cannot be written. -/
def fullTmpEnv : Env := { quietEnv 200 with sent := fun _ => .failure }

theorem exampleCore_fails :
    ∃ rv last,
      main fullTmpEnv (some [66, 66, 66, 66]) (Process.initial exampleCore) =
          .ok rv last ∧
        (rv != 0 && last.elf.bytes != exampleCore) = true :=
  exists_of_returnsWith (by decide +kernel)

theorem editvmcoreinfo_failed_fullTmp :
    ∃ rv last,
      main fullTmpEnv (some [66, 66, 66, 66]) (Process.initial exampleCore) =
          .ok rv last ∧
        KeepsCore fullTmpEnv exampleCore (some [66, 66, 66, 66]) last := by
  obtain ⟨rv, last, run, fails⟩ := exampleCore_fails
  rw [Bool.and_eq_true, bne_iff_ne] at fails
  exact ⟨rv, last, run, editvmcoreinfo_failed run fails.1⟩

/-- The program headers have been rewritten for a note that was not. -/
theorem editvmcoreinfo_failed_not_intact :
    ¬ ∀ (env : Env) (bytes : List UInt8) (content : Option (List UInt8))
        (rv : Int) (last : Process),
        main env content (Process.initial bytes) = .ok rv last → rv ≠ 0 →
          last.elf.bytes = bytes := by
  intro intact
  obtain ⟨rv, last, run, fails⟩ := exampleCore_fails
  rw [Bool.and_eq_true, bne_iff_ne, bne_iff_ne] at fails
  exact fails.2 (intact _ _ _ _ _ run fails.1)

end KernelStuff.Editvmcoreinfo
