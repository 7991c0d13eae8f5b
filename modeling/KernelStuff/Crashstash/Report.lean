import KernelStuff.Crashstash.Consistency

/-!
# When a write reports what it stored

A fault on a later chunk hides the chunks before it: the call returns `-EFAULT`
although `size` has grown, and the position falls behind `size` for good.  A
page left by an earlier fault makes later data land one page too far back.
-/

namespace KernelStuff.Crashstash

open KernelStuff.Library

variable {pageShift : Nat}

/-- The write reports exactly what it stored. -/
structure WriteReports (buffer : WriteBuffer) (off : Nat)
    (stash : Stash pageShift) (result : WriteResult pageShift) : Prop where
  stored : 0 ≤ result.value →
    result.stash.content =
        stash.content ++ buffer.data.take result.value.toNat ∧
      (result.off : Int) = off + result.value
  refused : result.value < 0 →
    result.stash.size = stash.size ∧ result.stash.content = stash.content

/-- A write that copies everything finds as many pages as the size asks for, and
a write that faults does so on its first chunk. -/
def WriteFaultsFirst (copy : Nat → UserCopy) (buffer : WriteBuffer) (off : Nat)
    (stash : Stash pageShift) : Prop :=
  off = stash.size → stash.size < maxSize →
    (firstFault copy (writeChunks buffer stash) = none →
      buffer.data = [] ∨ stash.pages = ceilPages pageShift stash.size) ∧
    ∀ m, firstFault copy (writeChunks buffer stash) = some m → m = 0

/-- Such a write at the end of the stash reports what it stored, and the
position ends up at the end again. -/
theorem WriteEnds.reports
    {copy : Nat → UserCopy} {buffer : WriteBuffer} {file : File}
    {stash : Stash pageShift} {result : WriteResult pageShift}
    (atEnd : file.pos = stash.size)
    (ends : WriteEnds copy buffer file.pos stash result)
    (faultsFirst : WriteFaultsFirst copy buffer file.pos stash) :
    WriteReports buffer file.pos stash result ∧
      (file.commit result.value result.off).pos = result.stash.size ∧
      result.value ≠ -EINVAL := by
  cases ends with
  | elsewhere different resultEq => exact absurd atEnd different
  | full here full resultEq =>
      rw [resultEq]
      refine ⟨⟨?_, fun _ => ⟨rfl, rfl⟩⟩, atEnd, ?_⟩
      · intro impossible
        change 0 ≤ -ENOSPC at impossible
        exact absurd impossible (by decide)
      · change -ENOSPC ≠ -EINVAL
        decide
  | complete here room copied extended offEq valueEq =>
      obtain ⟨exact, _⟩ := faultsFirst here room
      have nonneg : 0 ≤ result.value := by
        rw [valueEq]
        exact Int.natCast_nonneg _
      have taken :
          buffer.data.take result.value.toNat = buffer.stored stash := by
        rw [valueEq, Int.toNat_natCast, WriteBuffer.stored, List.length_take,
          ← List.take_eq_take_min]
      have content :
          result.stash.content = stash.content ++ buffer.stored stash := by
        rcases exact copied with empty | pagesEq
        · have nothing : buffer.stored stash = [] := by
            rw [WriteBuffer.stored, empty, List.take_nil]
          rw [nothing] at extended ⊢
          rw [extended.content_eq_of_nil.2, List.append_nil]
        · exact (extended.exact pagesEq).2
      refine ⟨⟨fun _ => ⟨?_, ?_⟩, ?_⟩, ?_, ?_⟩
      · rw [taken, content]
      · rw [offEq, extended.size_eq, valueEq, atEnd, Int.natCast_add]
      · intro negative
        omega
      · rw [File.commit, if_pos nonneg]
        exact offEq
      · rw [EINVAL]
        omega
  | torn m middle stored here room faults extended torn first later offEq
      valueEq =>
      obtain ⟨_, none⟩ := faultsFirst here room
      have nothing := first (none m faults)
      rw [nothing] at extended
      obtain ⟨size, content⟩ := extended.content_eq_of_nil
      have sameSize := torn.size_eq.trans size
      refine ⟨⟨?_, fun _ => ⟨sameSize, torn.content_eq.trans content⟩⟩, ?_, ?_⟩
      · intro impossible
        rw [valueEq] at impossible
        exact absurd impossible (by decide)
      · rw [File.commit, valueEq, if_neg (by decide), sameSize]
        exact atEnd
      · rw [valueEq]
        decide

namespace System

/-- The position of the open writer is the size of the stash. -/
def WriterAtEnd (system : System pageShift) : Prop :=
  ∀ fd file, system.files fd = some file → file.mode = .writeOnly →
    file.pos = system.stash.size

/-- The call returns; a write reports exactly what it stored and is not refused
with `-EINVAL`; and the writer is at the end afterwards. -/
def Reports (system : System pageShift) (call : Call pageShift) : Prop :=
  (∃ next reply, system.step call = .ok (next, reply) ∧ next.WriterAtEnd) ∧
    match call with
    | .write fd buffer copy fresh =>
        ∀ file, system.files fd = some file → file.mode = .writeOnly →
          ∃ result,
            crashstashWrite copy fresh buffer file.pos system.stash =
                .ok result ∧
              WriteReports buffer file.pos system.stash result ∧
              result.value ≠ -EINVAL
    | _ => True

/-- The condition on a call. -/
def FaultsFirst (system : System pageShift) : Call pageShift → Prop
  | .write fd buffer copy _ =>
      ∀ file, system.files fd = some file → file.mode = .writeOnly →
        WriteFaultsFirst copy buffer file.pos system.stash
  | _ => True

/-- The files after one of them has changed. -/
theorem WriterAtEnd.setFile
    {system : System pageShift} {fd : Nat} {file : Option File}
    {stash : Stash pageShift}
    (others : ∀ other, other ≠ fd → system.files other = none)
    (atEnd : ∀ opened, file = some opened → opened.mode = .writeOnly →
      opened.pos = stash.size) :
    (system.setFile fd file stash).WriterAtEnd := by
  intro other opened here writable
  change Function.update system.files fd file other = some opened at here
  by_cases same : other = fd
  · rw [same, Function.update_self] at here
    exact atEnd opened here writable
  · rw [Function.update_of_ne same, others other same] at here
    cases here

theorem File.commit_mode (file : File) (value : Int) (off : Nat) :
    (file.commit value off).mode = file.mode := by
  rw [File.commit]
  split <;> rfl

/-- A call that meets the condition leaves the writer at the end. -/
theorem Serves.writerAtEnd
    {system next : System pageShift} {call : Call pageShift} {reply : Reply}
    (sound : system.Sound) (atEnd : system.WriterAtEnd)
    (faultsFirst : system.FaultsFirst call)
    (serves : Serves system call next reply) :
    next.WriterAtEnd := by
  cases serves with
  | refused call value negative unwritten => exact atEnd
  | openFile fd mode suppressed free idle supported =>
      apply WriterAtEnd.setFile
      · intro other _
        cases sound.opened with
        | none _ filesEq => exact filesEq other
        | one owner file countEq _ _ _ =>
            rw [idle] at countEq
            cases countEq
      · intro opened isNew writable
        cases isNew
        generalize next : (crashstashOpen mode suppressed system.stash).1 =
          stash
        have opens := crashstashOpen_opens suppressed idle supported
        rw [next] at opens
        cases opens with
        | kept reads => exact absurd writable reads
        | cleared log writes logged => rfl
  | write fd buffer copy fresh file result here writable ends =>
      obtain ⟨_, others, _⟩ := sound.of_file here
      apply WriterAtEnd.setFile others
      intro opened isNew _
      cases isNew
      exact
        (ends.reports (atEnd fd file here writable)
          (faultsFirst file here writable)).2.1
  | read fd amt copy file last here readable run =>
      obtain ⟨_, others, _⟩ := sound.of_file here
      apply WriterAtEnd.setFile others
      intro opened isNew writable
      cases isNew
      rw [File.commit_mode, readable] at writable
      cases writable
  | release fd file here =>
      obtain ⟨_, others, _⟩ := sound.of_file here
      apply WriterAtEnd.setFile others
      intro opened isNew
      cases isNew

/-- In every run in which every write copies everything to a stash without a
stray page, or faults on its first chunk, every write reports exactly what it
stored, the writer stays at the end, and no write is refused with `-EINVAL`. -/
theorem writes_report
    (log : List LogRecord) (calls : List (Call pageShift))
    (run : Along System.step FaultsFirst (System.initial pageShift log) calls) :
    Along System.step Reports (System.initial pageShift log) calls := by
  refine
    Along.mono (fun system => system.Sound ∧ system.WriterAtEnd) ?_ ?_ ?_ run
  · rintro system call next reply ⟨sound, atEnd⟩ faultsFirst served
    have serves := serves_of_step sound served
    exact ⟨serves.sound sound, serves.writerAtEnd sound atEnd faultsFirst⟩
  · rintro system call ⟨sound, atEnd⟩ faultsFirst
    obtain ⟨next, reply, served, serves⟩ := step_serves sound call
    refine
      ⟨⟨next, reply, served, serves.writerAtEnd sound atEnd faultsFirst⟩, ?_⟩
    cases call with
    | write fd buffer copy fresh =>
        intro file here writable
        obtain ⟨result, written, ends, _⟩ :=
          step_write buffer copy fresh sound.backed here writable
        obtain ⟨reports, _, accepted⟩ :=
          ends.reports (atEnd fd file here writable)
            (faultsFirst file here writable)
        exact ⟨result, written, reports, accepted⟩
    | openFile fd mode suppressed => trivial
    | read fd amt copy => trivial
    | release fd => trivial
  · refine ⟨initial_sound log, ?_⟩
    intro fd file here
    cases here

/-- Pages of two bytes: a write goes over two of them, and the next one faults on
its first chunk. -/
def twoWrites : List (Call 1) :=
  [.openFile 0 .writeOnly false,
    .write 0 ⟨[7, 8, 9], by decide⟩ (fun _ => .complete)
      (fun _ => List.Vector.replicate _ 0),
    .write 0 ⟨[1, 2], by decide⟩ (fun _ => .fault [])
      (fun _ => List.Vector.replicate _ 0)]

/-- Where every copy faults, the first one does. -/
theorem firstFault_of_faults {left : List UInt8} {count m : Nat}
    (faults : firstFault (fun _ => .fault left) count = some m) : m = 0 := by
  cases count with
  | zero => cases faults
  | succ count =>
      rw [firstFault, List.range_succ_eq_map] at faults
      cases faults
      rfl

theorem two_writes_report :
    Along System.step Reports (System.initial 1 []) twoWrites := by
  apply writes_report
  refine ⟨trivial, ?_⟩
  intro opened openReply openServed
  cases openServed
  refine ⟨?_, ?_⟩
  · intro file here _ _ _
    refine ⟨fun _ => Or.inr (ceilPages_zero 1).symm, ?_⟩
    intro m faults
    rw [firstFault_eq_none fun _ _ => rfl] at faults
    cases faults
  · intro written reply served
    have stored :
        (((System.initial 1 []).setFile 0 (some ⟨.writeOnly, 0⟩)
          ⟨1, [], 0, 0, [.crashstash]⟩).step
            (.write 0 ⟨[7, 8, 9], by decide⟩ (fun _ => .complete)
              (fun _ => List.Vector.replicate _ 0))).toOption.map
            (fun result => (result.1.stash.size, result.1.stash.pages)) =
          some (3, 2) := by
      decide +kernel
    have same :
        some (3, 2) = some (written.stash.size, written.stash.pages) :=
      stored.symm.trans
        (congrArg
          (fun outcome => outcome.toOption.map fun result =>
            (result.1.stash.size, result.1.stash.pages))
          served)
    injection same with sizes
    injection sizes with sizeEq pagesEq
    refine ⟨?_, fun _ _ _ => trivial⟩
    intro file here _ _ _
    refine ⟨fun _ => Or.inr ?_, fun m faults => firstFault_of_faults faults⟩
    rw [← sizeEq, ← pagesEq]
    rfl

/-- A write to a stash that has just been opened. -/
def oneWrite (buffer : WriteBuffer) (copy : Nat → UserCopy) : List (Call 12) :=
  [.openFile 0 .writeOnly false,
    .write 0 buffer copy (fun _ => examplePage)]

/-! ## A hidden chunk -/

/-- One byte more than a page. -/
def overPage : WriteBuffer where
  data := List.replicate 4097 0
  bounded := by
    rw [List.length_replicate]
    decide

/-- The second page of the buffer is not mapped. -/
def secondFaults (k : Nat) : UserCopy :=
  if k = 1 then .fault [] else .complete

/-- The call returns `-EFAULT`, and a page has been stored. -/
theorem second_chunk_hidden :
    ¬ Along System.step Reports (System.initial 12 [])
      (oneWrite overPage secondFaults) := by
  rintro ⟨_, later⟩
  have opens :
      (System.initial 12 []).step (.openFile 0 .writeOnly false) =
        .ok ((System.initial 12 []).setFile 0 (some ⟨.writeOnly, 0⟩)
          ⟨1, [], 0, 0, [.crashstash]⟩, .only 0) := rfl
  obtain ⟨⟨_, writes⟩, _⟩ := later _ _ opens
  obtain ⟨result, run, reports, _⟩ := writes ⟨.writeOnly, 0⟩ rfl rfl
  have backed : (⟨1, [], 0, 0, [.crashstash]⟩ : Stash 12).Backed :=
    ⟨rfl, Nat.zero_le _, Nat.zero_le _⟩
  obtain ⟨other, otherRun, ends⟩ :=
    crashstashWrite_ends secondFaults (fun _ => examplePage) overPage 0 backed
  have same : other = result := Except.ok.inj (otherRun.symm.trans run)
  subst same
  have chunks :
      firstFault secondFaults
        (writeChunks overPage (⟨1, [], 0, 0, [.crashstash]⟩ : Stash 12)) =
        some 1 := by
    decide +kernel
  cases ends with
  | elsewhere different _ => exact different rfl
  | full _ full _ => exact absurd full (by decide)
  | complete _ _ copied _ _ _ =>
      rw [chunks] at copied
      cases copied
  | torn m middle stored _ _ faults extended torn _ later _ valueEq =>
      rw [chunks] at faults
      cases faults
      have negative : other.value < 0 := by
        rw [valueEq]
        decide
      have unchanged : other.stash.size = 0 := (reports.refused negative).1
      have grown : other.stash.size = 0 + stored.length :=
        torn.size_eq.trans extended.size_eq
      have some := List.length_pos_iff.mpr (later Nat.one_pos).1
      omega

end System

end KernelStuff.Crashstash
