import KernelStuff.Crashstash.Consistency

/-!
# What is stashed is what is retrieved

Without faults the stash is a log with a capacity: a write appends what still
fits, a read returns the next part, and the core holds all of it.
-/

namespace KernelStuff.Crashstash

open KernelStuff.Library

variable {pageShift : Nat}

/-- The bytes of a list of buffers that fit into the stash. -/
def stashed (buffers : List WriteBuffer) : List UInt8 :=
  (buffers.flatMap fun buffer => buffer.data).take maxSize

/-- What the writes of a list of buffers return after `before` bytes have been
offered: the number of bytes that fit, or `-ENOSPC`. -/
def writeValues : Nat → List WriteBuffer → List Int
  | _, [] => []
  | before, buffer :: rest =>
      (if maxSize ≤ before then -ENOSPC
        else ((min buffer.data.length (maxSize - before) : Nat) : Int)) ::
        writeValues (before + buffer.data.length) rest

/-- No user copy of the call faults. -/
def noFault (_ : Nat) : UserCopy := .complete

theorem firstFault_noFault (count : Nat) : firstFault noFault count = none :=
  firstFault_eq_none fun _ _ => rfl

/-- The stash holds what fits of `offered`, and a core of it can be read. -/
structure Stash.Keeps (stash : Stash pageShift) (offered : List UInt8) :
    Prop where
  consistent : stash.Consistent
  logged : LogRecord.crashstash ∈ stash.log
  content_eq : stash.content = offered.take maxSize

namespace System

/-- The one open file is `fd`, and the stash holds what fits of `offered`. -/
structure Holds (system : System pageShift) (fd : Nat) (mode : AccMode)
    (pos : Nat) (offered : List UInt8) : Prop where
  sound : system.Sound
  file_eq : system.files fd = some ⟨mode, pos⟩
  keeps : system.stash.Keeps offered

theorem Holds.size_eq
    {system : System pageShift} {fd : Nat} {mode : AccMode} {pos : Nat}
    {offered : List UInt8} (holds : system.Holds fd mode pos offered) :
    system.stash.size = min maxSize offered.length := by
  rw [← holds.sound.backed.content_length, holds.keeps.content_eq,
    List.length_take]

/-- One write of the writer. -/
theorem Holds.write
    {system : System pageShift} {fd : Nat} {offered : List UInt8}
    (holds : system.Holds fd .writeOnly system.stash.size offered)
    (buffer : WriteBuffer) (fresh : Nat → Page pageShift) :
    ∃ next,
      system.step (.write fd buffer noFault fresh) =
          .ok (next, .only
            (if maxSize ≤ offered.length then -ENOSPC
              else ((min buffer.data.length (maxSize - offered.length) : Nat) :
                Int))) ∧
        next.Holds fd .writeOnly next.stash.size (offered ++ buffer.data) := by
  have sizeEq := holds.size_eq
  obtain ⟨consistent, logged, contentIs⟩ := holds.keeps
  obtain ⟨result, run, ends, served⟩ :=
    step_write buffer noFault fresh holds.sound.backed holds.file_eq rfl
  have sound := (serves_of_step holds.sound served).sound holds.sound
  cases ends with
  | elsewhere different _ => exact absurd rfl different
  | full _ full resultEq =>
      have whole : maxSize ≤ offered.length := by omega
      rw [resultEq] at served sound
      refine ⟨_, ?_, sound, ?_, consistent, logged, ?_⟩
      · rw [served, if_pos whole]
      · exact Function.update_self _ _ _
      · change system.stash.content = _
        rw [contentIs, List.take_append_of_le_length whole]
  | torn m middle stored _ _ faults _ _ _ _ _ _ =>
      rw [firstFault_noFault] at faults
      cases faults
  | complete _ room _ extended offEq valueEq =>
      have part : ¬ maxSize ≤ offered.length := by omega
      have sizeIs : system.stash.size = offered.length := by omega
      have amount := writeAmount_eq buffer consistent.size_le
      obtain ⟨pagesEq, contentEq⟩ := extended.exact consistent.pages_eq
      have stored :
          buffer.stored system.stash =
            buffer.data.take (maxSize - offered.length) := by
        rw [WriteBuffer.stored, amount, sizeIs, Nat.min_comm,
          ← List.take_eq_take_min]
      have value :
          result.value =
            ((min buffer.data.length (maxSize - offered.length) : Nat) :
              Int) := by
        rw [valueEq, WriteBuffer.stored, List.length_take, amount, sizeIs]
        omega
      refine
        ⟨_, ?_, sound, ?_,
          ⟨extended.backed.entries, pagesEq, extended.backed.size_le⟩, ?_, ?_⟩
      · rw [served, if_neg part, value]
      · change Function.update system.files fd _ fd = _
        rw [Function.update_self, File.commit, if_pos, offEq]
        · rfl
        · rw [valueEq]
          exact Int.natCast_nonneg _
      · change _ ∈ result.stash.log
        rw [extended.log_eq]
        exact logged
      · change result.stash.content = _
        rw [contentEq, contentIs, stored, List.take_append,
          List.take_of_length_le (Nat.le_of_not_le part)]

/-- All writes of the writer. -/
theorem Holds.writes (fd : Nat) :
    ∀ (requests : List (WriteBuffer × (Nat → Page pageShift)))
      {system : System pageShift} {offered : List UInt8},
      system.Holds fd .writeOnly system.stash.size offered →
        ∃ last,
          serve System.step system
              (requests.map fun request =>
                .write fd request.1 noFault request.2) =
            .ok (last,
              (writeValues offered.length
                (requests.map Prod.fst)).map Reply.only) ∧
            last.Holds fd .writeOnly last.stash.size
              (offered ++ (requests.map Prod.fst).flatMap fun buffer =>
                buffer.data)
  | [], system, offered, holds => by
      refine ⟨system, rfl, ?_⟩
      rw [List.map_nil, List.flatMap_nil, List.append_nil]
      exact holds
  | (buffer, fresh) :: rest, system, offered, holds => by
      obtain ⟨next, served, holdsNext⟩ := holds.write buffer fresh
      obtain ⟨last, run, holdsLast⟩ := Holds.writes fd rest holdsNext
      rw [List.length_append] at run
      rw [List.append_assoc] at holdsLast
      exact ⟨last, serve_cons served run, holdsLast⟩

/-- Opening for writing starts an empty stash. -/
theorem holds_of_open
    {system opened : System pageShift} {fd : Nat} {suppressed : Bool}
    (sound : system.Sound)
    (opens : system.step (.openFile fd .writeOnly suppressed) =
      .ok (opened, .only 0)) :
    opened.Holds fd .writeOnly opened.stash.size [] := by
  have serves := serves_of_step sound opens
  have openedSound := serves.sound sound
  generalize replied : Reply.only 0 = reply at serves
  cases serves with
  | refused call value negative unwritten =>
      have zero : (0 : Int) = value := congrArg Reply.value replied
      omega
  | openFile fd mode suppressed free idle supported =>
      have emptied := crashstashOpen_opens suppressed idle supported
      generalize (crashstashOpen .writeOnly suppressed system.stash).1 = stash
        at emptied openedSound
      cases emptied with
      | kept reads => exact absurd rfl reads
      | cleared log writes logged =>
          refine
            ⟨openedSound, Function.update_self _ _ _,
              ⟨rfl, (ceilPages_zero pageShift).symm, Nat.zero_le _⟩, logged, ?_⟩
          rfl

/-! ## Reading it back -/

/-- Releasing the file keeps the stash. -/
theorem Holds.release
    {system : System pageShift} {fd : Nat} {mode : AccMode} {pos : Nat}
    {offered : List UInt8} (holds : system.Holds fd mode pos offered) :
    ∃ next,
      system.step (.release fd) = .ok (next, .only 0) ∧ next.Sound ∧
        next.stash.count = 0 ∧ (∀ other, next.files other = none) ∧
        next.stash.Keeps offered := by
  obtain ⟨one, others, _⟩ := holds.sound.of_file holds.file_eq
  have served :
      system.step (.release fd) =
        .ok (system.setFile fd none { system.stash with count := 0 },
          .only 0) := by
    rw [step]
    simp only [holds.file_eq, crashstashRelease, one]
    rfl
  have serves := serves_of_step holds.sound served
  obtain ⟨⟨entries, pagesEq, sizeLe⟩, logged, contentIs⟩ := holds.keeps
  refine
    ⟨_, served, serves.sound holds.sound, rfl, ?_,
      ⟨entries, pagesEq, sizeLe⟩, logged, contentIs⟩
  intro other
  change Function.update system.files fd none other = none
  by_cases same : other = fd
  · rw [same, Function.update_self]
  · rw [Function.update_of_ne same]
    exact others other same

/-- Opening for reading keeps the stash. -/
theorem reopen
    {system : System pageShift} {offered : List UInt8} (fd : Nat)
    (suppressed : Bool) (sound : system.Sound)
    (idle : system.stash.count = 0)
    (free : ∀ other, system.files other = none)
    (keeps : system.stash.Keeps offered) :
    ∃ next,
      system.step (.openFile fd .readOnly suppressed) =
          .ok (next, .only 0) ∧
        next.Holds fd .readOnly 0 offered := by
  have supported : AccMode.readOnly ≠ .readWrite := by decide
  have served := step_openFile suppressed (free fd) idle supported
  have opens := crashstashOpen_opens suppressed idle supported
  obtain ⟨⟨entries, pagesEq, sizeLe⟩, logged, contentIs⟩ := keeps
  generalize (crashstashOpen .readOnly suppressed system.stash).1 = stash
    at opens served
  cases opens with
  | cleared log writes _ => cases writes
  | kept reads =>
      exact
        ⟨_, served, (serves_of_step sound served).sound sound,
          Function.update_self _ _ _, ⟨entries, pagesEq, sizeLe⟩, logged,
          contentIs⟩

/-- One read of the reader. -/
theorem Holds.read
    {system : System pageShift} {fd pos : Nat} {offered : List UInt8}
    (holds : system.Holds fd .readOnly pos offered)
    (amt : Fin (intMax + 1)) :
    ∃ next reply,
      system.step (.read fd amt noFault) = .ok (next, reply) ∧
        reply.data = ((offered.take maxSize).drop pos).take amt.val ∧
        reply.value = reply.data.length ∧
        next.Holds fd .readOnly (pos + reply.data.length) offered := by
  obtain ⟨_, _, within⟩ := holds.sound.of_file holds.file_eq
  obtain ⟨last, run, _, _, ends⟩ :=
    crashstashRead_ends noFault holds.sound.backed within
      (Nat.le_of_lt_succ amt.isLt)
  have served :
      system.step (.read fd amt noFault) =
        .ok (system.setFile fd
          (some ((⟨.readOnly, pos⟩ : File).commit last.read last.off))
          system.stash, ⟨last.read, last.data, last.sources⟩) := by
    rw [step]
    simp only [holds.file_eq, if_true, run]
    rfl
  have sound := (serves_of_step holds.sound served).sound holds.sound
  rcases ends with ⟨dataEq, offEq, readEq⟩ | ⟨⟨j, faults⟩, _⟩
  · refine ⟨_, _, served, ?_, readEq, sound, ?_, holds.keeps⟩
    · rw [← holds.keeps.content_eq]
      exact dataEq
    · change Function.update system.files fd _ fd = _
      rw [Function.update_self, File.commit, if_pos, offEq]
      rw [readEq]
      exact Int.natCast_nonneg _
  · cases faults

theorem drop_length_take (l : List UInt8) (n : Nat) :
    l.drop (l.take n).length = l.drop n := by
  rw [List.length_take]
  by_cases within : n ≤ l.length
  · rw [Nat.min_eq_left within]
  · rw [Nat.min_eq_right (Nat.le_of_not_le within), List.drop_length,
      List.drop_of_length_le (Nat.le_of_not_le within)]

/-- All reads of the reader. -/
theorem Holds.reads (fd : Nat) (offered : List UInt8) :
    ∀ (amounts : List (Fin (intMax + 1))) {system : System pageShift}
      {pos : Nat},
      system.Holds fd .readOnly pos offered →
        ∃ last replies,
          serve System.step system
              (amounts.map fun amt => .read fd amt noFault) =
            .ok (last, replies) ∧
            (replies.flatMap fun reply => reply.data) =
              ((offered.take maxSize).drop pos).take
                (amounts.map Fin.val).sum ∧
            (∀ reply ∈ replies, reply.value = reply.data.length) ∧
            last.Holds fd .readOnly
              (pos + (replies.flatMap fun reply => reply.data).length) offered
  | [], system, pos, holds => by
      refine ⟨system, [], rfl, ?_, ?_, ?_⟩
      · rw [List.map_nil, List.sum_nil, List.take_zero, List.flatMap_nil]
      · intro reply member
        cases member
      · exact holds
  | amt :: rest, system, pos, holds => by
      obtain ⟨next, reply, served, dataEq, valueEq, holdsNext⟩ :=
        holds.read amt
      obtain ⟨last, replies, run, dataRest, valuesRest, holdsLast⟩ :=
        Holds.reads fd offered rest holdsNext
      refine ⟨last, reply :: replies, serve_cons served run, ?_, ?_, ?_⟩
      · rw [List.flatMap_cons, dataRest, List.map_cons, List.sum_cons,
          List.take_add, ← List.drop_drop, dataEq, drop_length_take]
      · intro other member
        rcases List.mem_cons.mp member with same | later
        · rw [same]
          exact valueEq
        · exact valuesRest other later
      · rw [List.flatMap_cons, List.length_append, ← Nat.add_assoc]
        exact holdsLast

/-- From any state of the system: what is written through one writer is what its
readers return, in parts of any sizes, and what is retrieved from a core. -/
theorem stash_round_trip
    {log : List LogRecord} {before : List (Call pageShift)}
    {replies : List Reply} {system opened : System pageShift} {fd : Nat}
    {suppressed : Bool}
    (reached : serve System.step (System.initial pageShift log) before =
      .ok (system, replies))
    (opens : system.step (.openFile fd .writeOnly suppressed) =
      .ok (opened, .only 0))
    (requests : List (WriteBuffer × (Nat → Page pageShift))) :
    ∃ written released,
      serve System.step opened
          (requests.map fun request =>
            .write fd request.1 noFault request.2) =
        .ok (written,
          (writeValues 0 (requests.map Prod.fst)).map Reply.only) ∧
      written.step (.release fd) = .ok (released, .only 0) ∧
      getCrashstash released.stash =
        .ok (stashed (requests.map Prod.fst)) ∧
      ∀ reader again, ∃ reopened,
        released.step (.openFile reader .readOnly again) =
          .ok (reopened, .only 0) ∧
        ∀ amounts : List (Fin (intMax + 1)), ∃ last readReplies,
          serve System.step reopened
              (amounts.map fun amt => .read reader amt noFault) =
            .ok (last, readReplies) ∧
          (readReplies.flatMap fun reply => reply.data) =
            (stashed (requests.map Prod.fst)).take
              (amounts.map Fin.val).sum ∧
          (∀ reply ∈ readReplies, reply.value = reply.data.length) ∧
          ∀ (amt : Fin (intMax + 1)) (next : System pageShift) (reply : Reply),
            0 < amt.val →
              last.step (.read reader amt noFault) = .ok (next, reply) →
                reply.value = 0 →
                  (readReplies.flatMap fun reply => reply.data) =
                    stashed (requests.map Prod.fst) := by
  have sound : system.Sound :=
    serve_invariant System.Sound
      (fun _ _ _ _ sound served => (serves_of_step sound served).sound sound)
      (initial_sound log) reached
  obtain ⟨written, writes, holdsWritten⟩ :=
    (holds_of_open sound opens).writes fd requests
  rw [List.nil_append] at holdsWritten
  obtain ⟨released, releases, releasedSound, idle, free, keeps⟩ :=
    holdsWritten.release
  refine ⟨written, released, writes, releases, ?_, ?_⟩
  · rw [getCrashstash_eq keeps.consistent keeps.logged, keeps.content_eq]
    rfl
  intro reader again
  obtain ⟨reopened, reopens, holdsRead⟩ :=
    reopen reader again releasedSound idle free keeps
  refine ⟨reopened, reopens, ?_⟩
  intro amounts
  obtain ⟨last, readReplies, reads, dataEq, values, holdsLast⟩ :=
    Holds.reads reader _ amounts holdsRead
  rw [List.drop_zero] at dataEq
  change _ = (stashed (requests.map Prod.fst)).take _ at dataEq
  refine ⟨last, readReplies, reads, dataEq, values, ?_⟩
  intro amt next reply positive served zero
  obtain ⟨other, otherReply, otherServed, partEq, valueEq, _⟩ :=
    holdsLast.read amt
  rw [served] at otherServed
  cases otherServed
  -- Nothing is left behind the position, so everything has been read.
  have nothing : reply.data.length = 0 := by omega
  change _ = ((stashed (requests.map Prod.fst)).drop _).take _ at partEq
  rw [partEq, List.length_take, List.length_drop, dataEq, List.length_take]
    at nothing
  rw [dataEq]
  apply List.take_of_length_le
  omega

/-- Three bytes in two writes, retrieved from a core. -/
theorem three_bytes_round_trip :
    ∃ (opened written released : System 12) (replies : List Reply),
      (System.initial 12 []).step (.openFile 0 .writeOnly false) =
          .ok (opened, .only 0) ∧
        serve System.step opened
            [.write 0 ⟨[1, 2], by decide⟩ noFault (fun _ => examplePage),
              .write 0 ⟨[3], by decide⟩ noFault (fun _ => examplePage)] =
          .ok (written, replies) ∧
        written.step (.release 0) = .ok (released, .only 0) ∧
        getCrashstash released.stash = .ok [1, 2, 3] := by
  have reached :
      serve System.step (System.initial 12 []) [] =
        .ok (System.initial 12 [], []) := rfl
  have opens :
      (System.initial 12 []).step (.openFile 0 .writeOnly false) =
        .ok ((System.initial 12 []).setFile 0 (some ⟨.writeOnly, 0⟩)
          ⟨1, [], 0, 0, [.crashstash]⟩, .only 0) := rfl
  obtain ⟨written, released, writes, releases, core, _⟩ :=
    stash_round_trip reached opens
      [(⟨[1, 2], by decide⟩, fun _ => examplePage),
        (⟨[3], by decide⟩, fun _ => examplePage)]
  exact ⟨_, written, released, _, opens, writes, releases, core⟩

end System

end KernelStuff.Crashstash
