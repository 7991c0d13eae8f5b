import KernelStuff.Crashstash.Files

/-!
# When the metadata stays consistent

A write that faults right after it has taken a new page leaves that page in the
list, and `get_crashstash` refuses the core.  This is the only way to lose
consistency.
-/

namespace KernelStuff.Crashstash

open KernelStuff.Library

variable {pageShift : Nat}

/-- If a chunk of the write faults, it is one that goes to the page the content
ends in. -/
def WriteKeepsPages (copy : Nat → UserCopy) (buffer : WriteBuffer) (off : Nat)
    (stash : Stash pageShift) : Prop :=
  off = stash.size → stash.size < maxSize →
    ∀ m, firstFault copy (writeChunks buffer stash) = some m →
      m = 0 ∧ stash.size % pageSize pageShift ≠ 0

theorem Torn.consistent_iff {s t : Stash pageShift}
    (exact : s.pages = ceilPages pageShift s.size) (torn : Torn s t) :
    t.Consistent ↔ s.size % pageSize pageShift ≠ 0 := by
  have pagesEq := torn.pages_eq
  constructor
  · intro consistent aligned
    have after := consistent.pages_eq
    rw [if_pos aligned, exact] at pagesEq
    rw [torn.size_eq] at after
    omega
  · intro inside
    refine ⟨torn.backed.entries, ?_, torn.backed.size_le⟩
    rw [pagesEq, if_neg inside, torn.size_eq, exact, Nat.add_zero]

/-- What one write does to the metadata. -/
theorem WriteEnds.consistent_iff
    {copy : Nat → UserCopy} {buffer : WriteBuffer} {off : Nat}
    {stash : Stash pageShift} {result : WriteResult pageShift}
    (consistent : stash.Consistent)
    (ends : WriteEnds copy buffer off stash result) :
    result.stash.Consistent ↔ WriteKeepsPages copy buffer off stash := by
  cases ends with
  | elsewhere different resultEq =>
      rw [resultEq]
      exact ⟨fun _ atEnd => absurd atEnd different, fun _ => consistent⟩
  | full atEnd full resultEq =>
      rw [resultEq]
      exact
        ⟨fun _ _ room => absurd room (Nat.not_lt_of_le full),
          fun _ => consistent⟩
  | complete atEnd room copied extended offEq valueEq =>
      constructor
      · intro _ _ _ m faults
        rw [copied] at faults
        cases faults
      · intro _
        obtain ⟨entries, _, sizeLe⟩ := extended.backed
        exact ⟨entries, (extended.exact consistent.pages_eq).1, sizeLe⟩
  | torn m middle stored atEnd room faults extended torn first later offEq
      valueEq =>
      rw [torn.consistent_iff (extended.exact consistent.pages_eq).1]
      have keepsIff :
          WriteKeepsPages copy buffer off stash ↔
            m = 0 ∧ stash.size % pageSize pageShift ≠ 0 := by
        constructor
        · intro keeps
          exact keeps atEnd room m faults
        · intro here _ _ other otherFaults
          rw [faults] at otherFaults
          cases otherFaults
          exact here
      rw [keepsIff]
      rcases Nat.eq_zero_or_pos m with none | some
      · have same := extended.size_eq
        rw [first none, List.length_nil, Nat.add_zero] at same
        rw [same]
        exact ⟨fun inside => ⟨none, inside⟩, And.right⟩
      · constructor
        · intro inside
          exact absurd (later some).2 inside
        · rintro ⟨none, _⟩
          omega

theorem Opens.consistent {stash next : Stash pageShift} {mode : AccMode}
    (consistent : stash.Consistent) (opens : Opens stash mode next) :
    next.Consistent := by
  cases opens with
  | kept reads =>
      obtain ⟨entries, pagesEq, sizeLe⟩ := consistent
      exact ⟨entries, pagesEq, sizeLe⟩
  | cleared log writes logged =>
      exact ⟨rfl, (ceilPages_zero pageShift).symm, Nat.zero_le _⟩

namespace System

/-- The call returns, and leaves the metadata consistent. -/
def StaysConsistent (system : System pageShift) (call : Call pageShift) :
    Prop :=
  ∃ next reply, system.step call = .ok (next, reply) ∧ next.stash.Consistent

/-- The condition on a call: a write that gets to copying keeps the pages. -/
def KeepsPages (system : System pageShift) : Call pageShift → Prop
  | .write fd buffer copy _ =>
      ∀ file, system.files fd = some file → file.mode = .writeOnly →
        WriteKeepsPages copy buffer file.pos system.stash
  | _ => True

/-- Only a write can spoil the metadata. -/
theorem staysConsistent_iff
    {system : System pageShift} (sound : system.Sound)
    (consistent : system.stash.Consistent) (call : Call pageShift) :
    system.StaysConsistent call ↔ system.KeepsPages call := by
  obtain ⟨next, reply, served, serves⟩ := step_serves sound call
  have staysIff :
      system.StaysConsistent call ↔ next.stash.Consistent := by
    constructor
    · rintro ⟨other, otherReply, run, stays⟩
      rw [served] at run
      cases run
      exact stays
    · exact fun stays => ⟨next, reply, served, stays⟩
  rw [staysIff]
  cases serves with
  | openFile fd mode suppressed free idle supported =>
      exact
        ⟨fun _ => trivial,
          fun _ => (crashstashOpen_opens suppressed idle supported).consistent
            consistent⟩
  | refused call value negative unwritten =>
      refine ⟨fun _ => ?_, fun _ => consistent⟩
      cases call with
      | write fd buffer copy fresh =>
          intro file here writable
          exact absurd writable (unwritten fd file rfl here)
      | openFile fd mode suppressed => trivial
      | read fd amt copy => trivial
      | release fd => trivial
  | write fd buffer copy fresh file result here writable ends =>
      change result.stash.Consistent ↔ _
      rw [ends.consistent_iff consistent]
      constructor
      · intro keeps other found _
        rw [here] at found
        cases found
        exact keeps
      · intro keeps
        exact keeps file here writable
  | read fd amt copy file last here readable run =>
      exact ⟨fun _ => trivial, fun _ => consistent⟩
  | release fd file here =>
      obtain ⟨entries, pagesEq, sizeLe⟩ := consistent
      exact ⟨fun _ => trivial, fun _ => ⟨entries, pagesEq, sizeLe⟩⟩

theorem initial_consistent (log : List LogRecord) :
    (System.initial pageShift log).stash.Consistent :=
  ⟨rfl, (ceilPages_zero pageShift).symm, Nat.zero_le _⟩

/-- In every run the metadata is consistent after each call exactly if no write
of the run faults on a page it has just taken. -/
theorem stays_consistent_iff
    (log : List LogRecord) (calls : List (Call pageShift)) :
    Along System.step StaysConsistent (System.initial pageShift log) calls ↔
      Along System.step KeepsPages (System.initial pageShift log) calls := by
  apply along_congr fun system => system.Sound ∧ system.stash.Consistent
  · rintro system call next reply ⟨sound, consistent⟩ keeps served
    obtain ⟨other, otherReply, run, stays⟩ :=
      (staysConsistent_iff sound consistent call).mpr keeps
    rw [served] at run
    cases run
    exact ⟨(serves_of_step sound served).sound sound, stays⟩
  · rintro system call ⟨sound, consistent⟩
    exact staysConsistent_iff sound consistent call
  · exact ⟨initial_sound log, initial_consistent log⟩

/-! ## A page too many -/

def examplePage : Page 12 := List.Vector.replicate _ 0

/-- The stash is opened, and the first write faults. -/
def tornCalls : List (Call 12) :=
  [.openFile 0 .writeOnly false,
    .write 0 ⟨[0], by decide⟩ (fun _ => .fault []) (fun _ => examplePage)]

/-- One page is left for a size of 0. -/
theorem first_write_torn :
    ¬ Along System.step StaysConsistent (System.initial 12 []) tornCalls := by
  intro stays
  have opens :
      (System.initial 12 []).step (.openFile 0 .writeOnly false) =
        .ok ((System.initial 12 []).setFile 0 (some ⟨.writeOnly, 0⟩)
          ⟨1, [], 0, 0, [.crashstash]⟩, .only 0) := rfl
  obtain ⟨openStays, later⟩ := stays
  obtain ⟨writeStays, _⟩ := later _ _ opens
  have sound := (serves_of_step (initial_sound []) opens).sound
    (initial_sound [])
  have consistent :
      (⟨1, [], 0, 0, [.crashstash]⟩ : Stash 12).Consistent :=
    ⟨rfl, (ceilPages_zero 12).symm, Nat.zero_le _⟩
  have keeps := (staysConsistent_iff sound consistent _).mp writeStays
  have inside :=
    (keeps ⟨.writeOnly, 0⟩ rfl rfl rfl (by decide) 0 (by decide)).2
  exact inside rfl

end System

end KernelStuff.Crashstash
