import KernelStuff.Crashstash.Files

/-!
# One opener at a time

What the bounds of `crashstash_read` rest on: no writer can cut the content
while a reader holds a position in it.  The lock is spelled out only here, for
the `BUG_ON` in `crashstash_free`.
-/

namespace KernelStuff.Crashstash

open KernelStuff.Library

variable {pageShift : Nat}

/-! ## The lock -/

/-- The `BUG_ON` of `crashstash_free`, and a `mutex_lock` that never returns. -/
inductive LockFault where
  | notLocked
  | deadlock
  deriving DecidableEq

/-- `mutex_lock` on a mutex that may be locked. -/
def mutexLock (locked : Bool) : Except LockFault Bool :=
  if locked then .error .deadlock else .ok true

/-- `crashstash_free` with its check. -/
def lockedFree (locked : Bool) (stash : Stash pageShift) :
    Except LockFault (Stash pageShift) :=
  if locked = false then .error .notLocked else .ok (crashstashFree stash)

/-- `crashstash_open` with the lock spelled out.  Returns the stash, whether the
mutex is locked, and the value. -/
def lockedOpen (mode : AccMode) (suppressed locked : Bool)
    (stash : Stash pageShift) :
    Except LockFault (Stash pageShift × Bool × Int) := do
  let locked ← mutexLock locked
  if stash.count ≠ 0 then return (stash, false, -EBUSY)
  if mode = .readWrite then return (stash, false, -EINVAL)
  let stash ←
    if mode = .writeOnly then do
      let stash ← lockedFree locked stash
      pure (prInfoRatelimited suppressed stash)
    else pure stash
  return ({ stash with count := stash.count + 1 }, false, 0)

/-- Called with the mutex free, `crashstash_open` passes its check and is one
step. -/
theorem lockedOpen_eq
    (mode : AccMode) (suppressed : Bool) (stash : Stash pageShift) :
    lockedOpen mode suppressed false stash =
      .ok ((crashstashOpen mode suppressed stash).1, false,
        (crashstashOpen mode suppressed stash).2) := by
  rw [lockedOpen, crashstashOpen]
  change (if stash.count ≠ 0 then _ else _) = _
  by_cases busy : stash.count ≠ 0
  · rw [if_pos busy, if_pos busy]
    rfl
  rw [if_neg busy, if_neg busy]
  by_cases unsupported : mode = .readWrite
  · rw [if_pos unsupported, if_pos unsupported]
    rfl
  rw [if_neg unsupported, if_neg unsupported]
  by_cases writes : mode = .writeOnly
  · simp only [if_pos writes]
    rfl
  · simp only [if_neg writes]
    rfl

/-! ## Exclusive access -/

namespace System

/-- At most one file is open, `count` says whether one is, and the position of
the open file lies within the content. -/
structure Exclusive (system : System pageShift) : Prop where
  single : ∀ fd other file opened,
    system.files fd = some file → system.files other = some opened →
      fd = other
  count_le : system.stash.count ≤ 1
  count_eq_one : system.stash.count = 1 ↔ ∃ fd file, system.files fd = some file
  pos_le : ∀ fd file, system.files fd = some file →
    file.pos ≤ system.stash.size

/-- A call is answered without running into a `BUG_ON` or the list head.  What it
copies to the user lies below `size`, on pages of the list; a call of `open`
calls `crashstash_free` with the mutex locked only. -/
def AnswersSafely (system : System pageShift) (call : Call pageShift) : Prop :=
  (∃ next reply, system.step call = .ok (next, reply) ∧
    ∀ source ∈ reply.sources,
      source.1 + source.2 ≤ system.stash.size ∧
        source.1 + source.2 ≤
          system.stash.crashstash.length * pageSize pageShift) ∧
    ∀ fd mode suppressed, call = .openFile fd mode suppressed →
      ∃ stash value,
        lockedOpen mode suppressed false system.stash = .ok (stash, false, value)

theorem Sound.exclusive
    {system : System pageShift} (sound : system.Sound) : system.Exclusive where
  single := by
    intro fd other file opened here there
    by_contra different
    obtain ⟨_, others, _⟩ := sound.of_file here
    rw [others other (Ne.symm different)] at there
    cases there
  count_le := by
    cases sound.opened with
    | none countEq filesEq => omega
    | one fd file countEq fileEq others posLe => omega
  count_eq_one := by
    constructor
    · intro one
      cases sound.opened with
      | none countEq filesEq =>
          rw [countEq] at one
          cases one
      | one fd file countEq fileEq others posLe => exact ⟨fd, file, fileEq⟩
    · rintro ⟨fd, file, here⟩
      exact (sound.of_file here).1
  pos_le := fun fd file here => (sound.of_file here).2.2

/-- What a call copies to the user. -/
theorem Serves.sources_le
    {system next : System pageShift} {call : Call pageShift} {reply : Reply}
    (sound : system.Sound) (serves : Serves system call next reply) :
    ∀ source ∈ reply.sources, source.1 + source.2 ≤ system.stash.size := by
  cases serves with
  | refused call value negative unwritten =>
      exact fun source member => absurd member List.not_mem_nil
  | openFile fd mode suppressed free idle supported =>
      exact fun source member => absurd member List.not_mem_nil
  | write fd buffer copy fresh file result here writable ends =>
      exact fun source member => absurd member List.not_mem_nil
  | release fd file here =>
      exact fun source member => absurd member List.not_mem_nil
  | read fd amt copy file last here readable run =>
      obtain ⟨_, _, within⟩ := sound.of_file here
      obtain ⟨other, otherRun, sources, _⟩ :=
        crashstashRead_ends copy sound.backed within
          (Nat.le_of_lt_succ amt.isLt)
      rw [run] at otherRun
      cases otherRun
      exact sources

theorem Sound.answersSafely
    {system : System pageShift} (sound : system.Sound)
    (call : Call pageShift) : system.AnswersSafely call := by
  obtain ⟨next, reply, served, serves⟩ := step_serves sound call
  refine ⟨⟨next, reply, served, ?_⟩, ?_⟩
  · intro source member
    have below := serves.sources_le sound source member
    refine ⟨below, ?_⟩
    rw [sound.backed.entries]
    exact Nat.le_trans below sound.backed.room
  · intro fd mode suppressed _
    exact ⟨_, _, lockedOpen_eq mode suppressed system.stash⟩

/-- Whatever processes have called before, at most one file is open, and the next
call of anyone is safe. -/
theorem single_opener_safe
    (log : List LogRecord) (calls : List (Call pageShift)) :
    ∃ system replies,
      serve System.step (System.initial pageShift log) calls =
          .ok (system, replies) ∧
        system.Exclusive ∧ ∀ call, system.AnswersSafely call := by
  have answers : ∀ (system : System pageShift) (call : Call pageShift),
      system.Sound →
        ∃ next reply, system.step call = .ok (next, reply) ∧ next.Sound := by
    intro system call sound
    obtain ⟨next, reply, served, serves⟩ := step_serves sound call
    exact ⟨next, reply, served, serves.sound sound⟩
  obtain ⟨system, replies, run, sound⟩ :=
    serve_total System.Sound answers calls (initial_sound log)
  exact ⟨system, replies, run, sound.exclusive, sound.answersSafely⟩

end System

end KernelStuff.Crashstash
