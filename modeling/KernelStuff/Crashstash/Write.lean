import KernelStuff.Crashstash.Stash

/-!
# What one write does

`Extends bytes s t` says everything about the chunks that were copied, `Torn s t`
everything about the chunk that was not.  The loop of `crashstash_write` is a
run of the first kind, possibly ended by one step of the second kind.
-/

namespace KernelStuff.Crashstash

open KernelStuff.Library

variable {pageShift : Nat}

/-- The stash content: the first `size` bytes of the pages. -/
def Stash.content (stash : Stash pageShift) : List UInt8 :=
  (items stash.crashstash).take stash.size

/-- What holds at all times: `pages` counts the list, and the list has room for
`size` bytes. -/
structure Stash.Backed (stash : Stash pageShift) : Prop where
  entries : stash.crashstash.length = stash.pages
  room : stash.size ≤ stash.pages * pageSize pageShift
  size_le : stash.size ≤ maxSize

/-- The metadata `get_crashstash` accepts. -/
structure Stash.Consistent (stash : Stash pageShift) : Prop where
  entries : stash.crashstash.length = stash.pages
  pages_eq : stash.pages = ceilPages pageShift stash.size
  size_le : stash.size ≤ maxSize

theorem pageSize_pos (pageShift : Nat) : 0 < pageSize pageShift :=
  Nat.two_pow_pos pageShift

/-! ## Page arithmetic -/

theorem ceilPages_zero (pageShift : Nat) : ceilPages pageShift 0 = 0 := by
  rw [ceilPages, Nat.zero_add]
  exact Nat.div_eq_of_lt (Nat.sub_lt (pageSize_pos pageShift) Nat.one_pos)

/-- `q` full pages and a part of another one. -/
theorem ceilPages_of_part
    {size q r : Nat} (size_eq : size = q * pageSize pageShift + r)
    (some : 0 < r) (within : r ≤ pageSize pageShift) :
    ceilPages pageShift size = q + 1 := by
  have split :
      size + (pageSize pageShift - 1) =
        (r - 1) + (q + 1) * pageSize pageShift := by
    rw [size_eq, Nat.succ_mul]
    omega
  rw [ceilPages, split, Nat.add_mul_div_right _ _ (pageSize_pos pageShift),
    Nat.div_eq_of_lt (by omega), Nat.zero_add]

theorem ceilPages_of_mod_eq_zero
    {size : Nat} (aligned : size % pageSize pageShift = 0) :
    ceilPages pageShift size = size / pageSize pageShift := by
  have split := Nat.div_add_mod size (pageSize pageShift)
  have positive := pageSize_pos pageShift
  rw [ceilPages]
  nth_rewrite 1 [← split]
  rw [aligned, Nat.add_zero, Nat.mul_add_div positive,
    Nat.div_eq_of_lt (Nat.sub_lt positive Nat.one_pos), Nat.add_zero]

theorem ceilPages_of_mod_ne_zero
    {size : Nat} (inside : size % pageSize pageShift ≠ 0) :
    ceilPages pageShift size = size / pageSize pageShift + 1 := by
  apply ceilPages_of_part (r := size % pageSize pageShift)
  · rw [Nat.mul_comm]
    exact (Nat.div_add_mod size _).symm
  · omega
  · exact Nat.le_of_lt (Nat.mod_lt _ (pageSize_pos pageShift))

theorem le_ceilPages_mul (pageShift size : Nat) :
    size ≤ ceilPages pageShift size * pageSize pageShift := by
  have split := Nat.div_add_mod size (pageSize pageShift)
  have bound := Nat.mod_lt size (pageSize_pos pageShift)
  rw [Nat.mul_comm] at split
  by_cases aligned : size % pageSize pageShift = 0
  · rw [ceilPages_of_mod_eq_zero aligned]
    omega
  · rw [ceilPages_of_mod_ne_zero aligned, Nat.succ_mul]
    omega

theorem Stash.Consistent.backed {stash : Stash pageShift}
    (consistent : stash.Consistent) : stash.Backed where
  entries := consistent.entries
  room := by
    rw [consistent.pages_eq]
    exact le_ceilPages_mul pageShift stash.size
  size_le := consistent.size_le

/-- The chunks of a write of `amt` bytes at `off`. -/
def chunkCount (pageShift off amt : Nat) : Nat :=
  if amt = 0 then 0
  else ceilPages pageShift (off % pageSize pageShift + amt)

theorem chunkAmt_pos (pageShift off : Nat) {amt : Nat} (more : amt ≠ 0) :
    0 < chunkAmt pageShift off amt := by
  have bound := Nat.mod_lt off (pageSize_pos pageShift)
  rw [chunkAmt]
  omega

theorem chunkAmt_le (pageShift off amt : Nat) :
    chunkAmt pageShift off amt ≤ amt :=
  Nat.min_le_left _ _

theorem chunkAmt_fits (pageShift off amt : Nat) :
    off % pageSize pageShift + chunkAmt pageShift off amt ≤
      pageSize pageShift := by
  have bound := Nat.mod_lt off (pageSize_pos pageShift)
  rw [chunkAmt]
  omega

/-- If something is left after a chunk, the chunk ended at a page boundary. -/
theorem chunkAmt_whole {off amt : Nat}
    (more : amt - chunkAmt pageShift off amt ≠ 0) :
    off + chunkAmt pageShift off amt =
      pageSize pageShift * (off / pageSize pageShift + 1) := by
  have bound := Nat.mod_lt off (pageSize_pos pageShift)
  have split := Nat.div_add_mod off (pageSize pageShift)
  have fills :
      off % pageSize pageShift + chunkAmt pageShift off amt =
        pageSize pageShift := by
    rw [chunkAmt] at more ⊢
    omega
  rw [Nat.mul_add, Nat.mul_one]
  omega

theorem chunkAmt_aligned {off amt : Nat}
    (more : amt - chunkAmt pageShift off amt ≠ 0) :
    (off + chunkAmt pageShift off amt) % pageSize pageShift = 0 := by
  rw [chunkAmt_whole more]
  exact Nat.mul_mod_right _ _

theorem chunkCount_step (pageShift off : Nat) {amt : Nat} (more : amt ≠ 0) :
    chunkCount pageShift off amt =
      chunkCount pageShift (off + chunkAmt pageShift off amt)
        (amt - chunkAmt pageShift off amt) + 1 := by
  have bound := Nat.mod_lt off (pageSize_pos pageShift)
  have positive := chunkAmt_pos pageShift off more
  by_cases last : amt - chunkAmt pageShift off amt = 0
  · have fits := chunkAmt_fits pageShift off amt
    have whole := chunkAmt_le pageShift off amt
    rw [chunkCount, chunkCount, if_neg more, if_pos last]
    apply ceilPages_of_part (q := 0)
    · rw [Nat.zero_mul, Nat.zero_add]
    · omega
    · omega
  · have aligned := chunkAmt_aligned last
    have taken :
        off % pageSize pageShift + amt =
          (amt - chunkAmt pageShift off amt) + pageSize pageShift := by
      rw [chunkAmt] at last ⊢
      omega
    rw [chunkCount, chunkCount, if_neg more, if_neg last, aligned, taken,
      Nat.zero_add, ceilPages, ceilPages, Nat.add_right_comm,
      Nat.add_div_right _ (pageSize_pos pageShift)]

/-! ## Chunks -/

/-- `t` is `s` with `bytes` written behind its content. -/
structure Extends (bytes : List UInt8) (s t : Stash pageShift) : Prop where
  backed : t.Backed
  size_eq : t.size = s.size + bytes.length
  count_eq : t.count = s.count
  log_eq : t.log = s.log
  kept : t.content.take s.size = s.content
  exact : s.pages = ceilPages pageShift s.size →
    t.pages = ceilPages pageShift t.size ∧ t.content = s.content ++ bytes

theorem Extends.refl {s : Stash pageShift} (backed : s.Backed) :
    Extends [] s s where
  backed := backed
  size_eq := rfl
  count_eq := rfl
  log_eq := rfl
  kept := by rw [Stash.content, List.take_take, Nat.min_self]
  exact := fun pagesEq => ⟨pagesEq, (List.append_nil _).symm⟩

theorem Extends.trans {first second : List UInt8} {s t u : Stash pageShift}
    (left : Extends first s t) (right : Extends second t u) :
    Extends (first ++ second) s u where
  backed := right.backed
  size_eq := by
    rw [right.size_eq, left.size_eq, List.length_append, Nat.add_assoc]
  count_eq := right.count_eq.trans left.count_eq
  log_eq := right.log_eq.trans left.log_eq
  kept := by
    have within : s.size ≤ t.size := by
      rw [left.size_eq]
      exact Nat.le_add_right _ _
    rw [← left.kept, ← right.kept, List.take_take, Nat.min_eq_left within]
  exact := by
    intro pagesEq
    obtain ⟨middlePages, middleContent⟩ := left.exact pagesEq
    obtain ⟨pages, content⟩ := right.exact middlePages
    refine ⟨pages, ?_⟩
    rw [content, middleContent, List.append_assoc]

/-- Nothing is appended if nothing is written. -/
theorem Extends.content_eq_of_nil {s t : Stash pageShift}
    (extended : Extends [] s t) : t.size = s.size ∧ t.content = s.content := by
  have same : t.size = s.size := extended.size_eq
  refine ⟨same, ?_⟩
  rw [← extended.kept, ← same, Stash.content, List.take_take, Nat.min_self]

/-- The copy of a chunk behind the content of `s` faulted: at a page boundary
the new page stays in the list. -/
structure Torn (s t : Stash pageShift) : Prop where
  backed : t.Backed
  size_eq : t.size = s.size
  count_eq : t.count = s.count
  log_eq : t.log = s.log
  content_eq : t.content = s.content
  pages_eq :
    t.pages =
      s.pages + if s.size % pageSize pageShift = 0 then 1 else 0

/-- The page a chunk goes to is the last one of the list, and the content ends
at `pgoff` of it or in a page before it. -/
theorem selectPage_spec
    {stash : Stash pageShift} (fresh : Page pageShift) (backed : stash.Backed) :
    ∃ before page,
      selectPage fresh (stash.size % pageSize pageShift) stash =
          .ok { stash with
            crashstash := before ++ [page]
            pages := before.length + 1 } ∧
        before.length + 1 =
          stash.pages +
            (if stash.size % pageSize pageShift = 0 then 1 else 0) ∧
        stash.size / pageSize pageShift ≤ before.length ∧
        (items (before ++ [page])).take stash.size = stash.content := by
  have split := Nat.div_add_mod stash.size (pageSize pageShift)
  have room := backed.room
  have entries := backed.entries
  rw [Nat.mul_comm] at split
  by_cases aligned : stash.size % pageSize pageShift = 0
  · refine ⟨stash.crashstash, fresh, ?_, ?_, ?_, ?_⟩
    · rw [selectPage, if_neg (not_not.mpr aligned), entries]
    · rw [if_pos aligned, entries]
    · rw [entries]
      exact Nat.div_le_of_le_mul (by rw [Nat.mul_comm]; exact room)
    · rw [items_append, List.take_append_of_le_length]
      · rfl
      · rw [items_length, entries]
        exact room
  · have nonempty : stash.crashstash ≠ [] := by
      intro isEmpty
      rw [isEmpty, List.length_nil] at entries
      rw [← entries, Nat.zero_mul] at room
      rw [Nat.le_zero.mp room, Nat.zero_mod] at aligned
      exact aligned rfl
    obtain ⟨before, page, shape⟩ :=
      (List.eq_nil_or_concat stash.crashstash).resolve_left nonempty
    rw [List.concat_eq_append] at shape
    have lengths : before.length + 1 = stash.pages := by
      rw [← entries, shape, List.length_append, List.length_singleton]
    refine ⟨before, page, ?_, ?_, ?_, ?_⟩
    · rw [selectPage, if_pos aligned, if_neg nonempty, ← shape, lengths]
    · rw [if_neg aligned, lengths, Nat.add_zero]
    · have below : stash.size / pageSize pageShift < stash.pages := by
        apply Nat.lt_of_mul_lt_mul_right (a := pageSize pageShift)
        omega
      omega
    · rw [← shape]
      rfl

theorem storeLast_append
    {stash : Stash pageShift} {before : List (Page pageShift)}
    {page : Page pageShift} (pgoff : Nat) (bytes : List UInt8)
    (shape : stash.crashstash = before ++ [page]) :
    storeLast pgoff bytes stash =
      { stash with crashstash := before ++ [page.put pgoff bytes] } := by
  rw [storeLast, shape, List.modifyLast_concat]

/-- Copying a chunk to the selected page extends the stash. -/
theorem extends_of_store
    {stash : Stash pageShift} {before : List (Page pageShift)}
    {page : Page pageShift} {bytes : List UInt8}
    (count : before.length + 1 =
      stash.pages + (if stash.size % pageSize pageShift = 0 then 1 else 0))
    (beyond : stash.size / pageSize pageShift ≤ before.length)
    (content : (items (before ++ [page])).take stash.size = stash.content)
    (some : bytes ≠ [])
    (fits : stash.size % pageSize pageShift + bytes.length ≤
      pageSize pageShift)
    (within : stash.size + bytes.length ≤ maxSize) :
    Extends bytes stash
      { stash with
        crashstash :=
          before ++ [page.put (stash.size % pageSize pageShift) bytes]
        pages := before.length + 1
        size := stash.size + bytes.length } := by
  have split := Nat.div_add_mod stash.size (pageSize pageShift)
  rw [Nat.mul_comm] at split
  have positive : 0 < bytes.length := List.length_pos_iff.mpr some
  have below := Nat.mul_le_mul_right (pageSize pageShift) beyond
  have inside := Nat.mod_lt stash.size (pageSize_pos pageShift)
  refine ⟨⟨?_, ?_, within⟩, rfl, rfl, rfl, ?_, ?_⟩
  · change (before ++ [_]).length = _
    rw [List.length_append, List.length_singleton]
  · change stash.size + bytes.length ≤ (before.length + 1) * pageSize pageShift
    rw [Nat.succ_mul]
    omega
  · change ((items (before ++ [page.put _ bytes])).take
      (stash.size + bytes.length)).take stash.size = _
    rw [List.take_take, Nat.min_eq_left (Nat.le_add_right _ _), ← content]
    apply take_items_put before page (Nat.le_of_lt inside)
    omega
  · intro pagesEq
    -- The list is as long as the size says, so the page is the one at the end.
    have here : before.length = stash.size / pageSize pageShift := by
      by_cases aligned : stash.size % pageSize pageShift = 0
      · rw [if_pos aligned, pagesEq, ceilPages_of_mod_eq_zero aligned] at count
        omega
      · rw [if_neg aligned, pagesEq, ceilPages_of_mod_ne_zero aligned] at count
        omega
    have size_eq :
        stash.size =
          before.length * pageSize pageShift +
            stash.size % pageSize pageShift := by
      rw [here]
      exact split.symm
    constructor
    · change before.length + 1 = ceilPages pageShift (stash.size + bytes.length)
      rw [ceilPages_of_part _ (Nat.lt_of_lt_of_le positive
        (Nat.le_add_left _ (stash.size % pageSize pageShift))) fits]
      omega
    · change (items (before ++ [page.put _ bytes])).take
        (stash.size + bytes.length) = stash.content ++ bytes
      have appended := take_items_put_append before page fits
      rw [← size_eq] at appended
      rw [appended, content]

/-- A copy that faults leaves the content alone. -/
theorem torn_of_store
    {stash : Stash pageShift} {before : List (Page pageShift)}
    {page : Page pageShift} (left : List UInt8)
    (backed : stash.Backed)
    (count : before.length + 1 =
      stash.pages + (if stash.size % pageSize pageShift = 0 then 1 else 0))
    (beyond : stash.size / pageSize pageShift ≤ before.length)
    (content : (items (before ++ [page])).take stash.size = stash.content) :
    Torn stash
      { stash with
        crashstash :=
          before ++ [page.put (stash.size % pageSize pageShift) left]
        pages := before.length + 1 } := by
  have split := Nat.div_add_mod stash.size (pageSize pageShift)
  have inside := Nat.mod_lt stash.size (pageSize_pos pageShift)
  have below := Nat.mul_le_mul_right (pageSize pageShift) beyond
  rw [Nat.mul_comm] at split
  refine ⟨⟨?_, ?_, backed.size_le⟩, rfl, rfl, rfl, ?_, count⟩
  · change (before ++ [_]).length = _
    rw [List.length_append, List.length_singleton]
  · change stash.size ≤ (before.length + 1) * pageSize pageShift
    rw [Nat.succ_mul]
    omega
  · change (items (before ++ [page.put _ left])).take stash.size = _
    rw [← content]
    apply take_items_put before page (Nat.le_of_lt inside)
    omega

/-! ## The loop -/

/-- Where the loop stands: `off` is the end of the stash, and `amt` bytes of the
buffer are to be written within the capacity. -/
structure Writing (l : WriteLocals pageShift) : Prop where
  backed : l.stash.Backed
  off_eq : l.off = l.stash.size
  within : l.stash.size + l.amt ≤ maxSize
  available : l.amt ≤ l.data.length

/-- `next` is `l` after a chunk has been copied. -/
structure Advances (l next : WriteLocals pageShift) : Prop where
  writing : Writing next
  extends_eq :
    Extends (l.data.take (chunkAmt pageShift l.off l.amt)) l.stash next.stash
  off_eq : next.off = l.off + chunkAmt pageShift l.off l.amt
  amt_eq : next.amt = l.amt - chunkAmt pageShift l.off l.amt
  written_eq : next.written = l.written + chunkAmt pageShift l.off l.amt
  data_eq : next.data = l.data.drop (chunkAmt pageShift l.off l.amt)

/-- One iteration: the loop goes on with the chunk appended, or ends with the
chunk torn. -/
theorem writeLoop_step
    {copy : Nat → UserCopy} {fresh : Nat → Page pageShift} {k : Nat}
    {l : WriteLocals pageShift}
    (writing : Writing l) (more : l.amt ≠ 0) :
    (copy k = .complete ∧ ∃ next,
      writeLoop copy fresh k l = writeLoop copy fresh (k + 1) next ∧
        Advances l next) ∨
    ((copy k).isFault = true ∧ ∃ last,
      writeLoop copy fresh k l = .ok last ∧ last.off = l.off ∧
        last.written = -EFAULT ∧ Torn l.stash last.stash) := by
  obtain ⟨before, page, selected, count, beyond, content⟩ :=
    selectPage_spec (fresh k) writing.backed
  have fits := chunkAmt_fits pageShift l.stash.size l.amt
  have short := chunkAmt_le pageShift l.stash.size l.amt
  have positive : 0 < chunkAmt pageShift l.stash.size l.amt :=
    chunkAmt_pos pageShift _ more
  have within := writing.within
  have available := writing.available
  have taken :
      (l.data.take (chunkAmt pageShift l.stash.size l.amt)).length =
        chunkAmt pageShift l.stash.size l.amt := by
    rw [List.length_take]
    omega
  cases outcome : copy k with
  | complete =>
      left
      have some :
          l.data.take (chunkAmt pageShift l.stash.size l.amt) ≠ [] := by
        rw [← List.length_pos_iff, taken]
        exact positive
      have extended :=
        extends_of_store count beyond content some
          (by rw [taken]; exact fits) (by rw [taken]; omega)
      rw [taken] at extended
      refine
        ⟨rfl,
          { stash := _
            off := l.stash.size + chunkAmt pageShift l.stash.size l.amt
            amt := l.amt - chunkAmt pageShift l.stash.size l.amt
            written := l.written + chunkAmt pageShift l.stash.size l.amt
            data := l.data.drop (chunkAmt pageShift l.stash.size l.amt) }, ?_,
          ⟨⟨extended.backed, rfl, ?_, ?_⟩, ?_, ?_, ?_, ?_, ?_⟩⟩
      · rw [writeLoop, if_neg more]
        simp only [outcome, writing.off_eq, selected]
        rw [storeLast_append _ _ rfl]
      · change l.stash.size + chunkAmt pageShift l.stash.size l.amt +
          (l.amt - chunkAmt pageShift l.stash.size l.amt) ≤ maxSize
        omega
      · change l.amt - _ ≤ (l.data.drop _).length
        rw [List.length_drop]
        omega
      · rw [writing.off_eq]
        exact extended
      all_goals rw [writing.off_eq]
  | fault left =>
      right
      have torn :=
        torn_of_store (left.take (chunkAmt pageShift l.stash.size l.amt))
          writing.backed count beyond content
      refine ⟨rfl, { l with stash := _, written := -EFAULT }, ?_, rfl, rfl, torn⟩
      rw [writeLoop, if_neg more]
      simp only [outcome, writing.off_eq, selected]
      rw [storeLast_append _ _ rfl]

/-- How the loop ends: with everything copied, or with chunk `m` torn after the
chunks before it. -/
inductive Ends (copy : Nat → UserCopy) (k : Nat) (l last : WriteLocals pageShift) :
    Prop where
  | complete
      (copied : ∀ j, j < chunkCount pageShift l.off l.amt →
        copy (k + j) = .complete)
      (extended : Extends (l.data.take l.amt) l.stash last.stash)
      (off_eq : last.off = last.stash.size)
      (written_eq : last.written = l.written + l.amt)
  | torn (m : Nat) (middle : Stash pageShift) (stored : List UInt8)
      (within : m < chunkCount pageShift l.off l.amt)
      (copied : ∀ j, j < m → copy (k + j) = .complete)
      (faults : (copy (k + m)).isFault = true)
      (extended : Extends stored l.stash middle)
      (torn : Torn middle last.stash)
      (first : m = 0 → stored = [])
      (later : 0 < m → stored ≠ [] ∧ middle.size % pageSize pageShift = 0)
      (off_eq : last.off = last.stash.size)
      (written_eq : last.written = -EFAULT)

theorem Advances.ends
    {copy : Nat → UserCopy} {k : Nat} {l next last : WriteLocals pageShift}
    (writing : Writing l) (advances : Advances l next) (more : l.amt ≠ 0)
    (copied : copy k = .complete) (ends : Ends copy (k + 1) next last) :
    Ends copy k l last := by
  have short := chunkAmt_le pageShift l.off l.amt
  have chunks := chunkCount_step pageShift l.off more
  rw [← advances.off_eq, ← advances.amt_eq] at chunks
  have copiedBefore :
      ∀ bound, (∀ j, j < bound → copy (k + 1 + j) = .complete) →
        ∀ j, j < bound + 1 → copy (k + j) = .complete := by
    intro bound later j before
    cases j with
    | zero => exact copied
    | succ j =>
        have shifted := later j (Nat.lt_of_succ_lt_succ before)
        rwa [Nat.add_assoc, Nat.add_comm 1 j] at shifted
  cases ends with
  | complete laterCopied extended offEq writtenEq =>
      refine .complete ?_ ?_ offEq ?_
      · rw [chunks]
        exact copiedBefore _ laterCopied
      · have both := advances.extends_eq.trans extended
        rw [advances.data_eq, advances.amt_eq, ← List.take_add,
          Nat.add_sub_cancel' short] at both
        exact both
      · rw [writtenEq, advances.written_eq, advances.amt_eq]
        omega
  | torn m middle stored within laterCopied faults extended torn first later
      offEq writtenEq =>
      refine
        .torn (m + 1) middle _ ?_ (copiedBefore m laterCopied) ?_
          (advances.extends_eq.trans extended) torn ?_ ?_ offEq writtenEq
      · omega
      · rwa [Nat.add_assoc, Nat.add_comm 1 m] at faults
      · intro impossible
        cases impossible
      · intro _
        constructor
        · intro isEmpty
          have nothing :=
            congrArg List.length (List.append_eq_nil_iff.mp isEmpty).1
          have positive := chunkAmt_pos pageShift l.stash.size more
          have size := advances.extends_eq.size_eq
          rw [nothing, List.length_nil, Nat.add_zero,
            ← advances.writing.off_eq, advances.off_eq, writing.off_eq] at size
          omega
        · cases m with
          | succ m => exact (later (Nat.succ_pos m)).2
          | zero =>
              have moreNext : next.amt ≠ 0 := by
                intro none
                rw [chunkCount, if_pos none] at within
                exact absurd within (Nat.not_lt_zero 0)
              rw [extended.size_eq, first rfl, List.length_nil, Nat.add_zero,
                ← advances.writing.off_eq, advances.off_eq]
              rw [advances.amt_eq] at moreNext
              exact chunkAmt_aligned moreNext

/-- The loop of `crashstash_write`, from any stash with room for its content. -/
theorem writeLoop_ends
    (copy : Nat → UserCopy) (fresh : Nat → Page pageShift) (k : Nat)
    {l : WriteLocals pageShift} (writing : Writing l) :
    ∃ last, writeLoop copy fresh k l = .ok last ∧ Ends copy k l last := by
  generalize amount : l.amt = bound
  induction bound using Nat.strongRecOn generalizing k l with
  | ind bound inductionHypothesis =>
      by_cases more : l.amt = 0
      · refine ⟨l, ?_, .complete ?_ ?_ writing.off_eq ?_⟩
        · rw [writeLoop, if_pos more]
        · intro j before
          rw [chunkCount, if_pos more] at before
          exact absurd before (Nat.not_lt_zero j)
        · rw [more, List.take_zero]
          exact Extends.refl writing.backed
        · rw [more, Int.natCast_zero, Int.add_zero]
      · rcases writeLoop_step writing more with
          ⟨copied, next, goesOn, advances⟩ |
          ⟨faults, last, stops, offEq, writtenEq, torn⟩
        · have smaller : next.amt < bound := by
            have positive := chunkAmt_pos pageShift l.off more
            rw [advances.amt_eq]
            omega
          obtain ⟨last, run, ends⟩ :=
            inductionHypothesis next.amt smaller (k + 1) advances.writing rfl
          rw [goesOn]
          exact ⟨last, run, advances.ends writing more copied ends⟩
        · refine ⟨last, stops, ?_⟩
          refine
            .torn 0 l.stash [] ?_ ?_ faults (Extends.refl writing.backed) torn
              (fun _ => rfl) ?_ ?_ writtenEq
          · rw [chunkCount_step pageShift l.off more]
            exact Nat.succ_pos _
          · intro j before
            exact absurd before (Nat.not_lt_zero j)
          · intro impossible
            exact absurd impossible (Nat.lt_irrefl 0)
          · rw [offEq, writing.off_eq, torn.size_eq]

/-! ## The call -/

/-- The first chunk whose copy faults. -/
def firstFault (copy : Nat → UserCopy) (count : Nat) : Option Nat :=
  (List.range count).find? fun k => (copy k).isFault

theorem firstFault_eq_none
    {copy : Nat → UserCopy} {count : Nat}
    (copied : ∀ j, j < count → copy j = .complete) :
    firstFault copy count = none := by
  rw [firstFault, List.find?_eq_none]
  intro j member
  rw [copied j (List.mem_range.mp member)]
  exact Bool.false_ne_true

theorem firstFault_eq_some
    {copy : Nat → UserCopy} {count m : Nat}
    (within : m < count) (faults : (copy m).isFault = true)
    (copied : ∀ j, j < m → copy j = .complete) :
    firstFault copy count = some m := by
  rw [firstFault, List.find?_range_eq_some]
  refine ⟨faults, List.mem_range.mpr within, ?_⟩
  intro j before
  rw [copied j before]
  rfl

/-- The bytes of a buffer a call tries to store. -/
def WriteBuffer.stored (buffer : WriteBuffer) (stash : Stash pageShift) :
    List UInt8 :=
  buffer.data.take (writeAmount stash buffer.data.length)

/-- The chunks a call tries to copy. -/
def writeChunks (buffer : WriteBuffer) (stash : Stash pageShift) : Nat :=
  chunkCount pageShift stash.size (writeAmount stash buffer.data.length)

/-- No sum of the capacity check overflows. -/
theorem writeAmount_eq
    {stash : Stash pageShift} (buffer : WriteBuffer)
    (within : stash.size ≤ maxSize) :
    writeAmount stash buffer.data.length =
      min buffer.data.length (maxSize - stash.size) := by
  have bounded := buffer.bounded
  have noOverflow :
      (stash.size + buffer.data.length) % wordRange =
        stash.size + buffer.data.length := by
    apply Nat.mod_eq_of_lt
    rw [wordRange]
    rw [maxSize] at within
    rw [intMax] at bounded
    omega
  rw [writeAmount, noOverflow]
  split <;> omega

/-- How a call of `crashstash_write` ends. -/
inductive WriteEnds (copy : Nat → UserCopy) (buffer : WriteBuffer) (off : Nat)
    (stash : Stash pageShift) (result : WriteResult pageShift) : Prop where
  | elsewhere
      (different : off ≠ stash.size)
      (result_eq : result = ⟨stash, off, -EINVAL⟩)
  | full
      (atEnd : off = stash.size)
      (full : maxSize ≤ stash.size)
      (result_eq : result = ⟨stash, off, -ENOSPC⟩)
  | complete
      (atEnd : off = stash.size)
      (room : stash.size < maxSize)
      (copied : firstFault copy (writeChunks buffer stash) = none)
      (extended : Extends (buffer.stored stash) stash result.stash)
      (off_eq : result.off = result.stash.size)
      (value_eq : result.value = (buffer.stored stash).length)
  | torn (m : Nat) (middle : Stash pageShift) (stored : List UInt8)
      (atEnd : off = stash.size)
      (room : stash.size < maxSize)
      (faults : firstFault copy (writeChunks buffer stash) = some m)
      (extended : Extends stored stash middle)
      (torn : Torn middle result.stash)
      (first : m = 0 → stored = [])
      (later : 0 < m → stored ≠ [] ∧ middle.size % pageSize pageShift = 0)
      (off_eq : result.off = result.stash.size)
      (value_eq : result.value = -EFAULT)

theorem crashstashWrite_ends
    (copy : Nat → UserCopy) (fresh : Nat → Page pageShift)
    (buffer : WriteBuffer) (off : Nat) {stash : Stash pageShift}
    (backed : stash.Backed) :
    ∃ result, crashstashWrite copy fresh buffer off stash = .ok result ∧
      WriteEnds copy buffer off stash result := by
  by_cases different : off ≠ stash.size
  · refine ⟨_, ?_, .elsewhere different rfl⟩
    rw [crashstashWrite, if_pos different]
  have atEnd : off = stash.size := not_not.mp different
  by_cases full : maxSize ≤ stash.size
  · refine ⟨_, ?_, .full atEnd full rfl⟩
    rw [crashstashWrite, if_neg different, if_pos full]
  have room : stash.size < maxSize := Nat.lt_of_not_le full
  have amount := writeAmount_eq buffer backed.size_le
  have writing : Writing
      { stash := stash
        off := off
        amt := writeAmount stash buffer.data.length
        written := 0
        data := buffer.data } := by
    refine ⟨backed, atEnd, ?_, ?_⟩
    · change stash.size + writeAmount stash buffer.data.length ≤ maxSize
      omega
    · change writeAmount stash buffer.data.length ≤ buffer.data.length
      omega
  obtain ⟨last, run, ends⟩ := writeLoop_ends copy fresh 0 writing
  refine ⟨⟨last.stash, last.off, last.written⟩, ?_, ?_⟩
  · rw [crashstashWrite, if_neg different, if_neg full, run]
    rfl
  · cases ends with
    | complete copied extended offEq writtenEq =>
        rw [atEnd] at copied
        refine .complete atEnd room ?_ extended offEq ?_
        · apply firstFault_eq_none
          intro j before
          have here := copied j before
          rwa [Nat.zero_add] at here
        · change last.written = _
          rw [writtenEq, WriteBuffer.stored, List.length_take, amount]
          change (0 : Int) + (min buffer.data.length (maxSize - stash.size) : Nat) = _
          omega
    | torn m middle stored within copied faults extended torn first later offEq
        writtenEq =>
        rw [atEnd] at within
        rw [Nat.zero_add] at faults
        refine
          .torn m middle stored atEnd room ?_ extended torn first later offEq
            writtenEq
        apply firstFault_eq_some within faults
        intro j before
        have here := copied j before
        rwa [Nat.zero_add] at here

end KernelStuff.Crashstash
