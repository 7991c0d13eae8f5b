import KernelStuff.Crashstash.Write

/-!
# What the two readers return

`crashstash_read` walks the page list from the page `*off` lies in, and
`get_crashstash` consumes whole pages from the front.  Both return parts of the
stash content.
-/

namespace KernelStuff.Crashstash

open KernelStuff.Library

variable {pageShift : Nat}

theorem seekPage_eq :
    ∀ (pages : List (Page pageShift)) (pgnum : Nat),
      seekPage pages pgnum = pages.drop pgnum
  | [], pgnum => by
      rw [seekPage, List.drop_nil]
  | pg :: rest, 0 => rfl
  | pg :: rest, pgnum + 1 => by
      rw [seekPage, List.drop_succ_cons, seekPage_eq rest pgnum]

theorem Stash.Backed.content_length {stash : Stash pageShift}
    (backed : stash.Backed) : stash.content.length = stash.size := by
  rw [Stash.content, List.length_take, items_length, backed.entries]
  exact Nat.min_eq_left backed.room

/-! ## Through the file -/

/-- Where the loop of `crashstash_read` stands. -/
structure Reading (stash : Stash pageShift) (l : ReadLocals pageShift) :
    Prop where
  cursor_eq : l.amt ≠ 0 →
    l.cursor = stash.crashstash.drop (l.off / pageSize pageShift)
  within : l.off + l.amt ≤ stash.size

/-- How the loop of `crashstash_read` ends. -/
inductive ReadEnds (copy : Nat → UserCopy) (stash : Stash pageShift)
    (l last : ReadLocals pageShift) : Prop where
  | complete
      (data_eq : last.data = l.data ++ (stash.content.drop l.off).take l.amt)
      (off_eq : last.off = l.off + l.amt)
      (read_eq : last.read = l.read + l.amt)
      (sources_le : ∀ source ∈ last.sources,
        source ∈ l.sources ∨ source.1 + source.2 ≤ stash.size)
  | fault (j : Nat)
      (faults : (copy j).isFault = true)
      (off_le : last.off ≤ stash.size)
      (read_eq : last.read = -EFAULT)
      (sources_le : ∀ source ∈ last.sources,
        source ∈ l.sources ∨ source.1 + source.2 ≤ stash.size)

/-- The page under the cursor holds the next chunk of the content. -/
theorem Reading.chunk_eq
    {stash : Stash pageShift} {l : ReadLocals pageShift}
    (backed : stash.Backed) (reading : Reading stash l) (more : l.amt ≠ 0) :
    ∃ pg rest, l.cursor = pg :: rest ∧
      rest = stash.crashstash.drop (l.off / pageSize pageShift + 1) ∧
      (pg.toList.drop (l.off % pageSize pageShift)).take
          (chunkAmt pageShift l.off l.amt) =
        (stash.content.drop l.off).take (chunkAmt pageShift l.off l.amt) := by
  have within := reading.within
  have room := backed.room
  have short := chunkAmt_le pageShift l.off l.amt
  have inside : l.off / pageSize pageShift < stash.crashstash.length := by
    rw [backed.entries]
    apply Nat.div_lt_of_lt_mul
    rw [Nat.mul_comm]
    omega
  have found := List.drop_eq_getElem_cons inside
  refine ⟨_, _, (reading.cursor_eq more).trans found, rfl, ?_⟩
  rw [take_drop_items found (chunkAmt_fits pageShift l.off l.amt),
    Nat.mul_comm, Nat.div_add_mod, Stash.content, List.drop_take,
    List.take_take, Nat.min_eq_left]
  omega

theorem readLoop_ends
    (copy : Nat → UserCopy) (k : Nat) {stash : Stash pageShift}
    {l : ReadLocals pageShift}
    (backed : stash.Backed) (reading : Reading stash l) :
    ∃ last, readLoop copy k l = .ok last ∧ ReadEnds copy stash l last := by
  generalize amount : l.amt = bound
  induction bound using Nat.strongRecOn generalizing k l with
  | ind bound inductionHypothesis =>
      by_cases more : l.amt = 0
      · refine ⟨l, ?_, .complete ?_ ?_ ?_ fun _ member => Or.inl member⟩
        · rw [readLoop, if_pos more]
        · rw [more, List.take_zero, List.append_nil]
        · rw [more, Nat.add_zero]
        · rw [more, Int.natCast_zero, Int.add_zero]
      · obtain ⟨pg, rest, here, later, chunkEq⟩ :=
          reading.chunk_eq backed more
        have within := reading.within
        have short := chunkAmt_le pageShift l.off l.amt
        have positive := chunkAmt_pos pageShift l.off more
        cases outcome : copy k with
        | fault left =>
            refine
              ⟨{ l with
                  read := -EFAULT
                  sources :=
                    l.sources ++ [(l.off, chunkAmt pageShift l.off l.amt)] },
                ?_, .fault k (by rw [outcome]; rfl) ?_ rfl ?_⟩
            · rw [readLoop, if_neg more]
              simp only [here, outcome]
            · change l.off ≤ _
              omega
            · intro source member
              rcases List.mem_append.mp member with early | last
              · exact Or.inl early
              · rw [List.mem_singleton.mp last]
                right
                change l.off + chunkAmt pageShift l.off l.amt ≤ _
                omega
        | complete =>
            let next : ReadLocals pageShift :=
              { cursor := rest
                off := l.off + chunkAmt pageShift l.off l.amt
                amt := l.amt - chunkAmt pageShift l.off l.amt
                read := l.read + chunkAmt pageShift l.off l.amt
                data :=
                  l.data ++ (pg.toList.drop (l.off % pageSize pageShift)).take
                    (chunkAmt pageShift l.off l.amt)
                sources :=
                  l.sources ++ [(l.off, chunkAmt pageShift l.off l.amt)] }
            have goesOn : readLoop copy k l = readLoop copy (k + 1) next := by
              rw [readLoop, if_neg more]
              simp only [here, outcome]
              rfl
            have readingNext : Reading stash next := by
              constructor
              · intro moreNext
                -- What is left starts on the next page.
                change rest = stash.crashstash.drop
                  ((l.off + chunkAmt pageShift l.off l.amt) /
                    pageSize pageShift)
                rw [chunkAmt_whole moreNext,
                  Nat.mul_div_cancel_left _ (pageSize_pos pageShift)]
                exact later
              · change l.off + chunkAmt pageShift l.off l.amt +
                  (l.amt - chunkAmt pageShift l.off l.amt) ≤ _
                omega
            have smaller : next.amt < bound := by
              change l.amt - chunkAmt pageShift l.off l.amt < bound
              omega
            obtain ⟨last, run, ends⟩ :=
              inductionHypothesis next.amt smaller (k + 1) readingNext rfl
            refine ⟨last, goesOn.trans run, ?_⟩
            have sourcesLe :
                (∀ source ∈ last.sources,
                  source ∈ next.sources ∨
                    source.1 + source.2 ≤ stash.size) →
                  ∀ source ∈ last.sources,
                    source ∈ l.sources ∨
                      source.1 + source.2 ≤ stash.size := by
              intro fromNext source member
              rcases fromNext source member with early | low
              · rcases List.mem_append.mp early with before | here
                · exact Or.inl before
                · rw [List.mem_singleton.mp here]
                  right
                  change l.off + chunkAmt pageShift l.off l.amt ≤ _
                  omega
              · exact Or.inr low
            cases ends with
            | fault j faults offLe readEq sources =>
                exact .fault j faults offLe readEq (sourcesLe sources)
            | complete dataEq offEq readEq sources =>
                refine .complete ?_ ?_ ?_ (sourcesLe sources)
                · rw [dataEq]
                  change l.data ++ _ ++ (stash.content.drop
                    (l.off + chunkAmt pageShift l.off l.amt)).take
                    (l.amt - chunkAmt pageShift l.off l.amt) = _
                  rw [chunkEq, List.append_assoc, ← List.drop_drop,
                    ← List.take_add, Nat.add_sub_cancel' short]
                · rw [offEq]
                  change l.off + chunkAmt pageShift l.off l.amt +
                    (l.amt - chunkAmt pageShift l.off l.amt) = _
                  omega
                · rw [readEq]
                  change l.read + (chunkAmt pageShift l.off l.amt : Nat) +
                    ((l.amt - chunkAmt pageShift l.off l.amt : Nat) : Int) = _
                  omega

/-- No sum of the size check overflows. -/
theorem readAmount_eq
    {stash : Stash pageShift} {off amt : Nat} (backed : stash.Backed)
    (within : off ≤ stash.size) (bounded : amt ≤ intMax) :
    readAmount stash off amt = min amt (stash.size - off) := by
  have small := backed.size_le
  rw [maxSize] at small
  rw [intMax] at bounded
  have noOverflow : (off + amt) % wordRange = off + amt := by
    apply Nat.mod_eq_of_lt
    rw [wordRange]
    omega
  have difference :
      (stash.size + (wordRange - off)) % wordRange = stash.size - off := by
    have shifted :
        stash.size + (wordRange - off) = stash.size - off + wordRange := by
      rw [wordRange]
      omega
    rw [shifted, Nat.add_mod_right]
    apply Nat.mod_eq_of_lt
    rw [wordRange]
    omega
  rw [readAmount, noOverflow, difference]
  split <;> omega

/-- A read from within the stash returns the next part of the content, or faults,
and copies from nothing behind `size`. -/
theorem crashstashRead_ends
    (copy : Nat → UserCopy) {amt off : Nat} {stash : Stash pageShift}
    (backed : stash.Backed) (within : off ≤ stash.size)
    (bounded : amt ≤ intMax) :
    ∃ last, crashstashRead copy amt off stash = .ok last ∧
      (∀ source ∈ last.sources, source.1 + source.2 ≤ stash.size) ∧
      last.off ≤ stash.size ∧
      ((last.data = (stash.content.drop off).take amt ∧
          last.off = off + last.data.length ∧
          last.read = last.data.length) ∨
        ((∃ j, (copy j).isFault = true) ∧ last.read = -EFAULT)) := by
  have amount := readAmount_eq backed within bounded
  have reading : Reading stash
      { cursor := seekPage stash.crashstash (off / pageSize pageShift)
        off := off
        amt := readAmount stash off amt
        read := 0
        data := []
        sources := [] } := by
    constructor
    · intro _
      exact seekPage_eq _ _
    · change off + readAmount stash off amt ≤ stash.size
      omega
  obtain ⟨last, run, ends⟩ := readLoop_ends copy 0 backed reading
  have noSource :
      (∀ source ∈ last.sources,
        source ∈ [] ∨ source.1 + source.2 ≤ stash.size) →
        ∀ source ∈ last.sources, source.1 + source.2 ≤ stash.size := by
    intro sources source member
    exact (sources source member).resolve_left List.not_mem_nil
  refine ⟨last, run, ?_⟩
  cases ends with
  | fault j faults offLe readEq sources =>
      exact ⟨noSource sources, offLe, Or.inr ⟨⟨j, faults⟩, readEq⟩⟩
  | complete dataEq offEq readEq sources =>
      have dataIs : last.data = (stash.content.drop off).take amt := by
        rw [dataEq]
        change [] ++ (stash.content.drop off).take (readAmount stash off amt) = _
        rw [List.nil_append, amount, ← backed.content_length,
          ← List.length_drop, List.take_eq_take_min (i := amt)]
      have lengthIs : last.data.length = readAmount stash off amt := by
        rw [dataIs, List.length_take, List.length_drop,
          backed.content_length, amount]
      refine ⟨noSource sources, ?_, Or.inl ⟨dataIs, ?_, ?_⟩⟩
      · rw [offEq]
        change off + readAmount stash off amt ≤ _
        omega
      · rw [lengthIs]
        exact offEq
      · rw [readEq, lengthIs]
        exact Int.zero_add _

/-! ## Through the core -/

theorem readPages_eq :
    ∀ (pages : List (Page pageShift)) (size : Nat),
      readPages pages size = (items pages).take size
  | [], size => by
      rw [readPages]
      exact List.take_nil.symm
  | page :: rest, size => by
      rw [readPages, readPages_eq rest]
      change _ = (page.toList ++ items rest).take size
      rw [List.take_append, page.toList_length]
      by_cases within : size ≤ pageSize pageShift
      · rw [Nat.min_eq_right within]
        congr 2
        omega
      · have beyond : pageSize pageShift ≤ size := Nat.le_of_not_le within
        have whole :
            page.toList.take (pageSize pageShift) = page.toList.take size := by
          have length := page.toList_length
          rw [List.take_of_length_le (Nat.le_of_eq length),
            List.take_of_length_le (by rw [length]; exact beyond)]
        rw [Nat.min_eq_left beyond, whole]

/-- With consistent metadata the content is retrieved from a core. -/
theorem getCrashstash_eq {stash : Stash pageShift}
    (consistent : stash.Consistent) (logged : LogRecord.crashstash ∈ stash.log) :
    getCrashstash stash = .ok stash.content := by
  have found : stash.log.contains .crashstash = true :=
    List.contains_iff_mem.mpr logged
  have accepted :
      ¬ (stash.crashstash.length ≠ stash.pages ∨
        stash.pages ≠ ceilPages pageShift stash.size) := by
    rintro (entries | pages)
    · exact entries consistent.entries
    · exact pages consistent.pages_eq
  rw [getCrashstash, if_pos found]
  simp only
  rw [if_neg accepted, readPages_eq]
  rfl

end KernelStuff.Crashstash
