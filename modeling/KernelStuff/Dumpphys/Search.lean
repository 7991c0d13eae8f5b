import KernelStuff.Dumpphys.Pages

/-!
# When dumpphys reports its search truthfully

A note is counted when it starts a page, not when it is found within one, and
ends the search with an error unless the search goes on.  The report is right
when these and the results of the writes fit together.
-/

namespace KernelStuff.Dumpphys

open KernelStuff.Library

section Search

variable (env : Env) (mi : MemoryInfo) (options : Options)

/-! ## Notes -/

/-- The note that the callback finds in a page. -/
def noteIn (addr : Nat) (buf : List UInt8) : Option (List UInt8) :=
  if options.searchWithinPage then
    (findIndex osrelease buf).bind fun found =>
      env.kdump.readString env.memory (addr + found)
  else if osrelease.isPrefixOf (env.cString addr buf) then
    some (env.cString addr buf)
  else none

/-- The notes in the pages, in their order. -/
def notes (pages : List Nat) : List (List UInt8) :=
  pages.filterMap fun pfn =>
    noteIn env options (mi.address pfn)
      (contents env.memory (mi.address pfn) mi.pageSize)

/-- What is passed to `write` as the length of a note. -/
def noteCount (text : List UInt8) : Nat :=
  if options.searchWithinPage then text.length
  else sizeT (intOf text.length)

/-- The call of `write` takes the whole note. -/
def Takes (call : Nat) (text : List UInt8) : Prop :=
  text.length ≤ env.taken call (noteCount options text)

instance (call : Nat) (text : List UInt8) :
    Decidable (Takes env options call text) :=
  inferInstanceAs (Decidable (_ ≤ _))

/-- The pages can be read, and the string at a note. -/
structure NoReadErrors (pages : List Nat) : Prop where
  readable : Readable env mi pages
  strings : options.searchWithinPage = true → ∀ pfn ∈ pages, ∀ found,
    findIndex osrelease (contents env.memory (mi.address pfn) mi.pageSize) =
        some found →
      (env.kdump.readString env.memory (mi.address pfn + found)).isSome

/-! ## The report -/

/-- A call of `write` that took a whole note. -/
def isNote (call : List UInt8 × Nat) : Bool :=
  osrelease.isPrefixOf call.1 && call.2 == call.1.length

/-- How many notes are in the output. -/
def Process.notesWritten (process : Process) : Nat :=
  process.written.countP isNote

/-- The count is right, "could not find" is said when nothing was written, and
something written is a success. -/
structure Truthful (verdict : Verdict) (last : Process) : Prop where
  counted : last.foundCount = last.notesWritten
  message :
    verdict.message = some .couldNotFind ↔ last.notesWritten = 0
  success : 0 < last.notesWritten → verdict.success = true

/-! ## One page -/

/-- The state in which a note has been written and counted. -/
def Process.noted (process : Process) (text : List UInt8) : Process :=
  let after := process.afterWrite env text (noteCount options text)
  if options.searchWithinPage then after
  else { after with foundCount := process.foundCount + 1 }

/-- There is room for a note in the count. -/
def Process.HasRoom (process : Process) (count : Nat) : Prop :=
  options.searchWithinPage = false → process.foundCount + count < 2 ^ 31

theorem checkVmcoreinfo_none
    {pages : List Nat} {pfn : Nat}
    (noErrors : NoReadErrors env mi options pages) (member : pfn ∈ pages)
    (nothing :
      noteIn env options (mi.address pfn)
        (contents env.memory (mi.address pfn) mi.pageSize) = none)
    (process : Process) :
    checkVmcoreinfo env options (mi.address pfn)
        (contents env.memory (mi.address pfn) mi.pageSize) process =
      .ok 0 process := by
  rw [noteIn] at nothing
  rw [checkVmcoreinfo]
  cases within : options.searchWithinPage with
  | true =>
      rw [if_pos within] at nothing
      cases found :
          findIndex osrelease
            (contents env.memory (mi.address pfn) mi.pageSize) with
      | none => rfl
      | some ix =>
          rw [found, Option.bind_some] at nothing
          have read := noErrors.strings within pfn member ix found
          rw [nothing] at read
          cases read
  | false =>
      rw [within, if_neg Bool.false_ne_true] at nothing
      split at nothing
      · cases nothing
      · next absent =>
          rw [Bool.not_false, Bool.true_and, if_neg absent]
          rfl

theorem afterNote_run (process : Process) :
    afterNote env options process =
      if options.shouldContinue then .ok 0 (process.afterWrite env dashes 4)
      else .ok (-1) process := by
  rw [afterNote]
  split
  · obtain ⟨rv, run, -⟩ := write_run env dashes 4 process
    rw [bind_of_ok run]
    rfl
  · rfl

theorem countFound_of_room {process : Process}
    (room : process.foundCount + 1 < 2 ^ 31) :
    countFound process =
      .ok ⟨⟩ { process with foundCount := process.foundCount + 1 } := by
  change (if process.foundCount + 1 < 2 ^ 31 then
      (set { process with foundCount := process.foundCount + 1 } :
        Program PUnit)
    else throw .overflow) process = _
  rw [if_pos room]
  rfl

theorem countFound_of_full {process : Process}
    (full : ¬ process.foundCount + 1 < 2 ^ 31) :
    countFound process = .error .overflow process := by
  change (if process.foundCount + 1 < 2 ^ 31 then
      (set { process with foundCount := process.foundCount + 1 } :
        Program PUnit)
    else throw .overflow) process = _
  rw [if_neg full]
  rfl

/-- A note that there is no room for. -/
theorem checkVmcoreinfo_overflow
    {addr : Nat} {buf text : List UInt8} {process : Process}
    (found : noteIn env options addr buf = some text)
    (full : ¬ process.HasRoom options 1) :
    ∃ last,
      checkVmcoreinfo env options addr buf process =
        .error .overflow last := by
  rw [Process.HasRoom, Classical.not_imp] at full
  obtain ⟨outside, large⟩ := full
  rw [noteIn, outside, if_neg Bool.false_ne_true] at found
  split at found
  · next isNote =>
      cases found
      rw [checkVmcoreinfo, outside, Bool.not_false, Bool.true_and,
        if_pos isNote]
      obtain ⟨rv, run, -⟩ :=
        write_run env (env.cString addr buf)
          (sizeT (intOf (env.cString addr buf).length)) process
      have stopped :
          countFound
              (process.afterWrite env (env.cString addr buf)
                (sizeT (intOf (env.cString addr buf).length))) =
            .error .overflow _ :=
        countFound_of_full large
      rw [bind_of_ok run, bind_of_error stopped]
      exact ⟨_, rfl⟩
  · cases found

/-- A note is written and counted, and what comes after depends on whether the
search goes on. -/
theorem checkVmcoreinfo_some
    {addr : Nat} {buf text : List UInt8} {process : Process}
    (found : noteIn env options addr buf = some text)
    (room : process.HasRoom options 1) :
    checkVmcoreinfo env options addr buf process =
      afterNote env options (process.noted env options text) := by
  rw [noteIn] at found
  rw [checkVmcoreinfo]
  cases within : options.searchWithinPage with
  | true =>
      rw [if_pos within] at found
      obtain ⟨ix, atIx, read⟩ := Option.bind_eq_some_iff.mp found
      obtain ⟨rv, run, -⟩ := write_run env text text.length process
      rw [atIx]
      dsimp only
      rw [read]
      change (write env text text.length >>= _) process = _
      rw [bind_of_ok run, Process.noted, noteCount, if_pos within,
        if_pos within]
  | false =>
      rw [within, if_neg Bool.false_ne_true] at found
      split at found
      · next isNote =>
          cases found
          obtain ⟨rv, run, -⟩ :=
            write_run env (env.cString addr buf)
              (sizeT (intOf (env.cString addr buf).length)) process
          have counted :
              countFound
                  (process.afterWrite env (env.cString addr buf)
                    (sizeT (intOf (env.cString addr buf).length))) =
                .ok ⟨⟩ _ :=
            countFound_of_room (room within)
          rw [Bool.not_false, Bool.true_and, if_pos isNote, bind_of_ok run,
            bind_of_ok counted, Process.noted, noteCount, within,
            if_neg Bool.false_ne_true]
          rfl
      · cases found

/-- A note starts with what is looked for. -/
theorem osrelease_isPrefixOf_note
    {pagemap : List Bool} (correct : Correct env.kdump pagemap)
    {addr size : Nat} {text : List UInt8}
    (found : noteIn env options addr (contents env.memory addr size) =
      some text) :
    osrelease.isPrefixOf text = true := by
  rw [noteIn] at found
  split at found
  · obtain ⟨ix, atIx, read⟩ := Option.bind_eq_some_iff.mp found
    obtain ⟨string, nonzero, zero⟩ := correct.readString _ _ _ read
    have occurs := (findIndex_eq_some atIx).1
    have byteAt : ∀ i (inside : i < osrelease.length),
        env.memory (addr + ix + i) = osrelease[i] := by
      intro i inside
      have byte := List.IsPrefix.getElem occurs inside
      rw [byte, List.getElem_drop]
      simp only [contents, List.getElem_map, List.getElem_range, Nat.add_assoc]
    have long : osrelease.length ≤ text.length := by
      by_contra short
      have byte := byteAt text.length (by omega)
      rw [zero] at byte
      have noZero : (0 : UInt8) ∉ osrelease := by decide
      exact noZero (byte ▸ List.getElem_mem _)
    rw [List.isPrefixOf_iff_prefix, List.prefix_iff_eq_take]
    apply List.ext_getElem
    · rw [List.length_take]
      omega
    · intro i inside _
      rw [List.getElem_take, ← byteAt i inside]
      have byte : text[i]? = (contents env.memory (addr + ix) text.length)[i]? :=
        by rw [string]
      rw [contents, List.getElem?_map, List.getElem?_range (by omega),
        Option.map_some, List.getElem?_eq_getElem (by omega)] at byte
      exact (Option.some.inj byte).symm
  · split at found
    · next isPrefix =>
        cases found
        exact isPrefix
    · cases found

/-! ## What one page changes -/

theorem notesWritten_afterWrite (process : Process) (data : List UInt8)
    (count : Nat) :
    (process.afterWrite env data count).notesWritten =
      process.notesWritten +
        if isNote
            (data,
              (data.take (env.taken process.written.length count)).length) =
          true
        then 1 else 0 := by
  rw [Process.afterWrite, Process.notesWritten, List.countP_append,
    List.countP_singleton, ← Process.notesWritten]

/-- The separator is not a note. -/
theorem notesWritten_afterDashes (process : Process) :
    (process.afterWrite env dashes 4).notesWritten = process.notesWritten := by
  have different : osrelease.isPrefixOf dashes = false := by decide
  rw [notesWritten_afterWrite, isNote, different, Bool.false_and,
    if_neg Bool.false_ne_true, Nat.add_zero]

theorem notesWritten_noted (process : Process) {text : List UInt8}
    (isText : osrelease.isPrefixOf text = true) :
    (process.noted env options text).notesWritten =
      process.notesWritten +
        if Takes env options process.written.length text then 1 else 0 := by
  have same :
      (process.noted env options text).notesWritten =
        (process.afterWrite env text
          (noteCount options text)).notesWritten := by
    rw [Process.noted]
    split <;> rfl
  rw [same, notesWritten_afterWrite, isNote, isText, Bool.true_and]
  apply congrArg (process.notesWritten + ·)
  apply if_congr _ rfl rfl
  rw [beq_iff_eq, List.length_take, Takes]
  dsimp only
  omega

theorem foundCount_noted (process : Process) (text : List UInt8) :
    (process.noted env options text).foundCount =
      process.foundCount + if options.searchWithinPage = true then 0 else 1 := by
  rw [Process.noted]
  split <;> rfl

theorem written_length_noted (process : Process) (text : List UInt8) :
    (process.noted env options text).written.length =
      process.written.length + 1 := by
  rw [Process.noted]
  split
  · rw [Process.afterWrite, List.length_append]
    rfl
  · rw [Process.afterWrite, List.length_append]
    rfl

/-! ## All pages -/

variable {env mi options}

theorem NoReadErrors.tail {pfn : Nat} {rest : List Nat}
    (noErrors : NoReadErrors env mi options (pfn :: rest)) :
    NoReadErrors env mi options rest where
  readable other member :=
    noErrors.readable other (List.mem_cons_of_mem _ member)
  strings within other member :=
    noErrors.strings within other (List.mem_cons_of_mem _ member)

/-- The first page is read, and the callback looks at it. -/
theorem readPages_cons_search
    {pagemap : List Bool} (correct : Correct env.kdump pagemap)
    (searching : options.op = .checkVmcoreinfo) {pfn : Nat} {rest : List Nat}
    (noErrors : NoReadErrors env mi options (pfn :: rest)) :
    readPages env mi options (pfn :: rest) =
      (do
        let rv ← checkVmcoreinfo env options (mi.address pfn)
          (contents env.memory (mi.address pfn) mi.pageSize)
        if rv < 0 then return rv
        readPages env mi options rest) := by
  obtain ⟨buf, read⟩ :=
    Option.isSome_iff_exists.mp
      (noErrors.readable pfn List.mem_cons_self)
  rw [readPages, read, ← correct.read _ _ _ _ read]
  dsimp only
  rw [runOp, searching]

theorem notes_cons (pfn : Nat) (rest : List Nat) :
    notes env mi options (pfn :: rest) =
      match noteIn env options (mi.address pfn)
        (contents env.memory (mi.address pfn) mi.pageSize) with
      | none => notes env mi options rest
      | some text => text :: notes env mi options rest := by
  rw [notes, List.filterMap_cons]
  cases noteIn env options (mi.address pfn)
    (contents env.memory (mi.address pfn) mi.pageSize) <;> rfl

/-- A page without a note changes nothing. -/
theorem readPages_skip
    {pagemap : List Bool} (correct : Correct env.kdump pagemap)
    (searching : options.op = .checkVmcoreinfo) {pfn : Nat} {rest : List Nat}
    (noErrors : NoReadErrors env mi options (pfn :: rest))
    (nothing :
      noteIn env options (mi.address pfn)
        (contents env.memory (mi.address pfn) mi.pageSize) = none)
    (process : Process) :
    readPages env mi options (pfn :: rest) process =
      readPages env mi options rest process := by
  rw [readPages_cons_search correct searching noErrors,
    bind_of_ok
      (checkVmcoreinfo_none env mi options noErrors List.mem_cons_self nothing
        process)]
  rfl

/-- How many of the notes are taken whole, from the call with the number `call`
on.  There is a call for the separator between two notes. -/
def takenNotes (env : Env) (options : Options) :
    List (List UInt8) → Nat → Nat
  | [], _ => 0
  | text :: rest, call =>
      (if Takes env options call text then 1 else 0) +
        takenNotes env options rest (call + 2)

/-- The search that goes on finds and counts all notes. -/
theorem readPages_continue
    {pagemap : List Bool} (correct : Correct env.kdump pagemap)
    (searching : options.op = .checkVmcoreinfo)
    (continues : options.shouldContinue = true) :
    ∀ {pages : List Nat} {process : Process},
      NoReadErrors env mi options pages →
        process.HasRoom options (notes env mi options pages).length →
          ∃ last,
            readPages env mi options pages process = .ok 0 last ∧
              last.foundCount =
                process.foundCount +
                  (if options.searchWithinPage = true then 0
                    else (notes env mi options pages).length) ∧
              last.notesWritten =
                process.notesWritten +
                  takenNotes env options (notes env mi options pages)
                    process.written.length
  | [], process, _, _ => by
      refine ⟨process, rfl, ?_, rfl⟩
      rw [notes, List.filterMap_nil, List.length_nil, ite_self, Nat.add_zero]
  | pfn :: rest, process, noErrors, room => by
      rw [notes_cons] at room ⊢
      cases found :
          noteIn env options (mi.address pfn)
            (contents env.memory (mi.address pfn) mi.pageSize) with
      | none =>
          rw [found] at room
          rw [readPages_skip correct searching noErrors found]
          exact readPages_continue correct searching continues noErrors.tail
            room
      | some text =>
          rw [found] at room
          dsimp only at room ⊢
          rw [List.length_cons] at room
          have isText := osrelease_isPrefixOf_note env options correct found
          have roomHere : process.HasRoom options 1 := by
            intro outside
            have large := room outside
            omega
          have first := afterNote_run env options (process.noted env options text)
          rw [if_pos continues,
            ← checkVmcoreinfo_some env options found roomHere] at first
          have counted := foundCount_noted env options process text
          have calls := written_length_noted env options process text
          have inOutput := notesWritten_noted env options process isText
          have dashesWritten :=
            notesWritten_afterDashes env (process.noted env options text)
          generalize process.noted env options text = middle at *
          have roomRest :
              (middle.afterWrite env dashes 4).HasRoom options
                (notes env mi options rest).length := by
            intro outside
            have large := room outside
            rw [outside, if_neg Bool.false_ne_true] at counted
            change middle.foundCount + _ < _
            omega
          obtain ⟨last, run, foundCount, notesWritten⟩ :=
            readPages_continue correct searching continues noErrors.tail
              roomRest
          refine ⟨last, ?_, ?_, ?_⟩
          · rw [readPages_cons_search correct searching noErrors,
              bind_of_ok first]
            exact run
          · rw [foundCount]
            change middle.foundCount + _ = _
            rw [counted, List.length_cons]
            split <;> omega
          · have moreCalls :
                (middle.afterWrite env dashes 4).written.length =
                  process.written.length + 2 := by
              rw [Process.afterWrite, List.length_append, calls]
              rfl
            rw [notesWritten, dashesWritten, inOutput, moreCalls, takenNotes,
              Nat.add_assoc]

/-- The search that goes on does not get through when the count overflows. -/
theorem readPages_overflow
    {pagemap : List Bool} (correct : Correct env.kdump pagemap)
    (searching : options.op = .checkVmcoreinfo)
    (continues : options.shouldContinue = true) :
    ∀ {pages : List Nat} {process : Process},
      NoReadErrors env mi options pages → process.HasRoom options 0 →
        ¬ process.HasRoom options (notes env mi options pages).length →
          ∃ exit last,
            readPages env mi options pages process = .error exit last
  | [], process, _, room, full => absurd room full
  | pfn :: rest, process, noErrors, room, full => by
      rw [notes_cons] at full
      cases found :
          noteIn env options (mi.address pfn)
            (contents env.memory (mi.address pfn) mi.pageSize) with
      | none =>
          rw [found] at full
          rw [readPages_skip correct searching noErrors found]
          exact readPages_overflow correct searching continues noErrors.tail
            room full
      | some text =>
          rw [found] at full
          rw [readPages_cons_search correct searching noErrors]
          by_cases roomHere : process.HasRoom options 1
          · have first :=
              afterNote_run env options (process.noted env options text)
            rw [if_pos continues,
              ← checkVmcoreinfo_some env options found roomHere] at first
            have counted := foundCount_noted env options process text
            rw [bind_of_ok first]
            generalize process.noted env options text = middle at *
            rw [Process.HasRoom, Classical.not_imp] at full
            obtain ⟨outside, large⟩ := full
            rw [outside, if_neg Bool.false_ne_true] at counted
            have here := roomHere outside
            apply readPages_overflow correct searching continues noErrors.tail
            · intro _
              change middle.foundCount + 0 < _
              omega
            · intro roomRest
              have small := roomRest outside
              change middle.foundCount + _ < _ at small
              rw [List.length_cons] at large
              omega
          · obtain ⟨last, stopped⟩ :=
              checkVmcoreinfo_overflow env options found roomHere
            rw [bind_of_error stopped]
            exact ⟨_, _, rfl⟩

/-- The other search ends with the first note, with an error. -/
theorem readPages_first
    {pagemap : List Bool} (correct : Correct env.kdump pagemap)
    (searching : options.op = .checkVmcoreinfo)
    (stops : options.shouldContinue = false) {process : Process}
    (room : process.HasRoom options 1) :
    ∀ {pages : List Nat}, NoReadErrors env mi options pages →
      readPages env mi options pages process =
        match notes env mi options pages with
        | [] => .ok 0 process
        | text :: _ => .ok (-1) (process.noted env options text)
  | [], _ => rfl
  | pfn :: rest, noErrors => by
      rw [notes_cons]
      cases found :
          noteIn env options (mi.address pfn)
            (contents env.memory (mi.address pfn) mi.pageSize) with
      | none =>
          rw [readPages_skip correct searching noErrors found]
          exact readPages_first correct searching stops room noErrors.tail
      | some text =>
          have first := afterNote_run env options (process.noted env options text)
          rw [stops, if_neg Bool.false_ne_true,
            ← checkVmcoreinfo_some env options found room] at first
          rw [readPages_cons_search correct searching noErrors,
            bind_of_ok first]
          rfl

/-! ## What is taken -/

/-- What holds of every note and its call of `write`. -/
theorem forall_note_cons
    (holds : Nat → List UInt8 → Prop) {first : List UInt8}
    {rest : List (List UInt8)} {call : Nat} :
    (∀ k text, (first :: rest)[k]? = some text → holds (call + 2 * k) text) ↔
      holds call first ∧
        ∀ k text, rest[k]? = some text → holds (call + 2 + 2 * k) text := by
  constructor
  · intro each
    refine ⟨each 0 first rfl, ?_⟩
    intro k text there
    have later := each (k + 1) text there
    have place : call + 2 + 2 * k = call + 2 * (k + 1) := by omega
    rw [place]
    exact later
  · rintro ⟨here, others⟩ k text there
    cases k with
    | zero =>
        cases there
        exact here
    | succ k =>
        have later := others k text there
        have place : call + 2 * (k + 1) = call + 2 + 2 * k := by omega
        rw [place]
        exact later

variable (env options) in
theorem takenNotes_le :
    ∀ (texts : List (List UInt8)) (call : Nat),
      takenNotes env options texts call ≤ texts.length
  | [], _ => Nat.le_refl _
  | text :: rest, call => by
      have others := takenNotes_le rest (call + 2)
      rw [takenNotes, List.length_cons]
      split <;> omega

theorem takenNotes_eq_length_iff :
    ∀ {texts : List (List UInt8)} {call : Nat},
      takenNotes env options texts call = texts.length ↔
        ∀ k text, texts[k]? = some text →
          Takes env options (call + 2 * k) text
  | [], _ => ⟨fun _ _ _ => nofun, fun _ => rfl⟩
  | text :: rest, call => by
      have most := takenNotes_le env options rest (call + 2)
      refine Iff.trans ?_ (forall_note_cons (Takes env options)).symm
      rw [← takenNotes_eq_length_iff, takenNotes, List.length_cons]
      split
      · next taken =>
          rw [and_iff_right taken]
          omega
      · next lost =>
          constructor
          · intro all
            omega
          · exact fun taken => absurd taken.1 lost

theorem takenNotes_eq_zero_iff :
    ∀ {texts : List (List UInt8)} {call : Nat},
      takenNotes env options texts call = 0 ↔
        ∀ k text, texts[k]? = some text →
          ¬ Takes env options (call + 2 * k) text
  | [], _ => ⟨fun _ _ _ => nofun, fun _ => rfl⟩
  | text :: rest, call => by
      refine Iff.trans ?_
        (forall_note_cons fun call text =>
          ¬ Takes env options call text).symm
      rw [← takenNotes_eq_zero_iff, takenNotes]
      split
      · next taken =>
          constructor
          · intro nothing
            omega
          · exact fun lost => absurd taken lost.1
      · next lost =>
          rw [and_iff_right lost, Nat.zero_add]

end Search

/-! ## The verdict -/

/-- A search that goes on to the end is a success. -/
theorem truthful_of_end_iff
    {options : Options} {last : Process} {found written : Nat}
    (searching : options.op = .checkVmcoreinfo)
    (foundCount : last.foundCount = found)
    (notesWritten : last.notesWritten = written) :
    Truthful (verdict options 0 last.foundCount) last ↔ found = written := by
  constructor
  · intro truthful
    rw [← foundCount, ← notesWritten]
    exact truthful.counted
  · intro same
    rw [same] at foundCount
    refine ⟨foundCount.trans notesWritten.symm, ?_, fun _ => rfl⟩
    rw [notesWritten, verdict, foundCount]
    dsimp only
    split
    · next several => simp; omega
    · split
      · next none => simp [none.2.1]
      · next some =>
          have nonzero : written ≠ 0 := fun none =>
            some ⟨rfl, none, searching⟩
          simp [nonzero]

/-- A search that ends with an error is not reported truthfully. -/
theorem not_truthful_of_error (options : Options) (last : Process) :
    ¬ Truthful (verdict options (-1) last.foundCount) last := by
  intro truthful
  by_cases none : last.notesWritten = 0
  · have message := truthful.message.mpr none
    rw [verdict] at message
    simp at message
  · have success := truthful.success (Nat.pos_of_ne_zero none)
    rw [verdict] at success
    simp at success

/-! ## The theorem -/

/-- The search is reported truthfully if and only if there is no note in the
pages; or it goes on, the notes start pages, fit into the count and are all
written whole; or it goes on, the notes are looked for within the pages, and
none of them is written whole. -/
theorem search_truthful_iff
    {env : Env} {options : Options} {pagemap : List Bool} {mi : MemoryInfo}
    {fuel : Nat} (correct : Correct env.kdump pagemap)
    (info : env.kdump.info = some mi)
    (searching : options.op = .checkVmcoreinfo)
    (enough : pagemap.length < fuel)
    (noErrors : NoReadErrors env mi options (presentFrom pagemap 0))
    (old : List UInt8) :
    (∃ verdict last,
      main env options fuel (Process.start old) = .ok verdict last ∧
        Truthful verdict last) ↔
      notes env mi options (presentFrom pagemap 0) = [] ∨
        (options.shouldContinue = true ∧ options.searchWithinPage = false ∧
          (notes env mi options (presentFrom pagemap 0)).length < 2 ^ 31 ∧
          ∀ k text,
            (notes env mi options (presentFrom pagemap 0))[k]? = some text →
              Takes env options (2 * k) text) ∨
        (options.shouldContinue = true ∧ options.searchWithinPage = true ∧
          ∀ k text,
            (notes env mi options (presentFrom pagemap 0))[k]? = some text →
              ¬ Takes env options (2 * k) text) := by
  have ends : ∀ {rv : Int} {final : Process},
      readPages env mi options (presentFrom pagemap 0) (Process.start old) =
          .ok rv final →
        ((∃ verdict last,
          main env options fuel (Process.start old) = .ok verdict last ∧
            Truthful verdict last) ↔
          Truthful (verdict options rv final.foundCount) final) := by
    intro rv final pages
    have run := main_of_readPages env correct info enough pages
    constructor
    · rintro ⟨verdict, last, again, truthful⟩
      cases run.symm.trans again
      exact truthful
    · exact fun truthful => ⟨_, _, run, truthful⟩
  have room : (Process.start old).HasRoom options 1 := fun _ =>
    show 0 + 1 < 2 ^ 31 by decide
  generalize found : notes env mi options (presentFrom pagemap 0) = texts
  cases continues : options.shouldContinue with
  | false =>
      have run := readPages_first correct searching continues room noErrors
      rw [found] at run
      cases texts with
      | nil =>
          rw [ends run, truthful_of_end_iff searching rfl rfl]
          exact ⟨fun _ => Or.inl rfl, fun _ => rfl⟩
      | cons text rest =>
          rw [ends run]
          constructor
          · exact fun truthful =>
              absurd truthful (not_truthful_of_error options _)
          · rintro (nothing | ⟨goesOn, -⟩ | ⟨goesOn, -⟩)
            · cases nothing
            · cases goesOn
            · cases goesOn
  | true =>
      by_cases fits : (Process.start old).HasRoom options texts.length
      · rw [← found] at fits
        obtain ⟨last, run, foundCount, notesWritten⟩ :=
          readPages_continue correct searching continues noErrors fits
        rw [found] at foundCount notesWritten fits
        rw [ends run, truthful_of_end_iff searching foundCount notesWritten]
        change 0 + _ = 0 + takenNotes env options texts 0 ↔ _
        rw [Nat.zero_add, Nat.zero_add, eq_comm]
        have places : ∀ k, 0 + 2 * k = 2 * k := fun k => Nat.zero_add _
        cases within : options.searchWithinPage with
        | false =>
            have small : 0 + texts.length < 2 ^ 31 := fits within
            rw [Nat.zero_add] at small
            rw [if_neg Bool.false_ne_true, takenNotes_eq_length_iff]
            simp only [places]
            constructor
            · exact fun all => Or.inr (Or.inl ⟨trivial, trivial, small, all⟩)
            · rintro (nothing | ⟨-, -, -, all⟩ | ⟨-, inside, -⟩)
              · rw [nothing]
                exact fun k text => nofun
              · exact all
              · cases inside
        | true =>
            rw [if_pos rfl, takenNotes_eq_zero_iff]
            simp only [places]
            constructor
            · exact fun none => Or.inr (Or.inr ⟨trivial, trivial, none⟩)
            · rintro (nothing | ⟨-, outside, -⟩ | ⟨-, -, none⟩)
              · rw [nothing]
                exact fun k text => nofun
              · cases outside
              · exact none
      · have start : (Process.start old).HasRoom options 0 := fun _ =>
          show 0 + 0 < 2 ^ 31 by decide
        rw [← found] at fits
        obtain ⟨exit, last, stopped⟩ :=
          readPages_overflow correct searching continues noErrors start fits
        rw [found, Process.HasRoom, Classical.not_imp] at fits
        obtain ⟨outside, large⟩ := fits
        change ¬ 0 + texts.length < _ at large
        rw [Nat.zero_add] at large
        constructor
        · rintro ⟨verdict, last, run, -⟩
          obtain ⟨rv, pages, -⟩ := readPages_of_main env correct info enough run
          rw [stopped] at pages
          cases pages
        · rintro (nothing | ⟨-, -, small, -⟩ | ⟨-, inside, -⟩)
          · rw [nothing] at large
            exact absurd (by decide) large
          · exact absurd small large
          · rw [outside] at inside
            cases inside

/-- `-i` or `-I`, with or without `-f`. -/
def searchOptions (shouldContinue searchWithinPage : Bool) : Options where
  op := .checkVmcoreinfo
  shouldContinue
  searchWithinPage
  persist := false

/-- Two pages that start with a note, and one between them that is not there. -/
def twoNotes : Env where
  kdump := .ofBitmap [true, false, true] 16 4 64
  memory addr := osrelease.getD (addr % 32) 0
  writes _ := .complete
  behind _ := []

/-- `-I` writes both notes and reports them. -/
theorem search_truthful_iff_twoNotes :
    notes twoNotes ⟨16, 4⟩ (searchOptions true false)
          (presentFrom [true, false, true] 0) =
        [osrelease, osrelease] ∧
      ∃ verdict last,
        main twoNotes (searchOptions true false) 4 (Process.start []) =
            .ok verdict last ∧
          Truthful verdict last := by
  have info : twoNotes.kdump.info = some ⟨16, 4⟩ := rfl
  have searching : (searchOptions true false).op = .checkVmcoreinfo := rfl
  have enough : [true, false, true].length < 4 := by decide
  have noErrors :
      NoReadErrors twoNotes ⟨16, 4⟩ (searchOptions true false)
        (presentFrom [true, false, true] 0) :=
    ⟨fun _ _ => rfl, nofun⟩
  have both :
      notes twoNotes ⟨16, 4⟩ (searchOptions true false)
          (presentFrom [true, false, true] 0) =
        [osrelease, osrelease] := by
    decide +kernel
  refine ⟨both, ?_⟩
  refine
    (search_truthful_iff (Kdump.ofBitmap_correct _ _ _ _) info searching enough
      noErrors _).mpr ?_
  rw [both]
  refine Or.inr (Or.inl ⟨rfl, rfl, by decide, ?_⟩)
  intro k text here
  have same : text = osrelease := by
    have member := List.mem_of_getElem? here
    simpa using member
  rw [same]
  exact Nat.le_refl 10

/-- One page, with a note at its start that ends at once. -/
def exampleSearch : Env where
  kdump := .ofBitmap [true] 16 4 32
  memory addr := osrelease.getD addr 0
  writes _ := .complete
  behind _ := []

/-- The run writes one note and reports this. -/
def reports (report : Verdict) (foundCount : Nat) (verdict : Verdict)
    (last : Process) : Bool :=
  verdict == report && last.foundCount == foundCount && last.notesWritten == 1

/-- With `-i` the note is written and the run ends with `EXIT_FAILURE`; with `-I`
and `-f` it is written, not counted, and said not to be found. -/
theorem search_is_not_truthful :
    Correct exampleSearch.kdump [true] ∧
      (∃ verdict last,
        main exampleSearch (searchOptions false false) 2 (Process.start []) =
            .ok verdict last ∧
          reports ⟨none, false⟩ 1 verdict last = true ∧
          ¬ Truthful verdict last) ∧
      ∃ verdict last,
        main exampleSearch (searchOptions true true) 2 (Process.start []) =
            .ok verdict last ∧
          reports ⟨some .couldNotFind, true⟩ 0 verdict last = true ∧
          ¬ Truthful verdict last := by
  refine ⟨Kdump.ofBitmap_correct _ _ _ _, ?_, ?_⟩
  · obtain ⟨verdict, last, run, report⟩ :
        ∃ verdict last,
          main exampleSearch (searchOptions false false) 2
              (Process.start []) = .ok verdict last ∧
            reports ⟨none, false⟩ 1 verdict last = true :=
      exists_of_returnsWith (by decide +kernel)
    refine ⟨verdict, last, run, report, ?_⟩
    intro truthful
    simp only [reports, Bool.and_eq_true, beq_iff_eq] at report
    obtain ⟨⟨rfl, -⟩, written⟩ := report
    have success := truthful.success (written ▸ Nat.one_pos)
    cases success
  · obtain ⟨verdict, last, run, report⟩ :
        ∃ verdict last,
          main exampleSearch (searchOptions true true) 2
              (Process.start []) = .ok verdict last ∧
            reports ⟨some .couldNotFind, true⟩ 0 verdict last = true :=
      exists_of_returnsWith (by decide +kernel)
    refine ⟨verdict, last, run, report, ?_⟩
    intro truthful
    simp only [reports, Bool.and_eq_true, beq_iff_eq] at report
    obtain ⟨⟨-, count⟩, written⟩ := report
    have counted := truthful.counted
    rw [count, written] at counted
    cases counted

end KernelStuff.Dumpphys
