import KernelStuff.Editbuildid.Search

/-!
# The exit status of editbuildid

Whatever the system calls do, the search leaves the file alone and returns a
build ID of acceptable size.  What is written after it, and the status, depend
on one `lseek` and one `write`, whose result is dropped.
-/

namespace KernelStuff.Editbuildid

open KernelStuff.Library

section Search

variable (env : Env)

/-! ## What the search returns -/

/-- Either nothing has been stored, or a build ID of acceptable size. -/
def Stores (out : BuildidInfo) (result : Int × BuildidInfo) : Prop :=
  result.2 = out ∨ result.1 = 1 ∧ result.2.bytesSize ≤ maxBuildidSize

theorem Stores.eq_of_zero
    {out found : BuildidInfo} (stores : Stores out (0, found)) :
    found = out := by
  rcases stores with same | ⟨one, _⟩
  · exact same
  · exact absurd one (by decide : (0 : Int) ≠ 1)

theorem findBuildid_stores (info : ElfInfo) (offset len : Nat)
    (out : BuildidInfo) :
    Yields (Stores out) (findBuildid env info offset len out) := by
  rw [findBuildid]
  refine Yields.bind (yields_trivial _) ?_
  intro fetched _
  cases fetched with
  | none => exact yields_pure (Or.inl rfl)
  | some data =>
      refine Yields.bind (yields_trivial _) ?_
      intro _ _
      refine Yields.bind (yields_trivial _) ?_
      intro _ _
      cases ended : evaluate (noteStep env.host info offset data)
          (data.bytes.length + 1) 0 with
      | none => exact yields_throw _
      | some exit =>
          cases exit with
          | notFound => exact yields_pure (Or.inl rfl)
          | found found =>
              obtain ⟨last, _, stops⟩ := halts_of_evaluate ended
              obtain ⟨_, small, shape⟩ := noteStep_found stops
              rw [shape]
              exact yields_pure (Or.inr ⟨rfl, small⟩)

theorem searchNotes_stores (table : Table) (entries : Buffer) (info : ElfInfo)
    (number entsize start : Nat) (rv : Int) (out : BuildidInfo) :
    Yields (Stores out)
      (searchNotes env table entries info number entsize start rv out) := by
  rw [searchNotes]
  split
  · exact yields_pure (Or.inl rfl)
  · next i offset size found =>
      have smaller : number - (i + 1) < number - start := by
        have bounds := findNotes_bounds found
        omega
      refine Yields.bind (findBuildid_stores env info offset size out) ?_
      rintro ⟨rv, later⟩ stores
      dsimp only
      split
      · exact yields_pure stores
      · next zero =>
          have nothing : rv = 0 := not_not.mp zero
          subst nothing
          rw [stores.eq_of_zero]
          exact searchNotes_stores table entries info number entsize (i + 1) 0 out
termination_by number - start

theorem findBuildidTable_stores (table : Table) (rv : Int) (info : ElfInfo)
    (ehdr : Buffer) (out : BuildidInfo) :
    Yields (Stores out) (findBuildidTable env table rv info ehdr out) := by
  rw [findBuildidTable]
  apply Yields.ite
  · exact yields_pure (Or.inl rfl)
  · refine Yields.bind (yields_trivial _) ?_
    intro fetched _
    cases fetched with
    | none => exact yields_pure (Or.inl rfl)
    | some entries =>
        refine Yields.bind (yields_trivial _) ?_
        intro _ _
        exact searchNotes_stores env table entries info _ _ 0 rv out

theorem findBuildId_stores (out : BuildidInfo) :
    Yields (Stores out) (findBuildId env out) := by
  rw [findBuildId]
  refine Yields.bind (yields_trivial _) ?_
  intro process _
  refine Yields.bind (yields_trivial _) ?_
  rintro ⟨rv, bytes⟩ _
  apply Yields.ite
  · exact yields_pure (Or.inl rfl)
  · refine Yields.bind (yields_trivial _) ?_
    intro _ _
    dsimp only
    cases elfInfo ⟨bytes, env.beyond process.calls⟩ with
    | none => exact yields_pure (Or.inl rfl)
    | some info =>
        refine Yields.bind
          (findBuildidTable_stores env phdrTable env.phdrRv info _ out) ?_
        rintro ⟨rv, later⟩ stores
        dsimp only
        split
        · exact yields_pure stores
        · next zero =>
            have nothing : rv = 0 := not_not.mp zero
            subst nothing
            rw [stores.eq_of_zero]
            exact
              findBuildidTable_stores env shdrTable env.shdrRv info _ out

end Search

/-! ## After the search -/

section Edit

variable (env : Env)

/-- `main` with `-n` once the search has returned. -/
def afterSearch (newidHex : List UInt8) (rv : Int) (info : BuildidInfo) :
    Program Int :=
  if rv < 0 then return rv
  else if rv = 0 then return rv
  else
    match newidBytes newidHex with
    | none => return 1
    | some bytes =>
        if newidHex.length / 2 ≠ info.bytesSize then return 1
        else writeNewBuildid env info.dataOffset bytes

/-- The run of `-n` comes to the end of its search. -/
def SearchEnds (bytes : List UInt8) (rv : Int) (info : BuildidInfo)
    (searched : Process) : Prop :=
  ∃ opened,
    openFile env (Process.initial bytes) = .ok true opened ∧
      findBuildId env .zero opened = .ok (rv, info) searched

/-- The seek before the write succeeds. -/
def Seeks (searched : Process) (offset : Nat) : Prop :=
  env.outcome searched.calls ≠ .failure ∧ offset < 2 ^ 63

/-- How many bytes the write after the search transfers. -/
def transferred (searched : Process) (count : Nat) : Nat :=
  (env.outcome (searched.calls + 1)).limit count

/-- The text is the hex text of the bytes. -/
def Denotes (newidHex data : List UInt8) : Prop :=
  newidHex.length = 2 * data.length ∧ fromHexPairs newidHex = some data

/-- If the status is 0, the descriptor that was found holds the new build ID. -/
def Truthful (bytes newidHex : List UInt8) : Prop :=
  ∀ rv last,
    main env false (some newidHex) (Process.initial bytes) = .ok rv last →
      exitStatus rv = 0 →
        ∃ searchRv info searched data,
          SearchEnds env bytes searchRv info searched ∧
            info.hex.isSome = true ∧ Denotes newidHex data ∧
            data.length = info.bytesSize ∧
            slice last.file.bytes info.dataOffset info.bytesSize = data

/-- The search does not end with a status of 0; and where a new build ID is
written, one has been found, and what the write does not transfer is there
already. -/
def ReliableSearch (bytes newidHex : List UInt8) : Prop :=
  ∀ rv info searched, SearchEnds env bytes rv info searched →
    ¬ (rv ≤ 0 ∧ exitStatus rv = 0) ∧
      ∀ data, 0 < rv → Denotes newidHex data →
        data.length = info.bytesSize → Seeks env searched info.dataOffset →
          info.hex.isSome = true ∧
            slice bytes
                (info.dataOffset + transferred env searched data.length)
                (data.length - transferred env searched data.length) =
              data.drop (transferred env searched data.length)

variable {env}

theorem SearchEnds.unique
    {bytes : List UInt8} {rv other : Int} {info otherInfo : BuildidInfo}
    {searched otherSearched : Process}
    (left : SearchEnds env bytes rv info searched)
    (right : SearchEnds env bytes other otherInfo otherSearched) :
    rv = other ∧ info = otherInfo ∧ searched = otherSearched := by
  obtain ⟨opened, opens, search⟩ := left
  obtain ⟨otherOpened, otherOpens, otherSearch⟩ := right
  rw [opens] at otherOpens
  cases otherOpens
  rw [search] at otherSearch
  cases otherSearch
  exact ⟨rfl, rfl, rfl⟩

/-- What the search leaves behind. -/
theorem SearchEnds.spec
    {bytes : List UInt8} {rv : Int} {info : BuildidInfo} {searched : Process}
    (ends : SearchEnds env bytes rv info searched) :
    searched.file.bytes = bytes ∧ Stores .zero (rv, info) := by
  obtain ⟨opened, opens, search⟩ := ends
  have openedBytes := ((openFile_keeps env).ok opens).bytes_eq
  have searchedBytes := ((findBuildId_keeps env .zero).ok search).bytes_eq
  exact
    ⟨searchedBytes.trans openedBytes,
      findBuildId_stores env .zero _ _ _ search⟩

theorem Stores.bytesSize_le
    {rv : Int} {info : BuildidInfo} (stores : Stores .zero (rv, info)) :
    info.bytesSize ≤ maxBuildidSize := by
  rcases stores with same | ⟨_, small⟩
  · subst same
    exact Nat.zero_le _
  · exact small

theorem Stores.hex_of_not_found
    {rv : Int} {info : BuildidInfo} (stores : Stores .zero (rv, info))
    (notFound : rv ≤ 0) : info.hex = none := by
  rcases stores with same | ⟨one, _⟩
  · subst same
    rfl
  · change rv = 1 at one
    omega

/-- A run of `-n` that returns could not open the file, or comes to the end of
the search. -/
theorem main_new_cases
    {bytes newidHex : List UInt8} {rv : Int} {last : Process}
    (run : main env false (some newidHex) (Process.initial bytes) =
      .ok rv last) :
    rv = 1 ∨
      ∃ searchRv info searched,
        SearchEnds env bytes searchRv info searched ∧
          afterSearch env newidHex searchRv info searched = .ok rv last := by
  change (openFile env >>= _) _ = _ at run
  obtain ⟨isOpen, opened, opens, rest⟩ := bind_eq_ok run
  cases isOpen with
  | false =>
      cases rest
      exact Or.inl rfl
  | true =>
      change (findBuildId env .zero >>= _) _ = _ at rest
      obtain ⟨⟨searchRv, info⟩, searched, search, edits⟩ := bind_eq_ok rest
      exact Or.inr ⟨searchRv, info, searched, ⟨opened, opens, search⟩, edits⟩

theorem SearchEnds.main_eq
    {bytes : List UInt8} {rv : Int} {info : BuildidInfo} {searched : Process}
    (ends : SearchEnds env bytes rv info searched) (newidHex : List UInt8) :
    main env false (some newidHex) (Process.initial bytes) =
      afterSearch env newidHex rv info searched := by
  obtain ⟨opened, opens, search⟩ := ends
  change (openFile env >>= _) _ = _
  rw [bind_of_ok opens]
  change (findBuildId env .zero >>= _) _ = _
  rw [bind_of_ok search]
  rfl

theorem writeNewBuildid_of_not_seeks
    {offset : Nat} {process : Process} (data : List UInt8)
    (stuck : ¬ Seeks env process offset) :
    ∃ last, writeNewBuildid env offset data process = .ok (-1) last ∧
      last.file.bytes = process.file.bytes := by
  have refused :
      env.outcome process.calls = .failure ∨ 2 ^ 63 ≤ offset := by
    by_contra reachable
    rw [not_or] at reachable
    exact stuck ⟨reachable.1, Nat.lt_of_not_le reachable.2⟩
  have seek :
      lseek env offset process =
        .ok false { process with calls := process.calls + 1 } := by
    change (if _ then _ else _ : Program Bool) _ = _
    rw [if_pos refused]
    rfl
  refine ⟨{ process with calls := process.calls + 1 }, ?_, rfl⟩
  rw [writeNewBuildid, bind_of_ok seek]
  rfl

/-- The process after a write of which `count` bytes were transferred. -/
def Process.wrote (process : Process) (data : List UInt8) (count : Nat) :
    Process :=
  { process with
    calls := process.calls + 1
    file :=
      ⟨overwrite process.file.bytes process.file.pos (data.take count),
        process.file.pos + (data.take count).length⟩ }

/-- A write that fails transfers nothing. -/
theorem write_eq (data : List UInt8) (process : Process) :
    ∃ rv, write env data process =
      .ok rv
        (process.wrote data
          ((env.outcome process.calls).limit data.length)) := by
  by_cases failure : env.outcome process.calls = .failure
  · refine ⟨-1, ?_⟩
    change (if _ then _ else _ : Program Int) _ = _
    rw [if_pos failure, failure, CallOutcome.limit, Process.wrote,
      List.take_zero, overwrite_nil]
    rfl
  · refine ⟨intOf (data.take
      ((env.outcome process.calls).limit data.length)).length, ?_⟩
    change (if _ then _ else _ : Program Int) _ = _
    rw [if_neg failure]
    rfl

/-- Whatever the write does, the function returns 0. -/
theorem writeNewBuildid_of_seeks
    {offset : Nat} {process : Process} (data : List UInt8)
    (seeks : Seeks env process offset) :
    ∃ last, writeNewBuildid env offset data process = .ok 0 last ∧
      last.file.bytes =
        overwrite process.file.bytes offset
          (data.take (transferred env process data.length)) := by
  have reachable :
      ¬ (env.outcome process.calls = .failure ∨ 2 ^ 63 ≤ offset) := by
    rintro (failure | beyond)
    · exact seeks.1 failure
    · exact absurd seeks.2 (Nat.not_lt_of_le beyond)
  have seek :
      lseek env offset process =
        .ok true
          { process with
            calls := process.calls + 1
            file.pos := offset } := by
    change (if _ then _ else _ : Program Bool) _ = _
    rw [if_neg reachable]
    rfl
  rw [writeNewBuildid, bind_of_ok seek]
  obtain ⟨rv, written⟩ :=
    write_eq data
      { process with
        calls := process.calls + 1
        file.pos := offset }
  change ∃ last, (write env data >>= _) _ = _ ∧ _
  rw [bind_of_ok written]
  exact ⟨_, rfl, rfl⟩

/-- What `-n` accepts as a new build ID of the right size. -/
theorem newidBytes_eq_some_iff
    {newidHex data : List UInt8} {count : Nat} (small : count < 2 ^ 30) :
    newidBytes newidHex = some data ∧ newidHex.length / 2 = count ↔
      Denotes newidHex data ∧ data.length = count := by
  rw [newidBytes, Denotes]
  constructor
  · rintro ⟨decoded, lengthEq⟩
    split at decoded
    · next even =>
        have below : newidHex.length < 2 ^ 31 := by omega
        rw [fromHex, intOf_of_lt below, if_neg (by omega), Int.toNat_natCast,
          List.take_length] at decoded
        have length := (fromHexPairs_spec even decoded).1
        exact ⟨⟨length, decoded⟩, by omega⟩
    · cases decoded
  · rintro ⟨⟨length, decoded⟩, dataLength⟩
    have below : newidHex.length < 2 ^ 31 := by omega
    rw [if_pos (by omega), fromHex, intOf_of_lt below, if_neg (by omega),
      Int.toNat_natCast, List.take_length]
    exact ⟨decoded, by omega⟩

/-- How a run of `-n` goes on after the search: with the search's own status,
with a status of 1, or with a write. -/
theorem afterSearch_cases
    {bytes : List UInt8} (newidHex : List UInt8) {searchRv : Int}
    {info : BuildidInfo} {searched : Process}
    (ends : SearchEnds env bytes searchRv info searched) :
    (searchRv ≤ 0 ∧
        afterSearch env newidHex searchRv info searched =
          .ok searchRv searched) ∨
      (0 < searchRv ∧
        (∀ data, Denotes newidHex data → data.length ≠ info.bytesSize) ∧
        afterSearch env newidHex searchRv info searched = .ok 1 searched) ∨
      ∃ data,
        0 < searchRv ∧ Denotes newidHex data ∧
          data.length = info.bytesSize ∧
          afterSearch env newidHex searchRv info searched =
            writeNewBuildid env info.dataOffset data searched := by
  have small : info.bytesSize < 2 ^ 30 := by
    have le := ends.spec.2.bytesSize_le
    rw [maxBuildidSize] at le
    omega
  rw [afterSearch]
  by_cases negative : searchRv < 0
  · rw [if_pos negative]
    exact Or.inl ⟨by omega, rfl⟩
  by_cases zero : searchRv = 0
  · rw [if_neg negative, if_pos zero]
    exact Or.inl ⟨by omega, rfl⟩
  have positive : 0 < searchRv := by omega
  rw [if_neg negative, if_neg zero]
  cases decoded : newidBytes newidHex with
  | none =>
      refine Or.inr (Or.inl ⟨positive, ?_, rfl⟩)
      intro data denotes sameSize
      have accepted :=
        ((newidBytes_eq_some_iff small).mpr ⟨denotes, sameSize⟩).1
      rw [decoded] at accepted
      cases accepted
  | some data =>
      by_cases sameSize : newidHex.length / 2 = info.bytesSize
      · obtain ⟨denotes, length⟩ :=
          (newidBytes_eq_some_iff small).mp ⟨decoded, sameSize⟩
        simp only [if_neg (not_not.mpr sameSize)]
        exact Or.inr (Or.inr ⟨data, positive, denotes, length, rfl⟩)
      · simp only [if_pos sameSize]
        refine Or.inr (Or.inl ⟨positive, ?_, rfl⟩)
        intro other denotes length
        exact
          sameSize ((newidBytes_eq_some_iff small).mpr ⟨denotes, length⟩).2

theorem Denotes.unique
    {newidHex data other : List UInt8} (left : Denotes newidHex data)
    (right : Denotes newidHex other) : data = other :=
  Option.some.inj (left.2.symm.trans right.2)

/-- The text and the data have been written exactly if what the write did not
transfer was there before. -/
theorem holds_after_write_iff
    (bytes data : List UInt8) (offset : Nat) {count : Nat}
    (within : count ≤ data.length) :
    slice (overwrite bytes offset (data.take count)) offset data.length =
        data ↔
      slice bytes (offset + count) (data.length - count) =
        data.drop count := by
  have split :=
    slice_overwrite_append_iff bytes offset (data.take count) (data.drop count)
  rw [List.length_take, Nat.min_eq_left within, List.length_drop,
    Nat.add_sub_cancel' within, List.take_append_drop] at split
  exact split

/-- A status of 0 means that the new build ID is in the file exactly if the search
and the write are not ones that fail silently. -/
theorem truthful_iff_reliableSearch
    (env : Env) (bytes newidHex : List UInt8) :
    Truthful env bytes newidHex ↔ ReliableSearch env bytes newidHex := by
  constructor
  · intro truthful rv info searched ends
    obtain ⟨sameBytes, stores⟩ := ends.spec
    have run := ends.main_eq newidHex
    constructor
    · rintro ⟨notFound, zero⟩
      rcases afterSearch_cases newidHex ends with
        ⟨_, after⟩ | ⟨positive, _⟩ | ⟨_, positive, _⟩
      · obtain ⟨otherRv, otherInfo, otherSearched, _, otherEnds, found, _⟩ :=
          truthful rv searched (run.trans after) zero
        obtain ⟨_, sameInfo, _⟩ := ends.unique otherEnds
        rw [← sameInfo, stores.hex_of_not_found notFound] at found
        cases found
      · omega
      · omega
    · intro data positive denotes length seeks
      rcases afterSearch_cases newidHex ends with
        ⟨notFound, _⟩ | ⟨_, refused, _⟩ | ⟨other, _, otherDenotes, _, after⟩
      · omega
      · exact absurd length (refused data denotes)
      · cases denotes.unique otherDenotes
        obtain ⟨last, wrote, lastBytes⟩ := writeNewBuildid_of_seeks data seeks
        obtain ⟨otherRv, otherInfo, otherSearched, written, otherEnds, found,
          writtenDenotes, _, there⟩ :=
          truthful 0 last (run.trans (after.trans wrote)) rfl
        obtain ⟨_, sameInfo, _⟩ := ends.unique otherEnds
        cases denotes.unique writtenDenotes
        rw [← sameInfo] at found there
        rw [lastBytes, sameBytes, ← length] at there
        exact
          ⟨found,
            (holds_after_write_iff bytes data info.dataOffset
              (CallOutcome.limit_le _ _)).mp there⟩
  · intro reliable rv last run zero
    rcases main_new_cases run with one | ⟨searchRv, info, searched, ends, after⟩
    · rw [one] at zero
      exact absurd zero (by decide)
    · obtain ⟨sameBytes, _⟩ := ends.spec
      obtain ⟨silent, writes⟩ := reliable searchRv info searched ends
      rcases afterSearch_cases newidHex ends with
        ⟨notFound, stops⟩ | ⟨_, _, stops⟩ | ⟨data, positive, denotes, length, goes⟩
      · rw [stops] at after
        cases after
        exact absurd ⟨notFound, zero⟩ silent
      · rw [stops] at after
        cases after
        exact absurd zero (by decide)
      · by_cases seeks : Seeks env searched info.dataOffset
        · obtain ⟨found, there⟩ := writes data positive denotes length seeks
          obtain ⟨written, wrote, lastBytes⟩ :=
            writeNewBuildid_of_seeks data seeks
          rw [goes, wrote] at after
          cases after
          refine
            ⟨searchRv, info, searched, data, ends, found, denotes, length, ?_⟩
          rw [lastBytes, sameBytes, ← length]
          exact
            (holds_after_write_iff bytes data info.dataOffset
              (CallOutcome.limit_le _ _)).mpr there
        · obtain ⟨written, stuck, _⟩ := writeNewBuildid_of_not_seeks data seeks
          rw [goes, stuck] at after
          cases after
          exact absurd zero (by decide)

end Edit

/-- `"ff"`. -/
def hexFf : List UInt8 := [102, 102]

end KernelStuff.Editbuildid
