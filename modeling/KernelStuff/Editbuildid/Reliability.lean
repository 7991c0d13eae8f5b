import KernelStuff.Editbuildid.FileBounds
import KernelStuff.Editbuildid.Status

/-!
# When a status of 0 can be relied on

The calls of a run are numbered: call 0 opens the file, call 1 reads the file
header, and a fetch takes two calls, a seek and a read.  Which areas a search comes
to, and how many calls it has made by then, follows from the bytes of the file,
from the outcomes of these calls, and from memory nobody has initialised.
-/

namespace KernelStuff.Editbuildid

open KernelStuff.Library

section Conditions

variable (env : Env) (bytes : List UInt8)

/-! ## Fetches -/

/-- The two calls from `call` on fetch the range. -/
structure Fetches (call offset len : Nat) : Prop where
  fetchable : Fetchable bytes offset len
  seek : env.outcome call ≠ .failure
  read : env.outcome (call + 1) ≠ .failure
  whole : (env.outcome (call + 1)).limit len = len

/-- What the fetch leaves in memory. -/
def fetchedData (call offset len : Nat) : Buffer :=
  ⟨slice bytes offset len, env.beyond (call + 1)⟩

variable (info : ElfInfo)

/-! ## Areas -/

section Area

variable (call : Nat) (area : Range)

/-- The area is fetched, and no note in it is taken for a build ID. -/
structure PassesArea : Prop where
  fetches : Fetches env bytes call area.1 area.2
  silent : ∀ k,
    noteOffset env.host info (fetchedData env bytes call area.1 area.2) k <
        area.2 →
      isBuildid env.host info (fetchedData env bytes call area.1 area.2)
          (noteOffset env.host info
            (fetchedData env bytes call area.1 area.2) k) =
        false

/-- The area is fetched, and the `k`-th note in it is the first one taken for a
build ID, and not of large size. -/
structure ShowsBuildid (k : Nat) : Prop where
  fetches : Fetches env bytes call area.1 area.2
  first :
    FirstBuildid env.host info (fetchedData env bytes call area.1 area.2) k
  small :
    descszAt env.host info (fetchedData env bytes call area.1 area.2)
        (noteOffset env.host info
          (fetchedData env bytes call area.1 area.2) k) ≤
      maxBuildidSize

/-- Where the descriptor of the `k`-th note is in the file. -/
def descriptorOffset (k : Nat) : Nat :=
  let data := fetchedData env bytes call area.1 area.2
  let nhdr := noteOffset env.host info data k
  (area.1 + noteDesc nhdr (nameszAt env.host info data nhdr)) % 2 ^ 64

def descriptorSize (k : Nat) : Nat :=
  let data := fetchedData env bytes call area.1 area.2
  descszAt env.host info data (noteOffset env.host info data k)

end Area

/-- All areas are passed; each takes the two calls of its fetch. -/
def PassesAreas (call : Nat) (areas : List Range) : Prop :=
  ∀ j area, areas[j]? = some area →
    PassesArea env bytes info (call + 2 * j) area

/-- The areas before the `m`-th are passed, and it shows a build ID in its `k`-th
note. -/
structure ShowsInAreas (call : Nat) (areas : List Range) (m : Nat)
    (area : Range) (k : Nat) : Prop where
  here : areas[m]? = some area
  before : PassesAreas env bytes info call (areas.take m)
  shows : ShowsBuildid env bytes info (call + 2 * m) area k

/-! ## Tables -/

/-- The area of the `i`-th entry, if it is one of notes. -/
def noteArea (table : Table) (entries : Buffer) (entsize i : Nat) :
    Option Range :=
  if getfield32 env.host info entries (i * entsize) table.entryType =
      table.wanted then
    some
      (getaddr env.host info entries (i * entsize) table.entryOffset,
        getaddr env.host info entries (i * entsize) table.entrySize)
  else none

section Table

variable (table : Table) (call : Nat)

/-- The note areas that the table declares, when its fetch begins with `call`. -/
def noteAreas : List Range :=
  (List.range (tableNumber bytes info table)).filterMap
    (noteArea env info table
      (fetchedData env bytes call (tableOffset bytes info table)
        (tableSize bytes info table))
      (tableEntsize bytes info table))

def FetchesTable : Prop :=
  Fetches env bytes call (tableOffset bytes info table)
    (tableSize bytes info table)

/-- The table is fetched, if there is one, and all its note areas are passed. -/
structure PassesTable : Prop where
  fetches : tableNumber bytes info table ≠ 0 →
    FetchesTable env bytes info table call
  areas :
    PassesAreas env bytes info (call + 2)
      (noteAreas env bytes info table call)

/-- The table is fetched, and its `m`-th note area is the first one to show a build
ID, in its `k`-th note. -/
structure ShowsInTable (m : Nat) (area : Range) (k : Nat) : Prop where
  used : tableNumber bytes info table ≠ 0
  fetches : FetchesTable env bytes info table call
  areas :
    ShowsInAreas env bytes info (call + 2)
      (noteAreas env bytes info table call) m area k

/-- What `rv` holds after a table has been passed: if it has entries but none of
notes, `rv` has not been assigned. -/
def rvAfter (rv : Int) : Int :=
  if tableNumber bytes info table ≠ 0 ∧
      noteAreas env bytes info table call = [] then rv
  else 0

/-- The first call after a table has been passed. -/
def callAfter : Nat :=
  if tableNumber bytes info table = 0 then call
  else call + 2 + 2 * (noteAreas env bytes info table call).length

end Table

/-! ## Files -/

/-- The file is opened, and its header read and accepted. -/
structure ReadsHeader : Prop where
  opens : env.outcome 0 ≠ .failure
  read : env.outcome 1 ≠ .failure
  whole : (env.outcome 1).limit ehdrSize = ehdrSize
  headed : ehdrSize ≤ bytes.length
  accepted : elfInfo ⟨slice bytes 0 ehdrSize, env.beyond 1⟩ = some info

/-- The program headers are passed, and the section headers are searched. -/
structure ComesToShdrs : Prop where
  header : ReadsHeader env bytes info
  phdrs : PassesTable env bytes info phdrTable 2
  goesOn : rvAfter env bytes info phdrTable 2 env.phdrRv = 0

/-- Both tables are passed, or the program headers are, with an `rv` that ends the
search; `rv` and the calls are what there is at the end. -/
inductive ShowsNothing : Int → Nat → Prop where
  | phdrs
      (header : ReadsHeader env bytes info)
      (phdrs : PassesTable env bytes info phdrTable 2)
      (stops : rvAfter env bytes info phdrTable 2 env.phdrRv ≠ 0) :
      ShowsNothing (rvAfter env bytes info phdrTable 2 env.phdrRv)
        (callAfter env bytes info phdrTable 2)
  | shdrs
      (comes : ComesToShdrs env bytes info)
      (shdrs :
        PassesTable env bytes info shdrTable
          (callAfter env bytes info phdrTable 2)) :
      ShowsNothing
        (rvAfter env bytes info shdrTable
          (callAfter env bytes info phdrTable 2) env.shdrRv)
        (callAfter env bytes info shdrTable
          (callAfter env bytes info phdrTable 2))

/-- The first build ID of the file is the `k`-th note of this area, whose fetch
begins with this call. -/
inductive Shows : Nat → Range → Nat → Prop where
  | phdrs {m : Nat} {area : Range} {k : Nat}
      (header : ReadsHeader env bytes info)
      (shows : ShowsInTable env bytes info phdrTable 2 m area k) :
      Shows (2 + 2 + 2 * m) area k
  | shdrs {m : Nat} {area : Range} {k : Nat}
      (comes : ComesToShdrs env bytes info)
      (shows :
        ShowsInTable env bytes info shdrTable
          (callAfter env bytes info phdrTable 2) m area k) :
      Shows (callAfter env bytes info phdrTable 2 + 2 + 2 * m) area k

end Conditions

/-- Nothing is taken for success: where the file shows no build ID, `rv` happens to
hold a status other than 0, or a positive one and the text is not an empty one that
would be written; and where it shows one, a text of its size is written in full, or
what is not written is in the file already. -/
structure Reliable (env : Env) (bytes newidHex : List UInt8) : Prop where
  nothing : ∀ info rv call, ShowsNothing env bytes info rv call →
    (rv ≤ 0 → exitStatus rv ≠ 0) ∧
      (0 < rv → newidHex = [] → env.outcome call = .failure)
  written : ∀ info call area k, Shows env bytes info call area k →
    ∀ data, Denotes newidHex data →
      data.length = descriptorSize env bytes info call area k →
        descriptorOffset env bytes info call area k < 2 ^ 63 →
          env.outcome (call + 2) ≠ .failure →
            slice bytes
                (descriptorOffset env bytes info call area k +
                  (env.outcome (call + 3)).limit data.length)
                (data.length - (env.outcome (call + 3)).limit data.length) =
              data.drop ((env.outcome (call + 3)).limit data.length)

section Fetched

variable {env : Env} {bytes : List UInt8} {process : Process}

theorem lseek_eq (env : Env) (offset : Nat) (process : Process) :
    lseek env offset process =
      if env.outcome process.calls = .failure ∨ 2 ^ 63 ≤ offset then
        .ok false { process with calls := process.calls + 1 }
      else
        .ok true
          { process with
            calls := process.calls + 1
            file.pos := offset } := by
  change (if _ then _ else _ : Program Bool) _ = _
  split <;> rfl

theorem read_eq (env : Env) (count : Nat) (process : Process) :
    read env count process =
      if env.outcome process.calls = .failure then
        .ok (-1, []) { process with calls := process.calls + 1 }
      else
        .ok
          (intOf
              (slice process.file.bytes process.file.pos
                ((env.outcome process.calls).limit count)).length,
            slice process.file.bytes process.file.pos
              ((env.outcome process.calls).limit count))
          { process with
            calls := process.calls + 1
            file.pos :=
              process.file.pos +
                (slice process.file.bytes process.file.pos
                  ((env.outcome process.calls).limit count)).length } := by
  change (if _ then _ else _ : Program (Int × List UInt8)) _ = _
  split <;> rfl

theorem fetchData_returns (env : Env) (offset len : Nat) (process : Process) :
    ∃ fetched last, fetchData env offset len process = .ok fetched last := by
  have seeks := lseek_eq env offset process
  split at seeks
  · rw [fetchData, bind_of_ok seeks]
    exact ⟨none, _, rfl⟩
  · have reads :=
      read_eq env len
        { process with
          calls := process.calls + 1
          file.pos := offset }
    rw [fetchData, bind_of_ok seeks]
    change ∃ fetched last, ((get : Program Process) >>= _) _ = _
    rw [bind_of_ok (get_eq _)]
    split at reads
    · rw [bind_of_ok reads]
      dsimp only
      split <;> exact ⟨_, _, rfl⟩
    · rw [bind_of_ok reads]
      dsimp only
      split <;> exact ⟨_, _, rfl⟩

variable (sameBytes : process.file.bytes = bytes)

include sameBytes

theorem fetchData_of_fetches {offset len : Nat}
    (fetches : Fetches env bytes process.calls offset len) :
    ∃ last,
      fetchData env offset len process =
          .ok (some (fetchedData env bytes process.calls offset len)) last ∧
        last.file.bytes = bytes ∧ last.calls = process.calls + 2 := by
  subst sameBytes
  obtain ⟨⟨offsetLt, lengthEq, lenLt⟩, seek, reads, whole⟩ := fetches
  have reachable :
      ¬ (env.outcome process.calls = .failure ∨ 2 ^ 63 ≤ offset) :=
    not_or.mpr ⟨seek, Nat.not_le_of_lt offsetLt⟩
  have sought := lseek_eq env offset process
  rw [if_neg reachable] at sought
  rw [fetchData, bind_of_ok sought]
  change ∃ last, ((get : Program Process) >>= _) _ = _ ∧ _
  have readEq :=
    read_eq env len
      { process with
        calls := process.calls + 1
        file.pos := offset }
  dsimp only at readEq
  rw [if_neg reads, whole, lengthEq, intOf_of_lt lenLt] at readEq
  rw [bind_of_ok (get_eq _), bind_of_ok readEq]
  have complete : ¬ (sizeT (len : Int) ≠ len ∨ 2 ^ 63 ≤ len) := by
    have same := sizeT_intOf_of_lt lenLt
    rw [intOf_of_lt lenLt] at same
    omega
  dsimp only
  rw [if_neg complete]
  exact ⟨_, rfl, rfl, rfl⟩

/-- A fetch that succeeds is one. -/
theorem fetches_of_fetchData {offset len : Nat} {data : Buffer}
    {last : Process}
    (run : fetchData env offset len process = .ok (some data) last) :
    Fetches env bytes process.calls offset len := by
  have fetchable := (fetchData_some run).1
  rw [sameBytes] at fetchable
  obtain ⟨reached, sought, seeks, rest⟩ := bind_eq_ok run
  rw [lseek_eq] at seeks
  split at seeks
  · cases seeks
    cases rest
  · next reachable =>
      rw [not_or] at reachable
      cases seeks
      obtain ⟨_, _, same, rest⟩ := bind_eq_ok rest
      cases same
      obtain ⟨⟨rv, content⟩, next, reads, rest⟩ := bind_eq_ok rest
      rw [read_eq] at reads
      have lenLt := fetchable.len_lt
      split at reads
      · cases reads
        dsimp only at rest
        rw [if_pos (Or.inl (by rw [sizeT]; omega))] at rest
        cases rest
      · next succeeded =>
          cases reads
          refine ⟨fetchable, reachable.1, succeeded, ?_⟩
          dsimp only at rest
          split at rest
          · cases rest
          · next accepted =>
              rw [not_or, not_not] at accepted
              have most :=
                CallOutcome.limit_le (env.outcome (process.calls + 1)) len
              have within :
                  (slice process.file.bytes offset
                    ((env.outcome (process.calls + 1)).limit len)).length ≤
                    (env.outcome (process.calls + 1)).limit len := by
                rw [slice_length]
                exact Nat.min_le_left _ _
              obtain ⟨all, -⟩ :=
                (sizeT_intOf_eq_iff (Nat.le_trans within most)
                  (by omega)).mp accepted.1
              omega

theorem fetchData_of_not_fetches {offset len : Nat}
    (stops : ¬ Fetches env bytes process.calls offset len) :
    ∃ last, fetchData env offset len process = .ok none last := by
  obtain ⟨fetched, last, run⟩ := fetchData_returns env offset len process
  cases fetched with
  | none => exact ⟨last, run⟩
  | some data => exact absurd (fetches_of_fetchData sameBytes run) stops

end Fetched

/-! ## The search of an area -/

/-- The search ends with -1, or not at all. -/
def Fails : EStateM.Result Spin Process (Int × BuildidInfo) → Prop
  | .ok (rv, _) _ => rv = -1
  | .error _ _ => True

/-- The search returns this after this many calls, and the file is as it was. -/
def Returns (bytes : List UInt8) (value : Int × BuildidInfo) (calls : Nat)
    (result : EStateM.Result Spin Process (Int × BuildidInfo)) : Prop :=
  ∃ last, result = .ok value last ∧ last.file.bytes = bytes ∧
    last.calls = calls

/-- What is stored for the `k`-th note. -/
def shownInfo (env : Env) (bytes : List UInt8) (info : ElfInfo) (call : Nat)
    (area : Range) (k : Nat) : BuildidInfo where
  dataOffset := descriptorOffset env bytes info call area k
  bytesSize := descriptorSize env bytes info call area k
  hex :=
    let data := fetchedData env bytes call area.1 area.2
    let nhdr := noteOffset env.host info data k
    some
      (toHex
        (data.read (noteDesc nhdr (nameszAt env.host info data nhdr))
          (descszAt env.host info data nhdr)))

section Area

variable {env : Env} {bytes : List UInt8} {info : ElfInfo} {area : Range}
  {process : Process} (sameBytes : process.file.bytes = bytes)

include sameBytes

variable (info) in
/-- A search of an area that has been fetched. -/
theorem findBuildid_of_fetches (out : BuildidInfo)
    (fetches : Fetches env bytes process.calls area.1 area.2) :
    ∃ last,
      findBuildid env info area.1 area.2 out process =
          areaResult out last
            (evaluate
              (noteStep env.host info area.1
                (fetchedData env bytes process.calls area.1 area.2))
              (area.2 + 1) 0) ∧
        last.file.bytes = bytes ∧ last.calls = process.calls + 2 := by
  obtain ⟨fetched, fetch, fetchedBytes, calls⟩ :=
    fetchData_of_fetches sameBytes fetches
  have length :
      (fetchedData env bytes process.calls area.1 area.2).bytes.length =
        area.2 :=
    fetches.fetchable.length_eq
  rw [findBuildid, bind_of_ok fetch]
  simp only [length]
  refine
    ⟨{ fetched with
        areas := fetched.areas ++ [(area.1, area.2)]
        inspected :=
          fetched.inspected ++
            inspectedNotes env info area.1
              (fetchedData env bytes process.calls area.1 area.2) },
      ?_, fetchedBytes, calls⟩
  cases evaluate
      (noteStep env.host info area.1
        (fetchedData env bytes process.calls area.1 area.2))
      (area.2 + 1) 0 with
  | none => rfl
  | some exit => cases exit <;> rfl

theorem findBuildid_of_passesArea (out : BuildidInfo)
    (passes : PassesArea env bytes info process.calls area) :
    Returns bytes (0, out) (process.calls + 2)
      (findBuildid env info area.1 area.2 out process) := by
  obtain ⟨last, run, lastBytes, calls⟩ :=
    findBuildid_of_fetches info sameBytes out passes.fetches
  have length := passes.fetches.fetchable.length_eq
  have silent :
      Silent env.host info area.1
        (fetchedData env bytes process.calls area.1 area.2) := by
    rw [silent_iff_noteOffset]
    exact fun k inside => passes.silent k (Nat.lt_of_lt_of_eq inside length)
  have ends := evaluate_notFound_iff.mpr silent
  change evaluate _ ((slice bytes area.1 area.2).length + 1) 0 = _ at ends
  rw [length] at ends
  rw [ends] at run
  exact ⟨last, run, lastBytes, calls⟩

theorem findBuildid_of_showsBuildid (out : BuildidInfo) {k : Nat}
    (shows : ShowsBuildid env bytes info process.calls area k) :
    Returns bytes (1, shownInfo env bytes info process.calls area k)
      (process.calls + 2)
      (findBuildid env info area.1 area.2 out process) := by
  obtain ⟨last, run, lastBytes, calls⟩ :=
    findBuildid_of_fetches info sameBytes out shows.fetches
  have length := shows.fetches.fetchable.length_eq
  have halts :
      Halts
        (noteStep env.host info area.1
          (fetchedData env bytes process.calls area.1 area.2)) 0
        (.found (shownInfo env bytes info process.calls area k)) := by
    refine ⟨_, reaches_noteOffset ?_ shows.first.first, ?_⟩
    · intro j before
      exact
        Nat.lt_of_le_of_lt (noteOffset_mono (Nat.le_of_lt before))
          shows.first.inside
    · exact
        noteStep_of_found shows.first.inside shows.first.here shows.small
  obtain ⟨exit, ends⟩ :=
    noteStep_evaluate (find_buildid_ends_iff.mp ⟨_, halts⟩)
  cases halts.unique (halts_of_evaluate ends)
  change evaluate _ ((slice bytes area.1 area.2).length + 1) 0 = _ at ends
  rw [length] at ends
  rw [ends] at run
  exact ⟨last, run, lastBytes, calls⟩

/-- An area that is not fetched, or whose first build ID is of large size. -/
theorem findBuildid_fails (out : BuildidInfo)
    (stops : ¬ PassesArea env bytes info process.calls area)
    (hidden : ∀ k, ¬ ShowsBuildid env bytes info process.calls area k) :
    Fails (findBuildid env info area.1 area.2 out process) := by
  by_cases fetches : Fetches env bytes process.calls area.1 area.2
  · obtain ⟨last, run, _⟩ :=
      findBuildid_of_fetches info sameBytes out fetches
    have length := fetches.fetchable.length_eq
    rw [run]
    cases ends :
        evaluate
          (noteStep env.host info area.1
            (fetchedData env bytes process.calls area.1 area.2))
          (area.2 + 1) 0 with
    | none => trivial
    | some exit =>
        obtain ⟨nhdr, reaches, halted⟩ := halts_of_evaluate ends
        obtain ⟨k, rfl, others⟩ := noteOffset_of_reaches reaches
        cases exit with
        | found found =>
            obtain ⟨inside, small, _⟩ := noteStep_found halted
            have here :
                isBuildid env.host info
                    (fetchedData env bytes process.calls area.1 area.2)
                    (noteOffset env.host info
                      (fetchedData env bytes process.calls area.1 area.2)
                      k) =
                  true := by
              by_contra other
              rw [noteStep_of_other inside (Bool.not_eq_true _ ▸ other)]
                at halted
              cases halted
            exact absurd ⟨fetches, ⟨inside, here, others⟩, small⟩ (hidden k)
        | notFound =>
            have silent :
                Silent env.host info area.1
                  (fetchedData env bytes process.calls area.1 area.2) := by
              apply evaluate_notFound_iff.mp
              change evaluate _ ((slice bytes area.1 area.2).length + 1) 0 = _
              rw [length]
              exact ends
            rw [silent_iff_noteOffset] at silent
            exact
              absurd
                ⟨fetches, fun j inside =>
                  silent j (Nat.lt_of_lt_of_eq inside length.symm)⟩
                stops
  · obtain ⟨last, fetch⟩ := fetchData_of_not_fetches sameBytes fetches
    rw [findBuildid, bind_of_ok fetch]
    rfl

end Area

/-! ## The loop over the areas -/

theorem passesAreas_cons
    {env : Env} {bytes : List UInt8} {info : ElfInfo} {call : Nat}
    {area : Range} {rest : List Range} :
    PassesAreas env bytes info call (area :: rest) ↔
      PassesArea env bytes info call area ∧
        PassesAreas env bytes info (call + 2) rest := by
  constructor
  · intro passes
    refine ⟨passes 0 area rfl, ?_⟩
    intro j later here
    have next := passes (j + 1) later here
    rw [Nat.mul_add, Nat.add_comm (2 * j), ← Nat.add_assoc] at next
    exact next
  · rintro ⟨first, others⟩ j later here
    cases j with
    | zero =>
        cases here
        exact first
    | succ j =>
        rw [Nat.mul_add, Nat.add_comm (2 * j), ← Nat.add_assoc]
        exact others j later here

/-- The loop over the note areas of a table, as a recursion over these areas. -/
def searchAreas (env : Env) (info : ElfInfo) :
    Int → BuildidInfo → List Range → Program (Int × BuildidInfo)
  | rv, out, [] => pure (rv, out)
  | _, out, area :: rest =>
      findBuildid env info area.1 area.2 out >>= fun result =>
        if result.1 ≠ 0 then pure result
        else searchAreas env info result.1 result.2 rest

/-- The note areas from an entry on. -/
def areasFrom (env : Env) (info : ElfInfo) (table : Table) (entries : Buffer)
    (entsize start number : Nat) : List Range :=
  (List.range' start (number - start)).filterMap
    (noteArea env info table entries entsize)

theorem searchNotes_eq_searchAreas
    (env : Env) (info : ElfInfo) (table : Table) (entries : Buffer)
    (entsize number : Nat) (start : Nat) (rv : Int) (out : BuildidInfo) :
    searchNotes env table entries info number entsize start rv out =
      searchAreas env info rv out
        (areasFrom env info table entries entsize start number) := by
  by_cases inside : start < number
  · obtain ⟨more, moreEq⟩ :=
      Nat.exists_eq_succ_of_ne_zero (Nat.sub_ne_zero_of_lt inside)
    have fewer : number - (start + 1) = more := by omega
    have step :=
      @findNotes_step env info table entries entsize start number inside
    rw [areasFrom, moreEq, List.range'_succ, List.filterMap_cons, noteArea]
    by_cases wanted :
        getfield32 env.host info entries (start * entsize) table.entryType =
          table.wanted
    · rw [if_pos wanted] at step
      rw [if_pos wanted, searchNotes_of_some step]
      dsimp only
      rw [searchAreas, ← fewer]
      refine congrArg (findBuildid env info _ _ out >>= ·) (funext ?_)
      intro result
      rw [searchNotes_eq_searchAreas env info table entries entsize number
        (start + 1), areasFrom]
    · rw [if_neg wanted] at step
      rw [if_neg wanted, searchNotes_congr step,
        searchNotes_eq_searchAreas env info table entries entsize number
          (start + 1), areasFrom, fewer]
  · have ended : number - start = 0 := by omega
    have none_eq :
        findNotes env table entries info start number entsize = none := by
      rw [findNotes, ended]
      rfl
    rw [searchNotes_of_none none_eq, areasFrom, ended]
    rfl
termination_by number - start

section Areas

variable {env : Env} {bytes : List UInt8} {info : ElfInfo}

theorem searchAreas_of_passesAreas
    (out : BuildidInfo) {areas : List Range} (rv : Int) {process : Process}
    (sameBytes : process.file.bytes = bytes)
    (passes : PassesAreas env bytes info process.calls areas) :
    Returns bytes (if areas = [] then rv else 0, out)
      (process.calls + 2 * areas.length)
      (searchAreas env info rv out areas process) := by
  induction areas generalizing rv process with
  | nil => exact ⟨process, rfl, sameBytes, rfl⟩
  | cons area rest inductionHypothesis =>
      obtain ⟨first, others⟩ := passesAreas_cons.mp passes
      obtain ⟨next, run, nextBytes, calls⟩ :=
        findBuildid_of_passesArea sameBytes out first
      rw [← calls] at others
      obtain ⟨last, later, lastBytes, lastCalls⟩ :=
        inductionHypothesis 0 nextBytes others
      rw [searchAreas, bind_of_ok run, if_neg (List.cons_ne_nil _ _)]
      refine ⟨last, ?_, lastBytes, ?_⟩
      · rw [ite_self] at later
        exact later
      · rw [lastCalls, calls, List.length_cons]
        omega

theorem searchAreas_of_shows
    {out : BuildidInfo} {area : Range} {k m : Nat} {areas : List Range}
    {rv : Int} {process : Process} (sameBytes : process.file.bytes = bytes)
    (shown : ShowsInAreas env bytes info process.calls areas m area k) :
    Returns bytes
      (1, shownInfo env bytes info (process.calls + 2 * m) area k)
      (process.calls + 2 * m + 2)
      (searchAreas env info rv out areas process) := by
  induction areas generalizing rv m process with
  | nil => cases shown.here
  | cons first rest inductionHypothesis =>
      obtain ⟨here, before, shows⟩ := shown
      cases m with
      | zero =>
          cases here
          obtain ⟨last, run, lastBytes, calls⟩ :=
            findBuildid_of_showsBuildid sameBytes out shows
          rw [searchAreas, bind_of_ok run]
          exact ⟨last, rfl, lastBytes, calls⟩
      | succ m =>
          obtain ⟨passes, others⟩ := passesAreas_cons.mp before
          obtain ⟨next, run, nextBytes, calls⟩ :=
            findBuildid_of_passesArea sameBytes out passes
          have place : process.calls + 2 * (m + 1) = next.calls + 2 * m := by
            omega
          rw [place] at shows ⊢
          rw [← calls] at others
          rw [searchAreas, bind_of_ok run]
          exact inductionHypothesis nextBytes ⟨here, others, shows⟩

theorem searchAreas_fails
    (out : BuildidInfo) {areas : List Range} {rv : Int} {process : Process}
    (sameBytes : process.file.bytes = bytes)
    (stops : ¬ PassesAreas env bytes info process.calls areas)
    (hidden : ∀ m area k,
      ¬ ShowsInAreas env bytes info process.calls areas m area k) :
    Fails (searchAreas env info rv out areas process) := by
  induction areas generalizing rv process with
  | nil =>
      refine absurd (fun j area here => ?_) stops
      cases here
  | cons first rest inductionHypothesis =>
      rw [searchAreas]
      by_cases passes : PassesArea env bytes info process.calls first
      · obtain ⟨next, run, nextBytes, calls⟩ :=
          findBuildid_of_passesArea sameBytes out passes
        rw [bind_of_ok run]
        apply inductionHypothesis nextBytes
        · intro others
          rw [calls] at others
          exact stops (passesAreas_cons.mpr ⟨passes, others⟩)
        · intro m area k shown
          obtain ⟨here, before, shows⟩ := shown
          have place : next.calls + 2 * m = process.calls + 2 * (m + 1) := by
            omega
          rw [place] at shows
          rw [calls] at before
          exact
            hidden (m + 1) area k
              ⟨here, passesAreas_cons.mpr ⟨passes, before⟩, shows⟩
      · have failed :=
          findBuildid_fails sameBytes out passes fun k shows =>
            hidden 0 first k ⟨rfl, fun j area here => (by cases here), shows⟩
        cases run : findBuildid env info first.1 first.2 out process with
        | error failure last =>
            rw [bind_of_error run]
            trivial
        | ok result last =>
            rw [run] at failed
            have minus : result.1 = -1 := failed
            rw [bind_of_ok run, minus]
            exact minus

end Areas

/-! ## The search of a table -/

section Tables

variable {env : Env} {bytes : List UInt8} {info : ElfInfo} {table : Table}
  {least : Nat} {process : Process} {beyond : Nat → UInt8}

theorem noteAreas_eq (call : Nat) :
    noteAreas env bytes info table call =
      areasFrom env info table
        (fetchedData env bytes call (tableOffset bytes info table)
          (tableSize bytes info table))
        (tableEntsize bytes info table) 0 (tableNumber bytes info table) := by
  rw [noteAreas, areasFrom, List.range_eq_range', Nat.sub_zero]

variable (layout : Layout table info.bits least)
  (headed : ehdrSize ≤ bytes.length)
  (sameBytes : process.file.bytes = bytes) {call : Nat}
  (started : process.calls = call)

include layout headed sameBytes started

variable (beyond) in
/-- The search of a table that is fetched is the search of its areas. -/
theorem findBuildidTable_of_fetches (rv : Int) (out : BuildidInfo)
    (used : tableNumber bytes info table ≠ 0)
    (fetches : FetchesTable env bytes info table call) :
    ∃ next,
      findBuildidTable env table rv info ⟨slice bytes 0 ehdrSize, beyond⟩ out
            process =
          searchAreas env info rv out
            (noteAreas env bytes info table call) next ∧
        next.file.bytes = bytes ∧ next.calls = call + 2 := by
  subst started
  obtain ⟨fetched, fetch, fetchedBytes, calls⟩ :=
    fetchData_of_fetches sameBytes fetches
  rw [findBuildidTable_of_small layout headed used fetches.fetchable.len_lt,
    bind_of_ok fetch]
  dsimp only
  rw [bind_of_ok (inspect_eq _ _), searchNotes_eq_searchAreas, ← noteAreas_eq]
  exact ⟨_, rfl, fetchedBytes, calls⟩

/-- A table that is not fetched. -/
theorem findBuildidTable_of_not_fetches (rv : Int) (out : BuildidInfo)
    (used : tableNumber bytes info table ≠ 0)
    (stops : ¬ FetchesTable env bytes info table call) :
    Fails
      (findBuildidTable env table rv info ⟨slice bytes 0 ehdrSize, beyond⟩ out
        process) := by
  subst started
  by_cases small : tableSize bytes info table < 2 ^ 31
  · obtain ⟨last, fetch⟩ := fetchData_of_not_fetches sameBytes stops
    rw [findBuildidTable_of_small layout headed used small, bind_of_ok fetch]
    rfl
  · obtain ⟨numberEq, offsetEq, entsizeEq⟩ :=
      layout.header_fields env.host headed beyond
    have bound := tableSize_lt bytes info table
    have large := le_sizeT_intOf (Nat.le_of_not_lt small) bound
    have stops :
        ¬ Fetches env bytes process.calls (tableOffset bytes info table)
          (sizeT (intOf (tableSize bytes info table))) := by
      intro fetches
      have lenLt := fetches.fetchable.len_lt
      omega
    obtain ⟨last, fetch⟩ := fetchData_of_not_fetches sameBytes stops
    simp only [findBuildidTable, numberEq, offsetEq, entsizeEq, if_neg used]
    rw [tableSize] at fetch
    rw [bind_of_ok fetch]
    rfl

theorem findBuildidTable_of_passesTable (rv : Int) (out : BuildidInfo)
    (passes : PassesTable env bytes info table call) :
    Returns bytes (rvAfter env bytes info table call rv, out)
      (callAfter env bytes info table call)
      (findBuildidTable env table rv info ⟨slice bytes 0 ehdrSize, beyond⟩ out
        process) := by
  subst started
  rw [rvAfter, callAfter]
  by_cases zero : tableNumber bytes info table = 0
  · rw [findBuildidTable_of_empty layout headed zero, if_pos zero,
      if_neg fun used => used.1 zero]
    exact ⟨process, rfl, sameBytes, rfl⟩
  · obtain ⟨next, run, nextBytes, calls⟩ :=
      findBuildidTable_of_fetches beyond layout headed sameBytes
        rfl rv out zero (passes.fetches zero)
    have areas := passes.areas
    rw [← calls] at areas
    rw [run, if_neg zero, ← calls]
    simp only [ne_eq, zero, not_false_iff, true_and]
    exact searchAreas_of_passesAreas out rv nextBytes areas

theorem findBuildidTable_of_shows {m : Nat} {area : Range} {k : Nat}
    (rv : Int) (out : BuildidInfo)
    (shows : ShowsInTable env bytes info table call m area k) :
    Returns bytes
      (1, shownInfo env bytes info (call + 2 + 2 * m) area k)
      (call + 2 + 2 * m + 2)
      (findBuildidTable env table rv info ⟨slice bytes 0 ehdrSize, beyond⟩ out
        process) := by
  subst started
  obtain ⟨used, fetches, areas⟩ := shows
  obtain ⟨next, run, nextBytes, calls⟩ :=
    findBuildidTable_of_fetches beyond layout headed sameBytes rfl
      rv out used fetches
  rw [← calls] at areas ⊢
  rw [run]
  exact searchAreas_of_shows nextBytes areas

theorem findBuildidTable_fails (rv : Int) (out : BuildidInfo)
    (stops : ¬ PassesTable env bytes info table call)
    (hidden : ∀ m area k,
      ¬ ShowsInTable env bytes info table call m area k) :
    Fails
      (findBuildidTable env table rv info ⟨slice bytes 0 ehdrSize, beyond⟩ out
        process) := by
  subst started
  by_cases zero : tableNumber bytes info table = 0
  · refine absurd ⟨fun used => absurd zero used, ?_⟩ stops
    intro j area here
    rw [noteAreas, zero] at here
    cases here
  by_cases fetches : FetchesTable env bytes info table process.calls
  · obtain ⟨next, run, nextBytes, calls⟩ :=
      findBuildidTable_of_fetches beyond layout headed sameBytes
        rfl rv out zero fetches
    rw [run]
    apply searchAreas_fails out nextBytes
    · intro areas
      rw [calls] at areas
      exact stops ⟨fun _ => fetches, areas⟩
    · intro m area k areas
      rw [calls] at areas
      exact hidden m area k ⟨zero, fetches, areas⟩
  · exact
      findBuildidTable_of_not_fetches layout headed sameBytes rfl rv out zero
        fetches

end Tables

/-! ## The whole search -/

section File

variable {env : Env} {bytes : List UInt8} {info : ElfInfo}

/-- The process that `main` searches the file with. -/
def Process.opened (bytes : List UInt8) : Process :=
  { Process.initial bytes with calls := 1 }

theorem openFile_initial (env : Env) (bytes : List UInt8) :
    openFile env (Process.initial bytes) =
      .ok (decide (env.outcome 0 ≠ .failure)) (Process.opened bytes) :=
  rfl

/-- The two searches, once the header has been accepted. -/
theorem findBuildId_of_readsHeader (header : ReadsHeader env bytes info)
    (out : BuildidInfo) :
    ∃ next,
      findBuildId env out (Process.opened bytes) =
          (findBuildidTable env phdrTable env.phdrRv info
              ⟨slice bytes 0 ehdrSize, env.beyond 1⟩ out >>= fun result =>
            if result.1 ≠ 0 then pure result
            else
              findBuildidTable env shdrTable env.shdrRv info
                ⟨slice bytes 0 ehdrSize, env.beyond 1⟩ result.2) next ∧
        next.file.bytes = bytes ∧ next.calls = 2 := by
  have length : (slice bytes 0 ehdrSize).length = ehdrSize := by
    have headed := header.headed
    exact slice_length_of_le (by omega)
  have reads := read_eq env ehdrSize (Process.opened bytes)
  change _ =
    if env.outcome 1 = .failure then _
    else
      EStateM.Result.ok
        (intOf (slice bytes 0 ((env.outcome 1).limit ehdrSize)).length,
          slice bytes 0 ((env.outcome 1).limit ehdrSize)) _ at reads
  rw [if_neg header.read, header.whole, length] at reads
  rw [findBuildId, bind_of_ok (get_eq _), bind_of_ok reads]
  have complete : ¬ intOf ehdrSize ≠ ehdrSize := not_not.mpr rfl
  dsimp only
  rw [if_neg complete]
  change ∃ next, (inspect [(0, ehdrSize)] >>= _) _ = _ ∧ _
  rw [bind_of_ok (inspect_eq _ _)]
  have accepted :
      elfInfo
          ⟨slice bytes 0 ehdrSize, env.beyond (Process.opened bytes).calls⟩ =
        some info :=
    header.accepted
  simp only [accepted]
  exact ⟨_, rfl, rfl, rfl⟩

/-- A header that is not read as a whole, or not accepted. -/
theorem findBuildId_without_header
    (opens : env.outcome 0 ≠ .failure)
    (refused : ∀ info, ¬ ReadsHeader env bytes info) (out : BuildidInfo) :
    Fails (findBuildId env out (Process.opened bytes)) := by
  have reads := read_eq env ehdrSize (Process.opened bytes)
  change _ =
    if env.outcome 1 = .failure then _
    else
      EStateM.Result.ok
        (intOf (slice bytes 0 ((env.outcome 1).limit ehdrSize)).length,
          slice bytes 0 ((env.outcome 1).limit ehdrSize)) _ at reads
  rw [findBuildId, bind_of_ok (get_eq _)]
  split at reads
  · rw [bind_of_ok reads]
    rfl
  · next succeeded =>
      rw [bind_of_ok reads]
      dsimp only
      have most := CallOutcome.limit_le (env.outcome 1) ehdrSize
      have bound : ehdrSize < 2 ^ 31 := by decide
      have length :=
        slice_length bytes 0 ((env.outcome 1).limit ehdrSize)
      rw [intOf_of_lt (by omega)]
      split
      · rfl
      · next complete =>
          have whole : (env.outcome 1).limit ehdrSize = ehdrSize := by omega
          rw [whole] at length complete ⊢
          change Fails ((inspect [(0, ehdrSize)] >>= _) _)
          rw [bind_of_ok (inspect_eq _ _)]
          dsimp only
          cases accepted :
              elfInfo
                ⟨slice bytes 0 ehdrSize,
                  env.beyond (Process.opened bytes).calls⟩ with
          | none => rfl
          | some info =>
              exact
                absurd
                  ⟨opens, succeeded, whole, by omega, accepted⟩
                  (refused info)

theorem findBuildId_of_showsNothing {rv : Int} {call : Nat}
    (shows : ShowsNothing env bytes info rv call) (out : BuildidInfo) :
    Returns bytes (rv, out) call
      (findBuildId env out (Process.opened bytes)) := by
  cases shows with
  | phdrs header phdrs stops =>
      obtain ⟨next, eq, nextBytes, calls⟩ :=
        findBuildId_of_readsHeader header out
      obtain ⟨last, run, lastBytes, lastCalls⟩ :=
        findBuildidTable_of_passesTable (phdrTable_layout _) header.headed
          nextBytes calls env.phdrRv out phdrs
      rw [eq, bind_of_ok run, if_pos stops]
      exact ⟨last, rfl, lastBytes, lastCalls⟩
  | shdrs comes shdrs =>
      obtain ⟨header, phdrs, goesOn⟩ := comes
      obtain ⟨next, eq, nextBytes, calls⟩ :=
        findBuildId_of_readsHeader header out
      obtain ⟨middle, run, middleBytes, middleCalls⟩ :=
        findBuildidTable_of_passesTable (phdrTable_layout _) header.headed
          nextBytes calls env.phdrRv out phdrs
      rw [eq, bind_of_ok run, goesOn]
      exact
        findBuildidTable_of_passesTable (shdrTable_layout _) header.headed
          middleBytes middleCalls env.shdrRv out shdrs

theorem findBuildId_of_shows {call : Nat} {area : Range} {k : Nat}
    (shows : Shows env bytes info call area k) (out : BuildidInfo) :
    Returns bytes (1, shownInfo env bytes info call area k) (call + 2)
      (findBuildId env out (Process.opened bytes)) := by
  cases shows with
  | phdrs header shows =>
      obtain ⟨next, eq, nextBytes, calls⟩ :=
        findBuildId_of_readsHeader header out
      obtain ⟨last, run, lastBytes, lastCalls⟩ :=
        findBuildidTable_of_shows (phdrTable_layout _) header.headed
          nextBytes calls env.phdrRv out shows
      rw [eq, bind_of_ok run]
      exact ⟨last, rfl, lastBytes, lastCalls⟩
  | shdrs comes shows =>
      obtain ⟨header, phdrs, goesOn⟩ := comes
      obtain ⟨next, eq, nextBytes, calls⟩ :=
        findBuildId_of_readsHeader header out
      obtain ⟨middle, run, middleBytes, middleCalls⟩ :=
        findBuildidTable_of_passesTable (phdrTable_layout _) header.headed
          nextBytes calls env.phdrRv out phdrs
      rw [eq, bind_of_ok run, goesOn]
      exact
        findBuildidTable_of_shows (shdrTable_layout _) header.headed
          middleBytes middleCalls env.shdrRv out shows

/-- A file of which neither is true. -/
theorem findBuildId_fails (opens : env.outcome 0 ≠ .failure)
    (something : ∀ info rv call, ¬ ShowsNothing env bytes info rv call)
    (hidden : ∀ info call area k, ¬ Shows env bytes info call area k)
    (out : BuildidInfo) :
    Fails (findBuildId env out (Process.opened bytes)) := by
  by_cases accepted : ∃ info, ReadsHeader env bytes info
  · obtain ⟨info, header⟩ := accepted
    obtain ⟨next, eq, nextBytes, calls⟩ :=
      findBuildId_of_readsHeader header out
    rw [eq]
    by_cases phdrs : PassesTable env bytes info phdrTable 2
    · by_cases goesOn : rvAfter env bytes info phdrTable 2 env.phdrRv = 0
      · have comes : ComesToShdrs env bytes info := ⟨header, phdrs, goesOn⟩
        obtain ⟨middle, run, middleBytes, middleCalls⟩ :=
          findBuildidTable_of_passesTable (phdrTable_layout _) header.headed
            nextBytes calls env.phdrRv out phdrs
        rw [bind_of_ok run, goesOn]
        apply
          findBuildidTable_fails (shdrTable_layout _) header.headed
            middleBytes middleCalls env.shdrRv out
        · intro shdrs
          exact something info _ _ (.shdrs comes shdrs)
        · intro m area k shows
          exact hidden info _ area k (.shdrs comes shows)
      · exact absurd (.phdrs header phdrs goesOn) (something info _ _)
    · have failed :
          Fails
            (findBuildidTable env phdrTable env.phdrRv info
              ⟨slice bytes 0 ehdrSize, env.beyond 1⟩ out next) := by
        apply
          findBuildidTable_fails (phdrTable_layout _) header.headed nextBytes
            calls env.phdrRv out phdrs
        intro m area k shows
        exact hidden info _ area k (.phdrs header shows)
      cases run :
          findBuildidTable env phdrTable env.phdrRv info
            ⟨slice bytes 0 ehdrSize, env.beyond 1⟩ out next with
      | error failure last =>
          rw [bind_of_error run]
          trivial
      | ok result last =>
          rw [run] at failed
          have minus : result.1 = -1 := failed
          rw [bind_of_ok run, minus]
          exact minus
  · exact
      findBuildId_without_header opens
        (fun info header => accepted ⟨info, header⟩) out

end File

/-! ## The status -/

section Status

variable {env : Env} {bytes : List UInt8}

theorem ReadsHeader.searchEnds {info : ElfInfo}
    (header : ReadsHeader env bytes info) {rv : Int} {found : BuildidInfo}
    {calls : Nat}
    (returns :
      Returns bytes (rv, found) calls
        (findBuildId env .zero (Process.opened bytes))) :
    ∃ searched, SearchEnds env bytes rv found searched ∧
      searched.calls = calls := by
  obtain ⟨searched, run, _, searchedCalls⟩ := returns
  refine ⟨searched, ⟨Process.opened bytes, ?_, run⟩, searchedCalls⟩
  rw [openFile_initial, decide_eq_true header.opens]

theorem ShowsNothing.header {info : ElfInfo} {rv : Int} {call : Nat}
    (shows : ShowsNothing env bytes info rv call) :
    ReadsHeader env bytes info := by
  cases shows with
  | phdrs header => exact header
  | shdrs comes => exact comes.header

theorem Shows.header {info : ElfInfo} {call : Nat} {area : Range} {k : Nat}
    (shows : Shows env bytes info call area k) :
    ReadsHeader env bytes info := by
  cases shows with
  | phdrs header => exact header
  | shdrs comes => exact comes.header

/-- How a search ends: in failure, with nothing, or with the build ID the file
shows. -/
theorem SearchEnds.cases {rv : Int} {found : BuildidInfo}
    {searched : Process} (ends : SearchEnds env bytes rv found searched) :
    rv = -1 ∨
      (∃ info, ShowsNothing env bytes info rv searched.calls ∧
        found = .zero) ∨
      ∃ info call area k,
        Shows env bytes info call area k ∧ rv = 1 ∧
          found = shownInfo env bytes info call area k ∧
          searched.calls = call + 2 := by
  by_cases nothing : ∃ info other call, ShowsNothing env bytes info other call
  · obtain ⟨info, other, call, shows⟩ := nothing
    obtain ⟨otherSearched, otherEnds, calls⟩ :=
      shows.header.searchEnds (findBuildId_of_showsNothing shows .zero)
    obtain ⟨rfl, rfl, rfl⟩ := ends.unique otherEnds
    rw [← calls] at shows
    exact Or.inr (Or.inl ⟨info, shows, rfl⟩)
  by_cases shown : ∃ info call area k, Shows env bytes info call area k
  · obtain ⟨info, call, area, k, shows⟩ := shown
    obtain ⟨otherSearched, otherEnds, calls⟩ :=
      shows.header.searchEnds (findBuildId_of_shows shows .zero)
    obtain ⟨rfl, rfl, rfl⟩ := ends.unique otherEnds
    exact Or.inr (Or.inr ⟨info, call, area, k, shows, rfl, rfl, calls⟩)
  obtain ⟨opened, opens, run⟩ := ends
  rw [openFile_initial] at opens
  injection opens with isOpen sameProcess
  subst sameProcess
  have failed :=
    findBuildId_fails (of_decide_eq_true isOpen)
      (fun info other call shows => nothing ⟨info, other, call, shows⟩)
      (fun info call area k shows => shown ⟨info, call, area, k, shows⟩)
      .zero
  rw [run] at failed
  exact Or.inl failed

theorem denotes_nil_iff {newidHex : List UInt8} :
    Denotes newidHex [] ↔ newidHex = [] := by
  constructor
  · intro denotes
    exact List.eq_nil_of_length_eq_zero denotes.1
  · rintro rfl
    exact ⟨rfl, rfl⟩

/-- For every file, every text, every outcome of every call and every value of what
is not initialised: if the exit status is 0, the build ID that was found has been
replaced by the new one, exactly if nothing is taken for success. -/
theorem editbuildid_truthful_iff (env : Env) (bytes newidHex : List UInt8) :
    Truthful env bytes newidHex ↔ Reliable env bytes newidHex := by
  rw [truthful_iff_reliableSearch]
  constructor
  · intro reliable
    constructor
    · intro info rv call shows
      obtain ⟨searched, ends, rfl⟩ :=
        shows.header.searchEnds (findBuildId_of_showsNothing shows .zero)
      obtain ⟨silent, writes⟩ := reliable rv .zero searched ends
      refine ⟨fun le zero => silent ⟨le, zero⟩, ?_⟩
      intro positive empty
      by_contra seeks
      obtain ⟨some, _⟩ :=
        writes [] positive (denotes_nil_iff.mpr empty) rfl
          ⟨seeks, by decide⟩
      cases some
    · intro info call area k shows data denotes length reachable seeks
      obtain ⟨searched, ends, calls⟩ :=
        shows.header.searchEnds (findBuildId_of_shows shows .zero)
      obtain ⟨_, writes⟩ := reliable _ _ searched ends
      have sought :
          Seeks env searched
            (shownInfo env bytes info call area k).dataOffset := by
        refine ⟨?_, reachable⟩
        rw [calls]
        exact seeks
      have there :=
        (writes data (by decide) denotes length sought).2
      rw [transferred, calls] at there
      exact there
  · intro reliable rv found searched ends
    rcases ends.cases with
      failed | ⟨info, shows, rfl⟩ |
        ⟨info, call, area, k, shows, rfl, rfl, calls⟩
    · subst failed
      refine ⟨fun silent => absurd silent.2 (by decide), ?_⟩
      intro data positive
      exact absurd positive (by decide)
    · obtain ⟨silent, stays⟩ := reliable.nothing info rv _ shows
      refine ⟨fun both => silent both.1 both.2, ?_⟩
      intro data positive denotes length seeks
      cases List.eq_nil_of_length_eq_zero length
      exact absurd (stays positive (denotes_nil_iff.mp denotes)) seeks.1
    · refine ⟨fun both => absurd both.1 (by decide), ?_⟩
      intro data positive denotes length seeks
      obtain ⟨called, reachable⟩ := seeks
      rw [calls] at called
      refine ⟨rfl, ?_⟩
      rw [transferred, calls]
      exact
        reliable.written info call area k shows data denotes length reachable
          called

end Status

/-- All calls are complete but the write. -/
def fullDisk : Env where
  host := .little
  outcome i := if i = 7 then .failure else .complete
  beyond := fun _ _ => 0
  phdrRv := 0
  shdrRv := 0

/-- With a status of 0 the file is as before. -/
theorem editbuildid_fails_silently : ¬ Truthful fullDisk noteElf hexFf := by
  intro truthful
  obtain ⟨rv, last, run, finish⟩ :
      ∃ rv last,
        main fullDisk false (some hexFf) (Process.initial noteElf) =
            .ok rv last ∧
          decide (rv = 0 ∧ last.file.bytes = noteElf) = true :=
    exists_of_returnsWith (by decide +kernel)
  obtain ⟨result, searched, search, place⟩ :
      ∃ result searched,
        (openFile fullDisk >>= fun _ => findBuildId fullDisk .zero)
            (Process.initial noteElf) =
            .ok result searched ∧
          decide (result.2.dataOffset = 136 ∧ result.2.bytesSize = 1) =
            true :=
    exists_of_returnsWith (by decide +kernel)
  obtain ⟨zero, sameBytes⟩ := of_decide_eq_true finish
  obtain ⟨offset, size⟩ := of_decide_eq_true place
  obtain ⟨searchRv, info, _, data, ⟨opened, opens, searches⟩, _, denotes, _,
    there⟩ := truthful rv last run (by rw [zero]; rfl)
  rw [bind_of_ok opens, searches] at search
  cases search
  have value : data = [0xff] :=
    Option.some.inj (denotes.2.symm.trans (by decide +kernel))
  rw [offset, size, sameBytes, value] at there
  exact absurd there (by decide)

end KernelStuff.Editbuildid
