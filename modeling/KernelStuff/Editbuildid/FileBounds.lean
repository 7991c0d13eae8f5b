import KernelStuff.Editbuildid.Bounds

/-!
# Files the search keeps within what was fetched

From one table to `find_build_id`.  The section headers matter only for files in
which the search passes the program headers, and then only if `rv` happens to be
0 or has become 0 in the first loop.
-/

namespace KernelStuff.Editbuildid

open KernelStuff.Library

/-! ## The search of a table -/

section Tables

variable {env : Env} {bytes : List UInt8} {info : ElfInfo} {table : Table}
  {least : Nat} {out : BuildidInfo} {process : Process}
  {beyond : Nat → UInt8}

/-- The size that is passed on is the size of the table if that is an `int`. -/
theorem size_of_small (small : tableSize bytes info table < 2 ^ 31) :
    sizeT (intOf
        (tableNumber bytes info table * tableEntsize bytes info table)) =
      tableSize bytes info table :=
  sizeT_intOf_of_lt small

variable (layout : Layout table info.bits least)
  (headed : ehdrSize ≤ bytes.length)

include layout headed

theorem tableInside_iff :
    TableInside env table info ⟨slice bytes 0 ehdrSize, beyond⟩ out process ↔
      (tableNumber bytes info table ≠ 0 →
        tableSize bytes info table < 2 ^ 31 ∧
          ∀ entries next,
            fetchData env (tableOffset bytes info table)
                (tableSize bytes info table) process =
                .ok (some entries) next →
              SearchInside env table entries info (tableNumber bytes info table)
                (tableEntsize bytes info table) out
                { next with
                  inspected :=
                    next.inspected ++
                      [(tableOffset bytes info table,
                        tableSize bytes info table)] }) := by
  obtain ⟨numberEq, offsetEq, entsizeEq⟩ :=
    layout.header_fields env.host headed beyond
  simp only [TableInside, numberEq, offsetEq, entsizeEq]
  apply imp_congr_right
  intro _
  apply and_congr_right
  intro small
  rw [size_of_small small]

/-- The search of a table whose size is an `int`. -/
theorem findBuildidTable_of_small {rv : Int}
    (used : tableNumber bytes info table ≠ 0)
    (small : tableSize bytes info table < 2 ^ 31) :
    findBuildidTable env table rv info ⟨slice bytes 0 ehdrSize, beyond⟩ out =
      fetchData env (tableOffset bytes info table)
          (tableSize bytes info table) >>= fun fetched =>
        match fetched with
        | none => pure (-1, out)
        | some entries =>
            inspect
                [(tableOffset bytes info table, tableSize bytes info table)] >>=
              fun _ =>
                searchNotes env table entries info
                  (tableNumber bytes info table)
                  (tableEntsize bytes info table) 0 rv out := by
  obtain ⟨numberEq, offsetEq, entsizeEq⟩ :=
    layout.header_fields env.host headed beyond
  simp only [findBuildidTable, numberEq, offsetEq, entsizeEq, if_neg used,
    size_of_small small]
  refine congrArg (fetchData env _ _ >>= ·) (funext fun fetched => ?_)
  cases fetched <;> rfl

theorem findBuildidTable_of_empty {rv : Int}
    (zero : tableNumber bytes info table = 0) :
    findBuildidTable env table rv info ⟨slice bytes 0 ehdrSize, beyond⟩ out =
      pure (0, out) := by
  obtain ⟨numberEq, _, _⟩ := layout.header_fields env.host headed beyond
  simp only [findBuildidTable, numberEq, if_pos zero]

variable (sameBytes : process.file.bytes = bytes)

include sameBytes

theorem tableInside_of_fits (fits : TableFits bytes info table) :
    TableInside env table info ⟨slice bytes 0 ehdrSize, beyond⟩ out process := by
  rw [tableInside_iff layout headed]
  intro used
  obtain ⟨small, room⟩ := fits used
  refine ⟨small, ?_⟩
  intro entries next fetch
  have kept := (fetchData_keeps env _ _).ok fetch
  obtain ⟨fetchable, entriesEq⟩ := fetchData_some fetch
  rw [sameBytes] at fetchable entriesEq
  exact
    searchInside_of_fits ⟨fetchable, entriesEq⟩ (room fetchable)
      (kept.bytes_eq.trans sameBytes)

/-- After a search that returned 0 every entry has been passed over. -/
theorem tablePassed_of_zero
    (fits : TableFits bytes info table) {rv : Int} {later : BuildidInfo}
    {last : Process}
    (run :
      findBuildidTable env table rv info ⟨slice bytes 0 ehdrSize, beyond⟩ out
        process = .ok (0, later) last) :
    TablePassed bytes info table := by
  by_cases zero : tableNumber bytes info table = 0
  · exact Or.inl zero
  obtain ⟨small, room⟩ := fits zero
  rw [findBuildidTable_of_small layout headed zero small] at run
  obtain ⟨fetched, next, fetch, rest⟩ := bind_eq_ok run
  cases fetched with
  | none => cases rest
  | some entries =>
      have kept := (fetchData_keeps env _ _).ok fetch
      obtain ⟨fetchable, entriesEq⟩ := fetchData_some fetch
      rw [sameBytes] at fetchable entriesEq
      obtain ⟨_, _, inspected, search⟩ := bind_eq_ok rest
      cases inspected
      refine Or.inr ⟨fetchable, ?_⟩
      refine
        passedOver_of_searchNotes ⟨fetchable, entriesEq⟩ (room fetchable)
          (fun j before => absurd before (Nat.not_lt_zero j)) ?_ search
      exact kept.bytes_eq.trans sameBytes

section Complete

variable (completes : env.Completes)

include completes

omit layout headed in
theorem fetchData_table
    (fetchable : Fetchable bytes (tableOffset bytes info table)
      (tableSize bytes info table)) :
    fetchData env (tableOffset bytes info table) (tableSize bytes info table)
        process =
      .ok
        (some (process.buffer env (tableOffset bytes info table)
          (tableSize bytes info table)))
        (process.fetched (tableOffset bytes info table)
          (tableSize bytes info table)) := by
  have here :
      Fetchable process.file.bytes (tableOffset bytes info table)
        (tableSize bytes info table) := by
    rw [sameBytes]
    exact fetchable
  rw [fetchData_of_completes completes, if_pos here]
  rfl

omit layout headed completes in
theorem holdsBytes_buffer
    (fetchable : Fetchable bytes (tableOffset bytes info table)
      (tableSize bytes info table)) :
    HoldsBytes bytes info table
      (process.buffer env (tableOffset bytes info table)
        (tableSize bytes info table)) :=
  ⟨fetchable, congrArg (slice · _ _) sameBytes⟩

variable
  (inside :
    TableInside env table info ⟨slice bytes 0 ehdrSize, beyond⟩ out process)

include inside

theorem tableFits_of_inside : TableFits bytes info table := by
  rw [tableInside_iff layout headed] at inside
  intro used
  obtain ⟨small, search⟩ := inside used
  refine ⟨small, ?_⟩
  intro fetchable i within passed
  exact
    entryFits_of_inside completes (holdsBytes_buffer sameBytes fetchable)
      (search _ _ (fetchData_table sameBytes completes fetchable))
      ((process.fetched_bytes _ _).trans sameBytes) within passed

/-- With `rv` 0 the search of a table that is passed returns 0. -/
theorem findBuildidTable_of_passed (passed : TablePassed bytes info table) :
    ∃ last,
      findBuildidTable env table 0 info ⟨slice bytes 0 ehdrSize, beyond⟩ out
          process = .ok (0, out) last ∧
        last.file.bytes = bytes := by
  by_cases zero : tableNumber bytes info table = 0
  · rw [findBuildidTable_of_empty layout headed zero]
    exact ⟨process, rfl, sameBytes⟩
  obtain ⟨fetchable, passed⟩ := passed.resolve_left zero
  rw [tableInside_iff layout headed] at inside
  obtain ⟨small, search⟩ := inside zero
  have fetch := fetchData_table sameBytes completes fetchable
  rw [findBuildidTable_of_small layout headed zero small, bind_of_ok fetch]
  exact
    searchNotes_of_passed completes (holdsBytes_buffer sameBytes fetchable)
      (search _ _ fetch) ((process.fetched_bytes _ _).trans sameBytes) passed

end Complete

end Tables

/-! ## The whole search -/

section File

variable {env : Env} {bytes : List UInt8} {info : ElfInfo}

/-- A header that is read as a whole is the beginning of the file. -/
theorem header_of_read
    {ehdr : List UInt8} {process next : Process}
    (start : process.file = ⟨bytes, 0⟩)
    (reads : read env ehdrSize process = .ok (intOf ehdrSize, ehdr) next) :
    ehdr = slice bytes 0 ehdrSize ∧ ehdrSize ≤ bytes.length := by
  have bound : ehdrSize < 2 ^ 31 := by decide
  rcases read_ok reads with failed | ⟨most, mostLe, bytesEq, isLength⟩
  · cases congrArg Prod.fst failed
  · rw [start] at bytesEq
    dsimp only at bytesEq isLength
    have length : ehdr.length = min most bytes.length := by
      rw [bytesEq, slice_length, Nat.sub_zero]
    rw [intOf_of_lt bound, intOf_of_lt (by omega)] at isLength
    have whole : most = ehdrSize := by omega
    rw [whole] at bytesEq
    exact ⟨bytesEq, by omega⟩

/-- Nothing after the header decides whether it is accepted. -/
theorem elfInfo_beyond (headed : ehdrSize ≤ bytes.length)
    (beyond : Nat → UInt8) :
    elfInfo ⟨slice bytes 0 ehdrSize, beyond⟩ =
      elfInfo (areaBuffer bytes 0 ehdrSize) := by
  have same : ∀ i, i < ehdrSize →
      (⟨slice bytes 0 ehdrSize, beyond⟩ : Buffer).byte i =
        (areaBuffer bytes 0 ehdrSize).byte i := by
    intro i within
    have sameBytes :
        (⟨slice bytes 0 ehdrSize, beyond⟩ : Buffer).bytes =
          (areaBuffer bytes 0 ehdrSize).bytes :=
      rfl
    apply byte_eq_of_bytes sameBytes
    change i < (slice bytes 0 ehdrSize).length
    rw [slice_length_of_le (by omega)]
    exact within
  have magic :
      (⟨slice bytes 0 ehdrSize, beyond⟩ : Buffer).read 0 4 =
        (areaBuffer bytes 0 ehdrSize).read 0 4 := by
    apply Buffer.read_congr
    intro i _ below
    exact same i (Nat.lt_trans below (by decide))
  rw [elfInfo, elfInfo, magic, same eiClass (by decide),
    same eiData (by decide)]

section Accepted

variable (headed : ehdrSize ≤ bytes.length)
  (accepted : elfInfo (areaBuffer bytes 0 ehdrSize) = some info)

include headed accepted

theorem readsFetched_of_fileFits (fits : FileFits bytes info) :
    ReadsFetched bytes := by
  intro env out process start ehdr next found reads recognised
  obtain ⟨rfl, _⟩ := header_of_read start reads
  rw [elfInfo_beyond headed, accepted] at recognised
  cases recognised
  have nextBytes : next.file.bytes = bytes := by
    have kept := (read_keeps env ehdrSize).ok reads
    rw [kept.bytes_eq, start]
  refine ⟨tableInside_of_fits (phdrTable_layout _) headed nextBytes fits.1, ?_⟩
  intro last run
  rw [findBuildidPhdr] at run
  have passed : TablePassed bytes info phdrTable := by
    refine tablePassed_of_zero (phdrTable_layout _) headed ?_ fits.1 run
    exact nextBytes
  have kept := (findBuildidTable_keeps env _ _ _ _ _).ok run
  exact
    tableInside_of_fits (shdrTable_layout _) headed
      (kept.bytes_eq.trans nextBytes) (fits.2 passed)

theorem fileFits_of_readsFetched (reads : ReadsFetched bytes) :
    FileFits bytes info := by
  have readEq :=
    read_of_completes quietEnv_completes ehdrSize (Process.initial bytes)
  change read quietEnv ehdrSize (Process.initial bytes) =
    .ok (intOf (slice bytes 0 ehdrSize).length, slice bytes 0 ehdrSize) _
      at readEq
  rw [slice_length_of_le (by omega)] at readEq
  obtain ⟨phdrs, shdrs⟩ :=
    reads quietEnv .zero (Process.initial bytes) rfl _ _ info readEq accepted
  refine
    ⟨tableFits_of_inside (phdrTable_layout _) headed rfl quietEnv_completes
      phdrs, ?_⟩
  intro passed
  obtain ⟨last, run, lastBytes⟩ :=
    findBuildidTable_of_passed (phdrTable_layout _) headed rfl
      quietEnv_completes phdrs passed
  exact
    tableFits_of_inside (shdrTable_layout _) headed lastBytes
      quietEnv_completes (shdrs last run)

/-- For every file whose header is accepted, and whatever the system calls do and
memory holds: the search looks at nothing but what it has fetched exactly if the
file has room for everything the search comes to. -/
theorem reads_fetched_iff : ReadsFetched bytes ↔ FileFits bytes info :=
  ⟨fileFits_of_readsFetched headed accepted,
    readsFetched_of_fileFits headed accepted⟩

end Accepted

end File

/-! ## Examples -/

theorem noteElf_fits : FileFits noteElf segmentInfo := by
  refine ⟨fun _ => ⟨by decide +kernel, ?_⟩, ?_⟩
  · intro _ i within _
    have single : tableNumber noteElf segmentInfo phdrTable = 1 := by
      decide +kernel
    have first : i = 0 := by omega
    subst first
    refine ⟨by decide +kernel, fun _ => ⟨by decide +kernel, by decide +kernel, ?_⟩⟩
    rintro _ (_ | k) walked
    · exact ⟨by decide +kernel, fun _ _ _ => by decide +kernel⟩
    · exact absurd (walked.others 0 (Nat.succ_pos k)) (by decide +kernel)
  · intro _ some
    exact absurd (by decide +kernel) some

/-- Of the build ID in `noteElf` everything that is looked at has been fetched. -/
theorem reads_fetched_segment : ReadsFetched noteElf :=
  (reads_fetched_iff (by decide +kernel) (by decide +kernel)).mpr noteElf_fits

/-- A table whose size is not an `int`. -/
def hugeTable : List UInt8 :=
  (((noteElf.set 54 255).set 55 255).set 56 255).set 57 255

/-- A program header of two bytes. -/
def shortEntry : List UInt8 := noteElf.set 54 2

/-- A note area that ends before the build ID. -/
def cutBuildid : List UInt8 := noteElf.set 96 16

theorem search_leaves_buffers :
    (elfInfo (areaBuffer hugeTable 0 ehdrSize) = some segmentInfo ∧
        ¬ ReadsFetched hugeTable) ∧
      (elfInfo (areaBuffer shortEntry 0 ehdrSize) = some segmentInfo ∧
        ¬ ReadsFetched shortEntry) ∧
      (elfInfo (areaBuffer cutBuildid 0 ehdrSize) = some segmentInfo ∧
        ¬ ReadsFetched cutBuildid) := by
  have huge : elfInfo (areaBuffer hugeTable 0 ehdrSize) = some segmentInfo := by
    decide +kernel
  have short :
      elfInfo (areaBuffer shortEntry 0 ehdrSize) = some segmentInfo := by
    decide +kernel
  have cut : elfInfo (areaBuffer cutBuildid 0 ehdrSize) = some segmentInfo := by
    decide +kernel
  refine ⟨⟨huge, ?_⟩, ⟨short, ?_⟩, cut, ?_⟩
  · intro reads
    have fits := (fileFits_of_readsFetched (by decide +kernel) huge reads).1
    obtain ⟨small, _⟩ := fits (by decide +kernel)
    revert small
    decide +kernel
  · intro reads
    have fits := (fileFits_of_readsFetched (by decide +kernel) short reads).1
    obtain ⟨_, room⟩ := fits (by decide +kernel)
    have entry :=
      room (by decide +kernel) 0 (by decide +kernel)
        fun j before => absurd before (Nat.not_lt_zero j)
    have type := entry.type
    revert type
    decide +kernel
  · intro reads
    have fits := (fileFits_of_readsFetched (by decide +kernel) cut reads).1
    obtain ⟨_, room⟩ := fits (by decide +kernel)
    have entry :=
      room (by decide +kernel) 0 (by decide +kernel)
        fun j before => absurd before (Nat.not_lt_zero j)
    obtain ⟨_, _, area⟩ := entry.area (by decide +kernel)
    have note :=
      area (by decide +kernel) 0
        ⟨by decide +kernel, fun j before => absurd before (Nat.not_lt_zero j)⟩
    have ends :=
      note.buildid (by decide +kernel) (by decide +kernel) (by decide +kernel)
    revert ends
    decide +kernel

end KernelStuff.Editbuildid
