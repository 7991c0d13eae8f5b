import KernelStuff.Editbuildid.Elf
import KernelStuff.Editbuildid.Hex
import KernelStuff.Library.TransitionSystem

/-!
# The note walk of editbuildid

The loop of `find_buildid` is a machine whose state is `nhdr`, as an offset into
the note area.  It moves forward with every step but one: the `continue` for a
build ID of large size leaves `nhdr` where it is.
-/

namespace KernelStuff.Editbuildid

open KernelStuff.Library

def maxBuildidSize : Nat := 512

/-- `struct buildid_info`. -/
structure BuildidInfo where
  dataOffset : Nat
  bytesSize : Nat
  hex : Option (List UInt8)
  deriving DecidableEq

/-- `memset` to zero. -/
def BuildidInfo.zero : BuildidInfo := ⟨0, 0, none⟩

def pad4 (val : Nat) : Nat :=
  if val % 4 ≠ 0 then val / 4 * 4 + 4 else val

/-- The parameters that are `uint16_t`. -/
def uint16 (val : Nat) : Nat := val % 2 ^ 16

def noteDesc (nhdr namesz : Nat) : Nat :=
  nhdr + nhdrSize + pad4 (uint16 namesz)

def nextNote (nhdr namesz descsz : Nat) : Nat :=
  nhdr + nhdrSize + pad4 (uint16 namesz) + pad4 (uint16 descsz)

def endNotes (len ptr : Nat) : Bool := decide (len ≤ ptr)

/-- `"GNU"`. -/
def gnu : List UInt8 := [71, 78, 85]

/-- How the loop ends. -/
inductive NoteExit where
  | found (info : BuildidInfo)
  | notFound
  deriving DecidableEq

section Walk

variable (host : Endian) (info : ElfInfo) (offset : Nat) (data : Buffer)

/-- The memory the name is compared with. -/
def nameAt (nhdr : Nat) (i : Nat) : UInt8 :=
  data.byte (nhdr + nhdrSize + i)

def nameszAt (nhdr : Nat) : Nat := getfield32 host info data nhdr nNamesz
def descszAt (nhdr : Nat) : Nat := getfield32 host info data nhdr nDescsz
def typeAt (nhdr : Nat) : Nat := getfield32 host info data nhdr nType

/-- The condition under which a note is taken for a build ID. -/
def isBuildid (nhdr : Nat) : Bool :=
  strcmpEq gnu (nameAt data nhdr) &&
    typeAt host info data nhdr == ntGnuBuildId

/-- One iteration of the loop of `find_buildid`. -/
def noteStep : Step Nat NoteExit := fun nhdr =>
  if endNotes data.bytes.length nhdr then .error .notFound
  else
    let descsz := descszAt host info data nhdr
    let namesz := nameszAt host info data nhdr
    if isBuildid host info data nhdr then
      if maxBuildidSize < descsz then .ok nhdr
      else
        .error (.found
          ⟨(offset + noteDesc nhdr namesz) % 2 ^ 64, descsz,
            some (toHex (data.read (noteDesc nhdr namesz) descsz))⟩)
    else .ok (nextNote nhdr namesz descsz)

variable {host info offset data}

theorem lt_nextNote (nhdr namesz descsz : Nat) :
    nhdr + nhdrSize ≤ nextNote nhdr namesz descsz := by
  rw [nextNote]
  omega

theorem noteStep_of_end {nhdr : Nat} (ended : data.bytes.length ≤ nhdr) :
    noteStep host info offset data nhdr = .error .notFound := by
  rw [noteStep, endNotes, if_pos (decide_eq_true ended)]

section Inside

variable {nhdr : Nat} (inside : nhdr < data.bytes.length)

include inside

theorem noteStep_of_found
    (here : isBuildid host info data nhdr = true)
    (small : descszAt host info data nhdr ≤ maxBuildidSize) :
    noteStep host info offset data nhdr =
      .error (.found
        ⟨(offset + noteDesc nhdr (nameszAt host info data nhdr)) % 2 ^ 64,
          descszAt host info data nhdr,
          some (toHex (data.read (noteDesc nhdr (nameszAt host info data nhdr))
            (descszAt host info data nhdr)))⟩) := by
  rw [noteStep, endNotes, decide_eq_false (by omega)]
  simp only [Bool.false_eq_true, if_false, if_pos here]
  rw [if_neg (by omega)]

theorem noteStep_of_large
    (here : isBuildid host info data nhdr = true)
    (large : maxBuildidSize < descszAt host info data nhdr) :
    noteStep host info offset data nhdr = .ok nhdr := by
  rw [noteStep, endNotes, decide_eq_false (by omega)]
  simp only [Bool.false_eq_true, if_false, if_pos here, if_pos large]

theorem noteStep_of_other
    (other : isBuildid host info data nhdr = false) :
    noteStep host info offset data nhdr =
      .ok (nextNote nhdr (nameszAt host info data nhdr)
        (descszAt host info data nhdr)) := by
  rw [noteStep, endNotes, decide_eq_false (by omega)]
  simp only [Bool.false_eq_true, if_false, other]

end Inside

/-- What an iteration that does not return does: it goes on to the next note, or
repeats itself. -/
theorem noteStep_ok {nhdr next : Nat}
    (step : noteStep host info offset data nhdr = .ok next) :
    nhdr < data.bytes.length ∧
      ((isBuildid host info data nhdr = false ∧
          next = nextNote nhdr (nameszAt host info data nhdr)
            (descszAt host info data nhdr)) ∨
        (isBuildid host info data nhdr = true ∧
          maxBuildidSize < descszAt host info data nhdr ∧ next = nhdr)) := by
  have inside : nhdr < data.bytes.length := by
    by_contra ended
    rw [noteStep_of_end (by omega)] at step
    cases step
  refine ⟨inside, ?_⟩
  cases here : isBuildid host info data nhdr with
  | false =>
      rw [noteStep_of_other inside here] at step
      cases step
      exact Or.inl ⟨rfl, rfl⟩
  | true =>
      by_cases large : maxBuildidSize < descszAt host info data nhdr
      · rw [noteStep_of_large inside here large] at step
        cases step
        exact Or.inr ⟨rfl, large, rfl⟩
      · rw [noteStep_of_found inside here (by omega)] at step
        cases step

/-- What an iteration that finds a build ID has seen. -/
theorem noteStep_found {nhdr : Nat} {found : BuildidInfo}
    (stops : noteStep host info offset data nhdr = .error (.found found)) :
    nhdr < data.bytes.length ∧
      descszAt host info data nhdr ≤ maxBuildidSize ∧
      found =
        ⟨(offset + noteDesc nhdr (nameszAt host info data nhdr)) % 2 ^ 64,
          descszAt host info data nhdr,
          some (toHex (data.read (noteDesc nhdr (nameszAt host info data nhdr))
            (descszAt host info data nhdr)))⟩ := by
  have inside : nhdr < data.bytes.length := by
    by_contra ended
    rw [noteStep_of_end (by omega)] at stops
    cases stops
  cases here : isBuildid host info data nhdr with
  | false =>
      rw [noteStep_of_other inside here] at stops
      cases stops
  | true =>
      by_cases large : maxBuildidSize < descszAt host info data nhdr
      · rw [noteStep_of_large inside here large] at stops
        cases stops
      · rw [noteStep_of_found inside here (by omega)] at stops
        cases stops
        exact ⟨inside, Nat.le_of_not_lt large, rfl⟩

end Walk

/-! ## When the walk ends -/

section Ending

variable (host : Endian) (info : ElfInfo) (data : Buffer)

/-- Where the `k`-th note begins if every note is skipped. -/
def noteOffset (k : Nat) : Nat :=
  (fun nhdr => nextNote nhdr (nameszAt host info data nhdr)
    (descszAt host info data nhdr))^[k] 0

/-- The `k`-th note is the first one in the area taken for a build ID. -/
structure FirstBuildid (k : Nat) : Prop where
  inside : noteOffset host info data k < data.bytes.length
  here : isBuildid host info data (noteOffset host info data k) = true
  first : ∀ j, j < k →
    isBuildid host info data (noteOffset host info data j) = false

variable {host info data} {offset : Nat}

theorem noteOffset_succ (k : Nat) :
    noteOffset host info data (k + 1) =
      nextNote (noteOffset host info data k)
        (nameszAt host info data (noteOffset host info data k))
        (descszAt host info data (noteOffset host info data k)) :=
  Function.iterate_succ_apply' _ _ _

theorem noteOffset_mono {j k : Nat} (before : j ≤ k) :
    noteOffset host info data j ≤ noteOffset host info data k := by
  induction k with
  | zero => rw [Nat.le_zero.mp before]
  | succ k inductionHypothesis =>
      by_cases same : j = k + 1
      · rw [same]
      · have earlier := inductionHypothesis (by omega)
        have forward :=
          lt_nextNote (noteOffset host info data k)
            (nameszAt host info data (noteOffset host info data k))
            (descszAt host info data (noteOffset host info data k))
        rw [noteOffset_succ]
        omega

/-- The notes the walk comes to, as long as it moves. -/
theorem reaches_noteOffset {k : Nat}
    (inside : ∀ j, j < k →
      noteOffset host info data j < data.bytes.length)
    (others : ∀ j, j < k →
      isBuildid host info data (noteOffset host info data j) = false) :
    Reaches (noteStep host info offset data) 0
      (noteOffset host info data k) := by
  induction k with
  | zero => exact Reaches.refl 0
  | succ k inductionHypothesis =>
      have run :=
        inductionHypothesis (fun j before => inside j (by omega))
          fun j before => others j (by omega)
      apply run.trans
      apply Reaches.single
      rw [noteStep_of_other (inside k (by omega)) (others k (by omega)),
        noteOffset_succ]

/-- Every note the walk comes to is the `k`-th one for some `k`, and none before
it was taken for a build ID. -/
theorem noteOffset_of_reaches {nhdr : Nat}
    (run : Reaches (noteStep host info offset data) 0 nhdr) :
    ∃ k, nhdr = noteOffset host info data k ∧
      ∀ j, j < k →
        isBuildid host info data (noteOffset host info data j) = false := by
  apply Reaches.invariant _ run
  · exact ⟨0, rfl, fun j before => absurd before (Nat.not_lt_zero j)⟩
  · rintro source target step ⟨k, here, others⟩
    obtain ⟨_, ⟨other, next⟩ | ⟨_, _, next⟩⟩ := noteStep_ok step
    · subst here
      refine ⟨k + 1, by rw [next, noteOffset_succ], ?_⟩
      intro j before
      by_cases last : j = k
      · rw [last]
        exact other
      · exact others j (by omega)
    · exact ⟨k, next.trans here, others⟩

/-- Unless it repeats itself the walk is over after at most as many iterations as
the area has bytes. -/
theorem noteStep_evaluate
    (small : ∀ k, FirstBuildid host info data k →
      descszAt host info data (noteOffset host info data k) ≤
        maxBuildidSize) :
    ∃ exit,
      evaluate (noteStep host info offset data) (data.bytes.length + 1) 0 =
        some exit := by
  apply evaluate_of_decreasing fun nhdr => data.bytes.length - nhdr
  · intro source target run step
    obtain ⟨inside, ⟨_, next⟩ | ⟨here, large, _⟩⟩ := noteStep_ok step
    · have forward :=
        lt_nextNote source (nameszAt host info data source)
          (descszAt host info data source)
      rw [nhdrSize] at forward
      omega
    · obtain ⟨k, same, others⟩ := noteOffset_of_reaches run
      subst same
      have within := small k ⟨inside, here, others⟩
      omega
  · omega

/-- On every note area the loop comes to an end exactly if the first note that is
taken for a build ID, if there is one, is not of large size. -/
theorem find_buildid_ends_iff :
    (∃ exit, Halts (noteStep host info offset data) 0 exit) ↔
      ∀ k, FirstBuildid host info data k →
        descszAt host info data (noteOffset host info data k) ≤
          maxBuildidSize := by
  constructor
  · rintro ⟨exit, halts⟩ k first
    by_contra large
    have before : ∀ j, j < k →
        noteOffset host info data j < data.bytes.length :=
      fun j earlier =>
        Nat.lt_of_le_of_lt (noteOffset_mono (Nat.le_of_lt earlier)) first.inside
    have run : Reaches (noteStep host info offset data) 0 _ :=
      reaches_noteOffset before first.first
    apply not_halts_of_fixed _ (Halts.of_reaches_source run halts)
    exact noteStep_of_large first.inside first.here (by omega)
  · intro small
    obtain ⟨exit, finished⟩ := noteStep_evaluate small
    exact ⟨exit, halts_of_evaluate finished⟩

end Ending

/-- A little-endian area with nothing but the header and name of a build ID of 513
bytes. -/
def largeBuildid : Buffer where
  bytes := [4, 0, 0, 0, 1, 2, 0, 0, 3, 0, 0, 0, 71, 78, 85, 0]
  beyond := fun _ => 0

/-- The walk repeats the first iteration for ever. -/
theorem find_buildid_repeats :
    ¬ ∃ exit,
      Halts (noteStep .little ⟨.little, .elf64⟩ 0 largeBuildid) 0 exit := by
  rintro ⟨exit, halts⟩
  apply not_halts_of_fixed _ halts
  exact noteStep_of_large (by decide) (by decide +kernel) (by decide +kernel)

end KernelStuff.Editbuildid
