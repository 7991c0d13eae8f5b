import KernelStuff.Editbuildid.Notes

/-!
# What the note walk looks at

The loop stops when a header would begin beyond the area, but does not ask
whether the rest of the header, its name and a build ID are there.
-/

namespace KernelStuff.Editbuildid

open KernelStuff.Library

/-! ## One iteration -/

section Round

variable (host : Endian) (info : ElfInfo) (data : Buffer) (nhdr : Nat)

/-- The build ID that `to_hex` turns into text, if the note is taken for one. -/
def buildidReads : List Nat :=
  if isBuildid host info data nhdr = true ∧
      descszAt host info data nhdr ≤ maxBuildidSize then
    List.range' (noteDesc nhdr (nameszAt host info data nhdr))
      (descszAt host info data nhdr)
  else []

/-- The bytes an iteration looks at: the header, the name as far as it is
compared, and the build ID. -/
def noteReads : List Nat :=
  List.range' nhdr nhdrSize ++
    ((List.range (strcmpReads gnu (nameAt data nhdr))).map
        (nhdr + nhdrSize + ·) ++
      buildidReads host info data nhdr)

variable {host info data nhdr}

/-- A field of the header depends on the header only. -/
theorem headerField_congr {other : Buffer} {field : Member}
    (within : field.offset info.bits + 4 ≤ nhdrSize)
    (same : ∀ i ∈ List.range' nhdr nhdrSize, other.byte i = data.byte i) :
    getfield32 host info other nhdr field =
      getfield32 host info data nhdr field := by
  have bytes :
      other.read (nhdr + field.offset info.bits) 4 =
        data.read (nhdr + field.offset info.bits) 4 := by
    apply Buffer.read_congr
    intro i above below
    exact same i (List.mem_range'_1.mpr (by omega))
  rw [getfield32, getfield, getfield, bytes]

/-- What is read where the bytes that are looked at are the same. -/
structure SameRound (host : Endian) (info : ElfInfo) (data other : Buffer)
    (nhdr : Nat) : Prop where
  namesz_eq : nameszAt host info other nhdr = nameszAt host info data nhdr
  descsz_eq : descszAt host info other nhdr = descszAt host info data nhdr
  isBuildid_eq : isBuildid host info other nhdr = isBuildid host info data nhdr
  reads_eq : noteReads host info other nhdr = noteReads host info data nhdr

theorem sameRound_of_reads {other : Buffer}
    (same : ∀ i ∈ noteReads host info data nhdr,
      other.byte i = data.byte i) :
    SameRound host info data other nhdr := by
  rw [noteReads, List.forall_mem_append, List.forall_mem_append] at same
  obtain ⟨header, names, _⟩ := same
  have sameName : ∀ i, i < strcmpReads gnu (nameAt data nhdr) →
      nameAt other nhdr i = nameAt data nhdr i :=
    fun i within => names _ (List.mem_map_of_mem (List.mem_range.mpr within))
  obtain ⟨nameEq, nameReads⟩ := strcmp_congr_reads sameName
  have nameszEq : nameszAt host info other nhdr = nameszAt host info data nhdr :=
    headerField_congr (by cases info.bits <;> decide) header
  have descszEq : descszAt host info other nhdr = descszAt host info data nhdr :=
    headerField_congr (by cases info.bits <;> decide) header
  have typeEq : typeAt host info other nhdr = typeAt host info data nhdr :=
    headerField_congr (by cases info.bits <;> decide) header
  have buildidEq : isBuildid host info other nhdr = isBuildid host info data nhdr := by
    rw [isBuildid, isBuildid, nameEq, typeEq]
  refine ⟨nameszEq, descszEq, buildidEq, ?_⟩
  rw [noteReads, noteReads, nameReads, buildidReads, buildidReads, buildidEq,
    nameszEq, descszEq]

/-- The iteration depends on these bytes only. -/
theorem noteStep_congr {other : Buffer} {offset : Nat}
    (length : other.bytes.length = data.bytes.length)
    (same : ∀ i ∈ noteReads host info data nhdr,
      other.byte i = data.byte i) :
    noteStep host info offset other nhdr =
      noteStep host info offset data nhdr := by
  obtain ⟨nameszEq, descszEq, buildidEq, _⟩ := sameRound_of_reads same
  rw [noteStep, noteStep, length, nameszEq, descszEq, buildidEq]
  cases ended : endNotes data.bytes.length nhdr with
  | true => rfl
  | false =>
      cases here : isBuildid host info data nhdr with
      | false => rfl
      | true =>
          by_cases large : maxBuildidSize < descszAt host info data nhdr
          · simp only [if_pos large]
          · have desc :
                other.read (noteDesc nhdr (nameszAt host info data nhdr))
                    (descszAt host info data nhdr) =
                  data.read (noteDesc nhdr (nameszAt host info data nhdr))
                    (descszAt host info data nhdr) := by
              apply Buffer.read_congr
              intro i above below
              apply same
              rw [noteReads, buildidReads, if_pos ⟨here, by omega⟩]
              apply List.mem_append_right
              apply List.mem_append_right
              exact List.mem_range'_1.mpr ⟨above, below⟩
            simp only [desc]

/-- The note is there as far as it is looked at: what follows the header is not,
up to the end of the area, `"GNU"` or a beginning of it (or nothing), and a build
ID ends in the area. -/
structure NoteFits (host : Endian) (info : ElfInfo) (data : Buffer)
    (nhdr : Nat) : Prop where
  name : ¬ data.bytes.drop (nhdr + nhdrSize) <+: gnu
  buildid : isBuildid host info data nhdr = true →
    0 < descszAt host info data nhdr →
      descszAt host info data nhdr ≤ maxBuildidSize →
        noteDesc nhdr (nameszAt host info data nhdr) +
            descszAt host info data nhdr ≤
          data.bytes.length

theorem noteReads_inside_iff :
    (∀ i ∈ noteReads host info data nhdr, i < data.bytes.length) ↔
      NoteFits host info data nhdr := by
  have some := strcmpReads_pos gnu (nameAt data nhdr)
  have named := strcmpReads_le_iff data gnu (nhdr + nhdrSize)
  change strcmpReads gnu (nameAt data nhdr) ≤ _ ↔ _ at named
  rw [noteReads, List.forall_mem_append, List.forall_mem_append]
  constructor
  · rintro ⟨_, names, buildid⟩
    refine ⟨?_, ?_⟩
    · rw [← named]
      have last :=
        names (nhdr + nhdrSize + (strcmpReads gnu (nameAt data nhdr) - 1))
          (List.mem_map_of_mem (List.mem_range.mpr (by omega)))
      omega
    · intro here positive small
      rw [buildidReads, if_pos ⟨here, small⟩] at buildid
      have last :=
        buildid
          (noteDesc nhdr (nameszAt host info data nhdr) +
            (descszAt host info data nhdr - 1))
          (List.mem_range'_1.mpr (by omega))
      omega
  · rintro ⟨name, buildid⟩
    rw [← named] at name
    refine ⟨?_, ?_, ?_⟩
    · intro i member
      have bounds := List.mem_range'_1.mp member
      omega
    · intro i member
      obtain ⟨j, inRange, rfl⟩ := List.mem_map.mp member
      have below := List.mem_range.mp inRange
      omega
    · intro i member
      rw [buildidReads] at member
      split at member
      · next here =>
          have bounds := List.mem_range'_1.mp member
          have ends := buildid here.1 (by omega) here.2
          omega
      · cases member

end Round

/-! ## The whole walk -/

section Walk

variable {host : Endian} {info : ElfInfo} {offset : Nat} {data other : Buffer}

/-- Every byte the walk looks at is one of the area. -/
def WalkInside (host : Endian) (info : ElfInfo) (offset : Nat)
    (data : Buffer) : Prop :=
  ∀ nhdr, Reaches (noteStep host info offset data) 0 nhdr →
    nhdr < data.bytes.length →
      ∀ i ∈ noteReads host info data nhdr, i < data.bytes.length

theorem byte_eq_of_bytes (same : other.bytes = data.bytes) {i : Nat}
    (inside : i < data.bytes.length) : other.byte i = data.byte i := by
  have here := Buffer.byte_of_lt inside
  rw [← same] at inside
  have there := Buffer.byte_of_lt inside
  rw [same, here] at there
  exact (Option.some.inj there).symm

/-- A walk that stays in the area is the same whatever comes after it. -/
theorem WalkInside.reaches
    (inside : WalkInside host info offset data)
    (same : other.bytes = data.bytes) {nhdr : Nat}
    (run : Reaches (noteStep host info offset other) 0 nhdr) :
    Reaches (noteStep host info offset data) 0 nhdr := by
  refine Reaches.invariant ?_ run (Reaches.refl 0)
  intro source target moves before
  have within : source < data.bytes.length := by
    rw [← same]
    exact (noteStep_ok moves).1
  have step :
      noteStep host info offset other source =
        noteStep host info offset data source :=
    noteStep_congr (congrArg List.length same) fun i member =>
      byte_eq_of_bytes same (inside source before within i member)
  rw [step] at moves
  exact before.trans (Reaches.single moves)

theorem WalkInside.sameRound
    (inside : WalkInside host info offset data)
    (same : other.bytes = data.bytes) {nhdr : Nat}
    (run : Reaches (noteStep host info offset data) 0 nhdr)
    (within : nhdr < data.bytes.length) :
    SameRound host info data other nhdr :=
  sameRound_of_reads fun i member =>
    byte_eq_of_bytes same (inside nhdr run within i member)

theorem WalkInside.congr
    (inside : WalkInside host info offset data)
    (same : other.bytes = data.bytes) :
    WalkInside host info offset other := by
  intro nhdr run within
  rw [same] at within ⊢
  have before := inside.reaches same run
  rw [(inside.sameRound same before within).reads_eq]
  exact inside nhdr before within

/-- No note the walk comes to is taken for a build ID. -/
def Silent (host : Endian) (info : ElfInfo) (offset : Nat)
    (data : Buffer) : Prop :=
  ∀ nhdr, Reaches (noteStep host info offset data) 0 nhdr →
    nhdr < data.bytes.length → isBuildid host info data nhdr = false

theorem WalkInside.silent_congr
    (inside : WalkInside host info offset data)
    (same : other.bytes = data.bytes)
    (silent : Silent host info offset data) :
    Silent host info offset other := by
  intro nhdr run within
  rw [same] at within
  have before := inside.reaches same run
  rw [(inside.sameRound same before within).isBuildid_eq]
  exact silent nhdr before within

/-- The walk comes to the `k`-th note. -/
structure Walked (host : Endian) (info : ElfInfo) (data : Buffer) (k : Nat) :
    Prop where
  inside : noteOffset host info data k < data.bytes.length
  others : ∀ j, j < k →
    isBuildid host info data (noteOffset host info data j) = false

/-- What holds of the notes the walk comes to. -/
theorem forall_reaches_iff {property : Nat → Prop} :
    (∀ nhdr, Reaches (noteStep host info offset data) 0 nhdr →
        nhdr < data.bytes.length → property nhdr) ↔
      ∀ k, Walked host info data k →
        property (noteOffset host info data k) := by
  constructor
  · rintro all k ⟨inside, others⟩
    have before : ∀ j, j < k →
        noteOffset host info data j < data.bytes.length :=
      fun j earlier =>
        Nat.lt_of_le_of_lt (noteOffset_mono (Nat.le_of_lt earlier)) inside
    exact all _ (reaches_noteOffset before others) inside
  · intro all nhdr run within
    obtain ⟨k, same, others⟩ := noteOffset_of_reaches run
    rw [same] at within ⊢
    exact all k ⟨within, others⟩

theorem silent_iff_noteOffset :
    Silent host info offset data ↔
      ∀ k, noteOffset host info data k < data.bytes.length →
        isBuildid host info data (noteOffset host info data k) = false := by
  rw [Silent, forall_reaches_iff]
  constructor
  · intro silent k
    induction k using Nat.strongRecOn with
    | ind k inductionHypothesis =>
        intro inside
        apply silent k ⟨inside, _⟩
        intro j before
        exact
          inductionHypothesis j before
            (Nat.lt_of_le_of_lt (noteOffset_mono (Nat.le_of_lt before)) inside)
  · intro silent k walked
    exact silent k walked.inside

theorem evaluate_notFound_iff :
    evaluate (noteStep host info offset data) (data.bytes.length + 1) 0 =
        some .notFound ↔
      Silent host info offset data := by
  constructor
  · intro finished nhdr run within
    have halts :=
      Halts.of_reaches_source run (halts_of_evaluate finished)
    by_contra taken
    have here : isBuildid host info data nhdr = true :=
      Bool.not_eq_false _ ▸ taken
    by_cases large : maxBuildidSize < descszAt host info data nhdr
    · exact
        not_halts_of_fixed (noteStep_of_large within here large) halts
    · have stops :
          ∃ found, noteStep host info offset data nhdr = .error (.found found) :=
        ⟨_, noteStep_of_found within here (by omega)⟩
      obtain ⟨found, stops⟩ := stops
      cases Halts.unique halts ⟨nhdr, Reaches.refl nhdr, stops⟩
  · intro silent
    have small : ∀ k, FirstBuildid host info data k →
        descszAt host info data (noteOffset host info data k) ≤
          maxBuildidSize := by
      intro k first
      have taken := silent_iff_noteOffset.mp silent k first.inside
      rw [first.here] at taken
      cases taken
    obtain ⟨exit, finished⟩ :
        ∃ exit,
          evaluate (noteStep host info offset data) (data.bytes.length + 1) 0 =
            some exit :=
      noteStep_evaluate small
    cases exit with
    | notFound => exact finished
    | found found =>
        obtain ⟨last, run, stops⟩ := halts_of_evaluate finished
        obtain ⟨within, _⟩ := noteStep_found stops
        rw [noteStep_of_other within (silent last run within)] at stops
        cases stops

/-- The walk does not depend on the platform. -/
theorem noteStep_host (host other : Endian) :
    noteStep host info offset data = noteStep other info offset data := by
  funext nhdr
  simp only [noteStep, isBuildid, typeAt, descszAt, nameszAt, getfield32,
    getfield_eq]

theorem noteReads_host (host other : Endian) (nhdr : Nat) :
    noteReads host info data nhdr = noteReads other info data nhdr := by
  simp only [noteReads, buildidReads, isBuildid, typeAt, descszAt, nameszAt,
    getfield32, getfield_eq]

theorem WalkInside.of_host
    (inside : WalkInside host info offset data) (other : Endian) :
    WalkInside other info offset data := by
  rw [WalkInside, noteStep_host other host]
  intro nhdr run within
  rw [noteReads_host other host]
  exact inside nhdr run within

theorem Silent.of_host
    (silent : Silent host info offset data) (other : Endian) :
    Silent other info offset data := by
  rw [Silent, noteStep_host other host]
  intro nhdr run within
  have same :
      isBuildid other info data nhdr = isBuildid host info data nhdr := by
    simp only [isBuildid, typeAt, getfield32, getfield_eq]
  rw [same]
  exact silent nhdr run within

end Walk

end KernelStuff.Editbuildid
