import KernelStuff.Editvmcoreinfo.Editing
import KernelStuff.Library.ElfNotes

/-!
# The VMCOREINFO note among the notes

`HoldsLast` says where the last VMCOREINFO note of an area is.  The loop of
`read_elfdata` finds that note, whatever is in the memory after the area.
-/

namespace KernelStuff.Editvmcoreinfo

open KernelStuff.Library

theorem pad4_eq_align4 (val : Nat) : pad4 val = align4 val := by
  rw [pad4, align4]
  split <;> omega

/-- The note the program looks for. -/
def IsVmcoreinfo (note : ElfNote) : Prop :=
  note.name.takeWhile (· ≠ 0) = vmcoreinfo ∧ note.type = 0

instance : DecidablePred IsVmcoreinfo :=
  fun _ => inferInstanceAs (Decidable (_ ∧ _))

/-! ## One note -/

section Head

variable {notes : Buffer} {nhdr : Nat} {note : ElfNote}
  (reads : ReadsHead .little notes.bytes nhdr note)

include reads

theorem nameszAt_of_reads : nameszAt notes nhdr = note.name.length := by
  have long := reads.header_le
  rw [nameszAt, Buffer.read_eq_slice (by omega)]
  exact reads.namesz_eq

theorem descszAt_of_reads : descszAt notes nhdr = note.desc.length := by
  have long := reads.header_le
  rw [descszAt, Buffer.read_eq_slice (by omega)]
  exact reads.descsz_eq

theorem typeAt_of_reads : typeAt notes nhdr = note.type := by
  have long := reads.header_le
  rw [typeAt, Buffer.read_eq_slice (by omega)]
  exact reads.type_eq

theorem nextNote_of_reads : nextNote notes nhdr = nhdr + note.size := by
  rw [nextNote, nameszAt_of_reads reads, descszAt_of_reads reads,
    pad4_eq_align4, pad4_eq_align4, nhdrSize, ElfNote.size]
  omega

theorem isVmcoreinfo_of_reads (terminated : (0 : UInt8) ∈ note.name) :
    isVmcoreinfo notes nhdr = true ↔ IsVmcoreinfo note := by
  rw [isVmcoreinfo, Bool.and_eq_true, beq_iff_eq, typeAt_of_reads reads,
    IsVmcoreinfo]
  exact and_congr_left fun _ => reads.strcmpEq_iff terminated (by decide)

/-- One round of the loop. -/
theorem lastVmcoreinfo_of_reads
    (terminated : (0 : UInt8) ∈ note.name) (found : Option Nat) :
    lastVmcoreinfo notes nhdr found =
      lastVmcoreinfo notes (nhdr + note.size)
        (if IsVmcoreinfo note then some nhdr else found) := by
  have long := reads.header_le
  have notEnded : ¬ endNotes notes.bytes.length nhdr = true := by
    rw [endNotes, decide_eq_true_iff]
    omega
  rw [lastVmcoreinfo, if_neg notEnded, nextNote_of_reads reads]
  congr 1
  exact if_congr (isVmcoreinfo_of_reads reads terminated) rfl rfl

end Head

/-! ## All notes -/

/-- The last VMCOREINFO note of a list that begins at an offset. -/
def lastNote : Nat → List ElfNote → Option Nat → Option Nat
  | _, [], found => found
  | start, note :: rest, found =>
      lastNote (start + note.size) rest
        (if IsVmcoreinfo note then some start else found)

theorem lastNote_of_none :
    ∀ {list : List ElfNote} {start : Nat} {found : Option Nat},
      (∀ note ∈ list, ¬ IsVmcoreinfo note) → lastNote start list found = found
  | [], _, _, _ => rfl
  | note :: rest, start, found, other => by
      rw [lastNote, if_neg (other note List.mem_cons_self)]
      exact lastNote_of_none fun note member =>
        other note (List.mem_cons_of_mem _ member)

theorem lastNote_eq_some :
    ∀ {list : List ElfNote} {start x : Nat} {found : Option Nat},
      lastNote start list found = some x →
        (∀ note ∈ list, ¬ IsVmcoreinfo note) ∧ found = some x ∨
          ∃ before note after,
            list = before ++ note :: after ∧ IsVmcoreinfo note ∧
              (∀ other ∈ after, ¬ IsVmcoreinfo other) ∧
              x = start + (before.map ElfNote.size).sum
  | [], _, _, _, last => Or.inl ⟨nofun, last⟩
  | head :: rest, start, x, found, last => by
      rw [lastNote] at last
      rcases lastNote_eq_some last with
        ⟨none, here⟩ | ⟨before, note, after, split, isVmcoreinfo, lastOne, xEq⟩
      · by_cases isVmcoreinfo : IsVmcoreinfo head
        · rw [if_pos isVmcoreinfo, Option.some.injEq] at here
          exact Or.inr ⟨[], head, rest, rfl, isVmcoreinfo, none, here.symm⟩
        · rw [if_neg isVmcoreinfo] at here
          refine Or.inl ⟨?_, here⟩
          intro note member
          rcases List.mem_cons.mp member with rfl | later
          · exact isVmcoreinfo
          · exact none note later
      · refine Or.inr
          ⟨head :: before, note, after, ?_, isVmcoreinfo, lastOne, ?_⟩
        · rw [split, List.cons_append]
        · rw [xEq, List.map_cons, List.sum_cons, Nat.add_assoc]

section Loop

variable {notes : Buffer}

/-- The loop over notes that can be read. -/
theorem lastVmcoreinfo_of_heads :
    ∀ {list : List ElfNote} {start stop : Nat} {found : Option Nat},
      ReadsHeads .little notes.bytes start list stop →
        (∀ note ∈ list, (0 : UInt8) ∈ note.name) →
          lastVmcoreinfo notes start found =
            lastVmcoreinfo notes stop (lastNote start list found)
  | [], start, stop, found, same, _ => by
      cases same
      rfl
  | note :: rest, start, stop, found, ⟨reads, others⟩, terminated => by
      rw [lastVmcoreinfo_of_reads reads (terminated note List.mem_cons_self),
        lastNote]
      exact lastVmcoreinfo_of_heads others fun note member =>
        terminated note (List.mem_cons_of_mem _ member)

theorem lastVmcoreinfo_of_notes
    {list : List ElfNote} {start : Nat} {found : Option Nat}
    (reads : ReadsNotes .little notes.bytes start list)
    (terminated : ∀ note ∈ list, (0 : UInt8) ∈ note.name) :
    lastVmcoreinfo notes start found = lastNote start list found := by
  rw [← List.append_nil list] at reads
  obtain ⟨stop, -, heads, ended⟩ := readsNotes_append reads
  have stopped : endNotes notes.bytes.length stop = true := by
    rw [endNotes, decide_eq_true_iff]
    exact ended
  rw [lastVmcoreinfo_of_heads heads terminated, lastVmcoreinfo,
    if_pos stopped]

end Loop

/-! ## The last VMCOREINFO note -/

/-- The area parses as notes to its end: every name has a NUL in it, and every
descriptor begins within the area. -/
structure CleanNotes (data : List UInt8) (list : List ElfNote) : Prop where
  reads : ReadsNotes .little data 0 list
  terminated : ∀ note ∈ list, (0 : UInt8) ∈ note.name
  begun :
    ∀ before note after, list = before ++ note :: after →
      (before.map ElfNote.size).sum + (12 + align4 note.name.length) ≤
        data.length

/-- The last VMCOREINFO note begins at `start`; what its descriptor holds does
not matter. -/
structure HoldsLast (data : List UInt8) (before : List ElfNote) (start : Nat)
    (note : ElfNote) (after : List ElfNote) : Prop where
  heads : ReadsHeads .little data 0 before start
  head : ReadsHead .little data start note
  rest : ReadsNotes .little data (start + note.size) after
  terminated :
    ∀ other ∈ before ++ note :: after, (0 : UInt8) ∈ other.name
  isVmcoreinfo : IsVmcoreinfo note
  last : ∀ other ∈ after, ¬ IsVmcoreinfo other
  begun : start + (12 + align4 note.name.length) ≤ data.length

/-- The program finds the last one. -/
theorem HoldsLast.found
    {notes : Buffer} {before after : List ElfNote} {start : Nat}
    {note : ElfNote} (holds : HoldsLast notes.bytes before start note after) :
    lastVmcoreinfo notes 0 none = some start := by
  have terminated := List.forall_mem_append.mp holds.terminated
  obtain ⟨here, later⟩ := List.forall_mem_cons.mp terminated.2
  rw [lastVmcoreinfo_of_heads holds.heads terminated.1,
    lastVmcoreinfo_of_reads holds.head here,
    lastVmcoreinfo_of_notes holds.rest later, if_pos holds.isVmcoreinfo]
  exact lastNote_of_none holds.last

/-- In clean notes what the program finds is the last one. -/
theorem CleanNotes.holdsLast
    {notes : Buffer} {list : List ElfNote} {x : Nat}
    (clean : CleanNotes notes.bytes list)
    (found : lastVmcoreinfo notes 0 none = some x) :
    ∃ before note after,
      HoldsLast notes.bytes before x note after ∧
        x + (12 + align4 note.name.length) + note.desc.length ≤
          notes.bytes.length := by
  rw [lastVmcoreinfo_of_notes clean.reads clean.terminated] at found
  rcases lastNote_eq_some found with
    ⟨_, impossible⟩ | ⟨before, note, after, split, isVmcoreinfo, last, xEq⟩
  · cases impossible
  · have reads := clean.reads
    rw [split] at reads
    obtain ⟨stop, stopEq, heads, head, rest⟩ := readsNotes_append reads
    have stopX : stop = x := stopEq.trans xEq.symm
    subst stopX
    have begun := clean.begun before note after split
    have descLength := congrArg List.length head.desc_eq
    rw [slice_length] at descLength
    refine ⟨before, note, after, ⟨heads, head.toReadsHead, rest, ?_,
      isVmcoreinfo, last, ?_⟩, ?_⟩
    · rw [← split]
      exact clean.terminated
    · omega
    · omega

end KernelStuff.Editvmcoreinfo
