import KernelStuff.Editvmcoreinfo.Loading

/-!
# What a successful run writes

`edited` is the content of the core file after a run that returns 0.  Every such
run leaves it, and with complete calls there is such a run.
-/

namespace KernelStuff.Editvmcoreinfo

open KernelStuff.Library

/-! ## Notes -/

theorem pad4_le (val : Nat) : pad4 val ≤ val + 3 := by
  rw [pad4]
  split <;> omega

theorem le_pad4 (val : Nat) : val ≤ pad4 val := by
  rw [pad4]
  split <;> omega

theorem littleDecode_read_lt (notes : Buffer) (pos : Nat) :
    littleDecode (notes.read pos 4) < 2 ^ 32 := by
  have bound := littleDecode_lt (notes.read pos 4)
  rw [Buffer.read_length] at bound
  exact bound

/-- The note that is found begins in the area. -/
theorem lastVmcoreinfo_eq_some {notes : Buffer} {nhdr x : Nat}
    {found : Option Nat} (last : lastVmcoreinfo notes nhdr found = some x) :
    found = some x ∨ nhdr ≤ x ∧ x < notes.bytes.length := by
  rw [lastVmcoreinfo] at last
  split at last
  · exact Or.inl last
  · next notEnded =>
      rw [endNotes, decide_eq_true_iff] at notEnded
      have forward := lt_nextNote notes nhdr
      have smaller :
          notes.bytes.length - nextNote notes nhdr <
            notes.bytes.length - nhdr := by
        rw [nhdrSize] at forward
        omega
      rcases lastVmcoreinfo_eq_some last with here | ⟨later, within⟩
      · split at here
        · cases here
          exact Or.inr ⟨Nat.le_refl _, by omega⟩
        · exact Or.inl here
      · exact Or.inr ⟨by omega, within⟩
termination_by notes.bytes.length - nhdr

namespace Loads

variable {bytes : List UInt8} {beyond : Nat → UInt8} {se : SavedElfdata}
  (loads : Loads bytes beyond se)

include loads

theorem viNote_lt : se.viNote < se.notesLen := by
  rcases lastVmcoreinfo_eq_some loads.viNote_eq with impossible | ⟨_, within⟩
  · cases impossible
  · rw [loads.notes_eq, loads.notes_length] at within
    exact within

/-- No sum of offsets overflows. -/
theorem offsets_lt :
    se.viNoteStart ≤ se.viNoteEnd ∧
      se.notesStart + se.viNoteEnd < 2 ^ 64 := by
  have within := loads.viNote_lt
  have startLt := loads.notesStart_lt
  have lenLt := loads.notesLen_lt
  have nameLt := littleDecode_read_lt se.notes se.viNote
  have descLt := littleDecode_read_lt se.notes (se.viNote + 4)
  have namePad := pad4_le (nameszAt se.notes se.viNote)
  have descPad := pad4_le (descszAt se.notes se.viNote)
  rw [← nameszAt] at nameLt
  rw [← descszAt] at descLt
  rw [loads.viNoteEnd_eq, loads.viNoteStart_eq, nhdrSize]
  omega

theorem tableSize_pos : 0 < tableSize se.ehdr := by
  obtain ⟨segment, found, _⟩ := loads.segment
  rw [loads.headers.tableSize_eq]
  apply Nat.mul_pos (by decide)
  by_contra none
  have noHeaders := loads.headers.phdr_eq
  rw [Nat.eq_zero_of_not_pos none] at noHeaders
  rw [noHeaders] at found
  cases found

theorem table_le :
    se.ehdr.ePhoff.toNat + tableSize se.ehdr ≤ bytes.length := by
  have nonempty := loads.tableSize_pos
  have length := loads.headers.table_length
  rw [slice_length] at length
  omega

theorem table_length (newdescsz : Nat) :
    (Elf64Phdr.encodeTable (shiftPhdrs se newdescsz)).length =
      tableSize se.ehdr := by
  rw [Elf64Phdr.encodeTable_length, shiftPhdrs, List.length_mapIdx,
    loads.headers.phdr_eq, Elf64Phdr.decodeTable_length,
    loads.headers.tableSize_eq]

/-- The table as it is in the file. -/
theorem table_eq :
    Elf64Phdr.encodeTable se.phdr =
      slice bytes se.ehdr.ePhoff.toNat (tableSize se.ehdr) := by
  rw [loads.headers.phdr_eq]
  apply Elf64Phdr.encodeTable_decodeTable
  rw [loads.headers.table_length, loads.headers.tableSize_eq]

end Loads

/-! ## The program headers -/

theorem sizediff_of_same {oldDescsz newdescsz : Nat}
    (same : pad4 newdescsz = pad4 oldDescsz) :
    sizediff oldDescsz newdescsz = 0 := by
  rw [sizediff, same, UInt64.sub_self]

/-- When the padded size stays no header changes. -/
theorem shiftPhdrs_of_same {se : SavedElfdata} {newdescsz : Nat}
    (same : pad4 newdescsz = pad4 se.oldDescsz) :
    shiftPhdrs se newdescsz = se.phdr := by
  have unshifted (i : Nat) (phdr : Elf64Phdr) :
      shiftPhdr se.notesSeg 0 i phdr = phdr := by
    rw [shiftPhdr, UInt64.add_zero, UInt64.add_zero, UInt64.add_zero, ite_self]
    split
    · rfl
    · exact ite_self _
  rw [shiftPhdrs, sizediff_of_same same]
  apply List.ext_getElem?
  intro i
  rw [List.getElem?_mapIdx]
  cases se.phdr[i]? with
  | none => rfl
  | some phdr => exact congrArg some (unshifted i phdr)

/-- What `update_offsets` has done when it returns: a part of the new table was
written, and all of it if the call has succeeded. -/
theorem updateOffsets_ok {env : Env} {process last : Process}
    {se : SavedElfdata} {newdescsz : Nat} {result : Bool}
    (length :
      (Elf64Phdr.encodeTable (shiftPhdrs se newdescsz)).length =
        tableSize se.ehdr)
    (run : updateOffsets env se newdescsz process = .ok result last) :
    ∃ part rest,
      Elf64Phdr.encodeTable (shiftPhdrs se newdescsz) = part ++ rest ∧
        last.elf.bytes =
          overwrite process.elf.bytes se.ehdr.ePhoff.toNat part ∧
        last.tmp = process.tmp ∧
        (last.changes = process.changes ∧ part = [] ∧ result = false ∨
          last.changes =
            process.changes ++ [.wrote se.ehdr.ePhoff.toNat part]) ∧
        (result = true → rest = []) := by
  rw [updateOffsets] at run
  obtain ⟨reached, afterSeek, seek, run⟩ := bind_eq_ok run
  have looks := (lseek_keeps env se.ehdr.ePhoff.toNat).ok seek
  have nothing (same : last = afterSeek ∨ last = afterSeek.tick) :
      last.elf.bytes = overwrite process.elf.bytes se.ehdr.ePhoff.toNat [] ∧
        last.tmp = process.tmp ∧ last.changes = process.changes := by
    rw [overwrite_nil]
    rcases same with rfl | rfl
    · exact ⟨looks.elf_eq, looks.tmp_eq, looks.changes_eq⟩
    · exact ⟨looks.elf_eq, looks.tmp_eq, looks.changes_eq⟩
  cases reached with
  | false =>
      cases run
      obtain ⟨elfEq, tmpEq, changesEq⟩ := nothing (Or.inl rfl)
      exact ⟨[], _, rfl, elfEq, tmpEq, Or.inl ⟨changesEq, rfl, rfl⟩, nofun⟩
  | true =>
      obtain ⟨written, afterWrite, writing, run⟩ := bind_eq_ok run
      rw [write_eq] at writing
      split at writing
      · cases writing
        cases run
        obtain ⟨elfEq, tmpEq, changesEq⟩ := nothing (Or.inr rfl)
        exact ⟨[], _, rfl, elfEq, tmpEq, Or.inl ⟨changesEq, rfl, rfl⟩, nofun⟩
      · cases writing
        let part :=
          (Elf64Phdr.encodeTable (shiftPhdrs se newdescsz)).take
            ((env.outcome afterSeek.calls).limit
              (Elf64Phdr.encodeTable (shiftPhdrs se newdescsz)).length)
        obtain ⟨-, afterEq⟩ := lseek_eq_true seek
        have bytesEq :
            (afterSeek.tick.wrote .elf part).elf.bytes =
              overwrite process.elf.bytes se.ehdr.ePhoff.toNat part := by
          rw [afterEq]
          rfl
        have changesEq :
            (afterSeek.tick.wrote .elf part).changes =
              process.changes ++ [.wrote se.ehdr.ePhoff.toNat part] := by
          rw [afterEq]
          rfl
        have lastEq : last = afterSeek.tick.wrote .elf part := by
          change (if _ then _ else _ : Program Bool) _ = _ at run
          split at run <;> cases run <;> rfl
        refine ⟨part, _, (List.take_append_drop _ _).symm, ?_, ?_, ?_, ?_⟩
        · rw [lastEq, bytesEq]
        · rw [lastEq]
          exact looks.tmp_eq
        · rw [lastEq]
          exact Or.inr changesEq
        · rintro rfl
          obtain ⟨recognised, -⟩ := guard_eq_ok (by decide) run
          have bound := tableSize_lt se.ehdr
          have within : part.length ≤ tableSize se.ehdr := by
            rw [← length]
            exact List.length_take_le' _ _
          have complete : part.length = tableSize se.ehdr :=
            ((sizeT_intOf_eq_iff within (by omega)).mp
              (not_not.mp recognised)).1
          have most :=
            (env.outcome afterSeek.calls).limit_le
              (Elf64Phdr.encodeTable (shiftPhdrs se newdescsz)).length
          rw [List.length_take] at complete
          exact List.drop_eq_nil_of_le (by omega)

/-! ## Copying -/

section Copying

variable {env : Env} {dst src : Fd} (different : src ≠ dst)

/-- `process` becomes `last` when `count` bytes are copied to the end of `dst`. -/
structure Copies (dst src : Fd) (count : Nat) (process last : Process) :
    Prop where
  available :
    (slice (process.file src).bytes (process.file src).pos count).length = count
  src_eq :
    last.file src =
      ⟨(process.file src).bytes, (process.file src).pos + count⟩
  dst_eq :
    last.file dst =
      ⟨(process.file dst).bytes ++
          slice (process.file src).bytes (process.file src).pos count,
        (process.file dst).pos + count⟩

theorem Copies.trans {process middle last : Process} {first second : Nat}
    (left : Copies dst src first process middle)
    (right : Copies dst src second middle last) :
    Copies dst src (first + second) process last := by
  have continued := right.available
  have dstEq := right.dst_eq
  rw [left.src_eq] at continued
  rw [left.src_eq, left.dst_eq] at dstEq
  constructor
  · rw [slice_append, List.length_append, left.available, continued]
  · rw [right.src_eq, left.src_eq, Nat.add_assoc]
  · rw [dstEq, slice_append, List.append_assoc, Nat.add_assoc]

include different

theorem sendfile_eq_some
    {process last : Process} {count rv : Nat}
    (atEnd : (process.file dst).pos = (process.file dst).bytes.length)
    (run : sendfile env dst src count process = .ok (some rv) last) :
    rv ≤ count ∧ Copies dst src rv process last := by
  rw [sendfile_eq] at run
  split at run
  · cases run
  · have most := (env.sent process.calls).limit_le count
    obtain ⟨value, state⟩ := EStateM.Result.ok.inj run
    have length := Option.some.inj value
    have within := length
    rw [slice_length] at within
    refine ⟨by omega, ?_⟩
    rw [← state, length, slice_of_length length]
    have available := length
    rw [slice_of_length length] at available
    refine ⟨available, ?_, ?_⟩
    · rw [Process.wrote_file_of_ne _ _ _ different, Process.seek_file_self,
        Process.tick_file]
    · rw [Process.wrote_file_self,
        Process.seek_file_of_ne _ _ _ (Ne.symm different), Process.tick_file,
        atEnd, overwrite_end, available]

/-- A loop that returns 0 has copied everything. -/
theorem sendfileRounds_eq_true {amt : Nat} :
    ∀ {fuel cur : Nat} {process last : Process}, cur ≤ amt →
      (process.file dst).pos = (process.file dst).bytes.length →
        sendfileRounds env dst src amt fuel cur process = .ok true last →
          Copies dst src (amt - cur) process last
  | 0, _, _, _, _, _, run => by cases run
  | fuel + 1, cur, process, last, within, atEnd, run => by
      rw [sendfileRounds] at run
      obtain ⟨rv, next, sent, run⟩ :=
        bind_some_eq_ok (by decide) run rfl
      obtain ⟨most, copies⟩ := sendfile_eq_some different atEnd sent
      dsimp only at run
      by_cases more : cur + rv < amt
      · rw [if_pos more] at run
        have nextAtEnd :
            (next.file dst).pos = (next.file dst).bytes.length := by
          rw [copies.dst_eq, List.length_append, copies.available, atEnd]
        have rest :=
          copies.trans
            (sendfileRounds_eq_true (by omega) nextAtEnd run)
        have sum : rv + (amt - (cur + rv)) = amt - cur := by omega
        rw [sum] at rest
        exact rest
      · rw [if_neg more] at run
        cases run
        have all : rv = amt - cur := by omega
        rw [← all]
        exact copies

end Copying

/-! ## Shifting the data -/

section Shifting

variable {env : Env} {process last : Process} {se : SavedElfdata}

/-- What follows the old note has been saved. -/
theorem saveTail_eq_some {savesz : Nat}
    (fits : se.notesStart + se.viNoteEnd < 2 ^ 64)
    (fresh : process.tmp = ⟨[], 0⟩)
    (run : saveTail env se process = .ok (some savesz) last) :
    process.elf.bytes.length < 2 ^ 63 ∧
      se.notesStart + se.viNoteEnd ≤ process.elf.bytes.length ∧
      savesz = process.elf.bytes.length - (se.notesStart + se.viNoteEnd) ∧
      last.elf.bytes = process.elf.bytes ∧
      last.tmp.bytes =
        process.elf.bytes.drop (se.notesStart + se.viNoteEnd) := by
  rw [saveTail] at run
  obtain ⟨length, atEnd, toEnd, run⟩ :=
    bind_some_eq_ok (Option.some_ne_none _) run rfl
  obtain ⟨atTail, toTail, run⟩ := bind_check_eq_ok (Option.some_ne_none _) run
  obtain ⟨made, mkstemp, run⟩ := bind_check_eq_ok (Option.some_ne_none _) run
  obtain ⟨unlinked, unlink, run⟩ :=
    bind_check_eq_ok (Option.some_ne_none _) run
  obtain ⟨saved, copying, run⟩ := bind_check_eq_ok (Option.some_ne_none _) run
  cases run
  obtain ⟨lengthEq, lengthLt, atEndEq⟩ := lseekEnd_eq_some toEnd
  obtain ⟨-, atTailEq⟩ := lseek_eq_true toTail
  rw [Nat.mod_eq_of_lt fits] at atTailEq copying
  have lastEq :
      unlinked.file .elf =
          ⟨process.elf.bytes, se.notesStart + se.viNoteEnd⟩ ∧
        unlinked.file .tmp = ⟨[], 0⟩ := by
    rw [succeeds_eq_ok unlink, succeeds_eq_ok mkstemp, atTailEq, atEndEq]
    exact ⟨rfl, fresh⟩
  obtain ⟨ready, empty⟩ := lastEq
  have copies :=
    sendfileRounds_eq_true (by decide) (Nat.zero_le _) (by
      rw [empty]
      rfl) copying
  rw [Nat.sub_zero] at copies
  obtain ⟨available, srcEq, dstEq⟩ := copies
  rw [ready] at available srcEq dstEq
  rw [empty] at dstEq
  change length = process.elf.bytes.length at lengthEq
  rw [lengthEq] at lengthLt available srcEq dstEq ⊢
  have reachable :
      se.notesStart + se.viNoteEnd ≤ process.elf.bytes.length := by
    have within := available
    rw [slice_length] at within
    change min _ (process.elf.bytes.length - (_ + _)) = _ at within
    omega
  have size :
      (process.elf.bytes.length + 2 ^ 64 -
          (se.notesStart + se.viNoteEnd)) % 2 ^ 64 =
        process.elf.bytes.length - (se.notesStart + se.viNoteEnd) := by
    omega
  rw [Nat.mod_eq_of_lt fits, size]
  have elfBytes : (last.file .elf).bytes = process.elf.bytes := by rw [srcEq]
  have tmpBytes :
      (last.file .tmp).bytes =
        process.elf.bytes.drop (se.notesStart + se.viNoteEnd) := by
    rw [dstEq, size]
    exact slice_to_end _ _
  exact ⟨lengthLt, reachable, rfl, elfBytes, tmpBytes⟩

/-- The new note and what was saved follow what is left of the core file. -/
theorem appendNote_eq_true {newnote : List UInt8}
    (run :
      appendNote env newnote process.tmp.bytes.length process =
        .ok true last) :
    last.elf.bytes = process.elf.bytes ++ newnote ++ process.tmp.bytes := by
  rw [appendNote] at run
  obtain ⟨length, atEnd, toEnd, run⟩ := bind_some_eq_ok (by decide) run rfl
  obtain ⟨rewound, toStart, run⟩ := bind_check_eq_ok (by decide) run
  obtain ⟨rv, noted, writing, run⟩ := bind_some_eq_ok (by decide) run rfl
  obtain ⟨complete, run⟩ := guard_eq_ok (by decide) run
  rw [not_not.mp complete] at writing
  obtain ⟨lengthEq, -, atEndEq⟩ := lseekEnd_eq_some toEnd
  obtain ⟨-, rewoundEq⟩ := lseek_eq_true toStart
  have files :
      noted.file .elf =
          ⟨process.elf.bytes ++ newnote,
            process.elf.bytes.length + newnote.length⟩ ∧
        noted.file .tmp = ⟨process.tmp.bytes, 0⟩ := by
    rw [write_eq_some writing, rewoundEq, atEndEq, lengthEq]
    refine ⟨?_, rfl⟩
    rw [Process.wrote_file_self, ← overwrite_end]
    rfl
  obtain ⟨elfEq, tmpEq⟩ := files
  have copies :=
    sendfileRounds_eq_true (by decide) (Nat.zero_le _) (by
      rw [elfEq, List.length_append]) run
  have appended := copies.dst_eq
  rw [elfEq, tmpEq, Nat.sub_zero] at appended
  have bytesEq := congrArg ByteFile.bytes appended
  rw [slice_all] at bytesEq
  exact bytesEq

end Shifting

/-! ## The whole run -/

/-- The core file with the new program headers. -/
def withPhdrs (bytes : List UInt8) (se : SavedElfdata) (newdescsz : Nat) :
    List UInt8 :=
  overwrite bytes se.ehdr.ePhoff.toNat
    (Elf64Phdr.encodeTable (shiftPhdrs se newdescsz))

/-- The core file after a successful run. -/
def edited (bytes : List UInt8) (se : SavedElfdata) (newdesc : List UInt8) :
    List UInt8 :=
  (withPhdrs bytes se newdesc.length).take (se.notesStart + se.viNoteStart) ++
    newNote se newdesc ++
    (withPhdrs bytes se newdesc.length).drop (se.notesStart + se.viNoteEnd)

theorem withPhdrs_length
    {bytes : List UInt8} {beyond : Nat → UInt8} {se : SavedElfdata}
    (loads : Loads bytes beyond se) (newdescsz : Nat) :
    (withPhdrs bytes se newdescsz).length = bytes.length := by
  apply overwrite_length
  rw [loads.table_length]
  exact loads.table_le

theorem shiftData_eq_true
    {env : Env} {process last : Process} {se : SavedElfdata}
    {newdesc : List UInt8}
    (noteLe : se.viNoteStart ≤ se.viNoteEnd)
    (fits : se.notesStart + se.viNoteEnd < 2 ^ 64)
    (fresh : process.tmp = ⟨[], 0⟩)
    (run : shiftData env se newdesc process = .ok true last) :
    process.elf.bytes.length < 2 ^ 63 ∧
      se.notesStart + se.viNoteEnd ≤ process.elf.bytes.length ∧
      last.elf.bytes =
        process.elf.bytes.take (se.notesStart + se.viNoteStart) ++
          newNote se newdesc ++
          process.elf.bytes.drop (se.notesStart + se.viNoteEnd) := by
  rw [shiftData] at run
  obtain ⟨savesz, saved, saving, run⟩ := bind_some_eq_ok (by decide) run rfl
  obtain ⟨cut, truncating, run⟩ := bind_check_eq_ok (by decide) run
  obtain ⟨lengthLt, reachable, size, elfEq, tmpEq⟩ :=
    saveTail_eq_some fits fresh saving
  obtain ⟨-, cutEq⟩ := ftruncate_eq_true truncating
  rw [Nat.mod_eq_of_lt (by omega)] at cutEq
  have elfCut :
      cut.elf.bytes =
        process.elf.bytes.take (se.notesStart + se.viNoteStart) := by
    rw [cutEq, ← elfEq]
    exact truncate_of_le (by
      rw [elfEq]
      omega)
  have tmpCut :
      cut.tmp.bytes =
        process.elf.bytes.drop (se.notesStart + se.viNoteEnd) := by
    rw [cutEq]
    exact tmpEq
  have sizeEq : savesz = cut.tmp.bytes.length := by
    rw [tmpCut, List.length_drop, size]
  rw [sizeEq] at run
  refine ⟨lengthLt, reachable, ?_⟩
  rw [appendNote_eq_true run, elfCut, tmpCut]

/-- Every run that returns 0 has loaded the core file and leaves `edited`. -/
theorem editFile_eq_zero
    {env : Env} {bytes newdata : List UInt8} {last : Process}
    (run : editFile env newdata (Process.initial bytes) = .ok 0 last) :
    ∃ se,
      Loads bytes env.beyond se ∧
        se.notesStart + se.viNoteEnd ≤ bytes.length ∧
        bytes.length < 2 ^ 63 ∧ last.elf.bytes = edited bytes se newdata := by
  rw [editFile] at run
  obtain ⟨opened, opening, run⟩ := bind_check_eq_ok (by decide) run
  obtain ⟨se, loaded, loading, run⟩ := bind_some_eq_ok (by decide) run rfl
  obtain ⟨updated, updating, run⟩ := bind_check_eq_ok (by decide) run
  obtain ⟨shifted, shifting, run⟩ := bind_check_eq_ok (by decide) run
  cases run
  have openedEq := succeeds_eq_ok opening
  have loads : Loads bytes env.beyond se := by
    have here := readElfdata_loads (by rw [openedEq]; rfl) loading
    rw [openedEq] at here
    exact here
  have looks := (readElfdata_keeps env).ok loading
  obtain ⟨part, rest, split, bytesEq, tmpEq, -, whole⟩ :=
    updateOffsets_ok (loads.table_length _) updating
  rw [whole rfl, List.append_nil] at split
  rw [← split, looks.elf_eq, openedEq] at bytesEq
  have updatedBytes :
      updated.elf.bytes = withPhdrs bytes se newdata.length := bytesEq
  obtain ⟨noteLe, fits⟩ := loads.offsets_lt
  obtain ⟨lengthLt, reachable, lastEq⟩ :=
    shiftData_eq_true noteLe fits (by
      rw [tmpEq, looks.tmp_eq, openedEq]
      rfl) shifting
  rw [updatedBytes] at lengthLt reachable lastEq
  rw [withPhdrs_length loads] at lengthLt reachable
  exact ⟨se, loads, reachable, lengthLt, lastEq⟩

/-! ## Complete calls -/

section Completing

variable {env : Env} (completes : env.Completes)

include completes

/-- As long as there is something to copy, a part of it is copied. -/
theorem sendfile_of_completes
    (dst src : Fd) {count : Nat} {process : Process}
    (available :
      (slice (process.file src).bytes (process.file src).pos count).length =
        count) :
    ∃ rv last,
      sendfile env dst src count process = .ok (some rv) last ∧
        (0 < count → 0 < rv) := by
  obtain ⟨succeeded, notNone⟩ := completes.sent_ne process.calls
  rw [sendfile_eq, if_neg succeeded]
  refine ⟨_, _, rfl, fun positive => ?_⟩
  have some := CallOutcome.limit_pos succeeded notNone positive
  rw [slice_length] at available ⊢
  omega

theorem sendfileRounds_of_completes
    {dst src : Fd} (different : src ≠ dst) {amt : Nat} :
    ∀ {fuel cur : Nat} {process : Process}, cur ≤ amt → amt - cur < fuel →
      (process.file dst).pos = (process.file dst).bytes.length →
        (slice (process.file src).bytes (process.file src).pos
            (amt - cur)).length = amt - cur →
          ∃ last,
            sendfileRounds env dst src amt fuel cur process = .ok true last
  | 0, _, _, _, enough, _, _ => absurd enough (Nat.not_lt_zero _)
  | fuel + 1, cur, process, within, enough, atEnd, available => by
      obtain ⟨rv, next, sent, progress⟩ :=
        sendfile_of_completes completes dst src available
      obtain ⟨most, copies⟩ := sendfile_eq_some different atEnd sent
      rw [sendfileRounds, bind_of_ok sent]
      dsimp only
      by_cases more : cur + rv < amt
      · rw [if_pos more]
        have positive := progress (by omega)
        apply sendfileRounds_of_completes different (by omega) (by omega)
        · rw [copies.dst_eq, List.length_append, copies.available, atEnd]
        · rw [copies.src_eq, slice_length]
          rw [slice_length] at available
          dsimp only
          omega
      · rw [if_neg more]
        exact ⟨next, rfl⟩

theorem saveTail_of_completes
    {process : Process} {se : SavedElfdata}
    (fits : se.notesStart + se.viNoteEnd ≤ process.elf.bytes.length)
    (lengthLt : process.elf.bytes.length < 2 ^ 63)
    (fresh : process.tmp = ⟨[], 0⟩)
    (enough : process.elf.bytes.length < env.fuel) :
    ∃ last,
      saveTail env se process =
        .ok
          (some (process.elf.bytes.length -
            (se.notesStart + se.viNoteEnd))) last := by
  have offsetEq :
      (se.notesStart + se.viNoteEnd) % 2 ^ 64 =
        se.notesStart + se.viNoteEnd :=
    Nat.mod_eq_of_lt (by omega)
  have size :
      (process.elf.bytes.length + 2 ^ 64 -
          (se.notesStart + se.viNoteEnd)) % 2 ^ 64 =
        process.elf.bytes.length - (se.notesStart + se.viNoteEnd) := by
    omega
  have toEnd := lseekEnd_of_completes completes .elf process lengthLt
  let atTail : Process :=
    ((process.tick.seek .elf process.elf.bytes.length).tick.seek .elf
      (se.notesStart + se.viNoteEnd)).tick.tick
  have copies :
      ∃ last,
        sendfileRounds env .tmp .elf
            (process.elf.bytes.length - (se.notesStart + se.viNoteEnd))
            env.fuel 0 atTail = .ok true last := by
    apply sendfileRounds_of_completes completes (by decide) (Nat.zero_le _)
    · omega
    · change process.tmp.pos = process.tmp.bytes.length
      rw [fresh]
      rfl
    · rw [slice_length]
      change min _ (process.elf.bytes.length - (_ + _)) = _
      omega
  obtain ⟨last, copying⟩ := copies
  refine ⟨last, ?_⟩
  rw [saveTail, bind_of_ok toEnd]
  change (lseek env .elf _ >>= _) _ = _
  rw [offsetEq, bind_of_ok (lseek_of_completes completes .elf _ (by omega))]
  change (succeeds env >>= _) _ = _
  rw [bind_of_ok (succeeds_of_completes completes _)]
  change (succeeds env >>= _) _ = _
  rw [bind_of_ok (succeeds_of_completes completes _)]
  change
    (sendfileRounds env .tmp .elf ((process.elf.bytes.length + _ - _) % _)
      env.fuel 0 >>= _) atTail = _
  rw [size, bind_of_ok copying]
  change EStateM.Result.ok (some ((process.elf.bytes.length + _ - _) % _)) _ = _
  rw [size]

theorem appendNote_of_completes
    {process : Process} (newnote : List UInt8)
    (lengthLt : process.elf.bytes.length < 2 ^ 63)
    (enough : process.tmp.bytes.length < env.fuel) :
    ∃ last,
      appendNote env newnote process.tmp.bytes.length process =
        .ok true last := by
  have toEnd := lseekEnd_of_completes completes .elf process lengthLt
  let noted : Process :=
    ((process.tick.seek .elf process.elf.bytes.length).tick.seek .tmp
      0).tick.wrote .elf newnote
  have atEnd :
      noted.elf =
        ⟨process.elf.bytes ++ newnote,
          process.elf.bytes.length + newnote.length⟩ := by
    rw [← overwrite_end]
    rfl
  have copies :
      ∃ last,
        sendfileRounds env .elf .tmp process.tmp.bytes.length env.fuel 0
            noted = .ok true last := by
    apply sendfileRounds_of_completes completes (by decide) (Nat.zero_le _)
    · exact enough
    · change noted.elf.pos = noted.elf.bytes.length
      rw [atEnd, List.length_append]
    · change (slice process.tmp.bytes 0 process.tmp.bytes.length).length = _
      rw [slice_all, Nat.sub_zero]
  obtain ⟨last, copying⟩ := copies
  refine ⟨last, ?_⟩
  rw [appendNote, bind_of_ok toEnd]
  change (lseek env .tmp 0 >>= _) _ = _
  rw [bind_of_ok (lseek_of_completes completes .tmp _ (by decide))]
  change (write env .elf newnote >>= _) _ = _
  rw [bind_of_ok (write_of_completes completes .elf _ newnote)]
  dsimp only
  rw [if_neg (not_not.mpr rfl)]
  exact copying

theorem shiftData_of_completes
    {process : Process} {se : SavedElfdata} (newdesc : List UInt8)
    (noteLe : se.viNoteStart ≤ se.viNoteEnd)
    (fits : se.notesStart + se.viNoteEnd ≤ process.elf.bytes.length)
    (lengthLt : process.elf.bytes.length < 2 ^ 63)
    (fresh : process.tmp = ⟨[], 0⟩)
    (enough : process.elf.bytes.length < env.fuel) :
    ∃ last, shiftData env se newdesc process = .ok true last := by
  obtain ⟨saved, saving⟩ :=
    saveTail_of_completes completes fits lengthLt fresh enough
  obtain ⟨-, -, -, elfEq, tmpEq⟩ :=
    saveTail_eq_some (by omega) fresh saving
  have cutAt :
      (se.notesStart + se.viNoteStart) % 2 ^ 64 =
        se.notesStart + se.viNoteStart :=
    Nat.mod_eq_of_lt (by omega)
  let cut : Process :=
    { saved.tick with
      elf.bytes :=
        truncate saved.elf.bytes (se.notesStart + se.viNoteStart)
      changes :=
        saved.changes ++ [.truncated (se.notesStart + se.viNoteStart)] }
  have truncating :
      ftruncate env ((se.notesStart + se.viNoteStart) % 2 ^ 64) saved =
        .ok true cut := by
    rw [cutAt]
    exact ftruncate_of_completes completes saved (by omega)
  have size :
      process.elf.bytes.length - (se.notesStart + se.viNoteEnd) =
        cut.tmp.bytes.length := by
    change _ = saved.tmp.bytes.length
    rw [tmpEq, List.length_drop]
  have shorter : cut.elf.bytes.length < 2 ^ 63 := by
    change (truncate saved.elf.bytes _).length < _
    rw [elfEq, truncate_of_le (by omega), List.length_take]
    omega
  obtain ⟨last, appending⟩ :=
    appendNote_of_completes completes (newNote se newdesc) shorter (by omega)
  refine ⟨last, ?_⟩
  rw [shiftData, bind_of_ok saving]
  change (ftruncate env _ >>= _) saved = _
  rw [bind_of_ok truncating, size]
  exact appending

theorem updateOffsets_of_completes
    (process : Process) {se : SavedElfdata} {newdescsz : Nat}
    (phoffLt : se.ehdr.ePhoff.toNat < 2 ^ 63)
    (length :
      (Elf64Phdr.encodeTable (shiftPhdrs se newdescsz)).length =
        tableSize se.ehdr)
    (sizeLt : tableSize se.ehdr < 2 ^ 31) :
    ∃ last, updateOffsets env se newdescsz process = .ok true last := by
  have written :
      sizeT (intOf (Elf64Phdr.encodeTable
        (shiftPhdrs se newdescsz)).length) = tableSize se.ehdr := by
    rw [length, sizeT_intOf_of_lt sizeLt]
  rw [updateOffsets, bind_of_ok (lseek_of_completes completes .elf _ phoffLt)]
  change ∃ last, (write env .elf _ >>= _) _ = .ok true last
  rw [bind_of_ok (write_of_completes completes .elf _ _)]
  change
    ∃ last,
      (if sizeT _ ≠ tableSize se.ehdr then _ else _ : Program Bool) _ =
        .ok true last
  rw [if_neg (not_not.mpr written)]
  exact ⟨_, rfl⟩

/-- With complete calls every core file that can be loaded, and holds the note,
is edited. -/
theorem editFile_of_completes
    {bytes : List UInt8} {se : SavedElfdata} (newdata : List UInt8)
    (loads : Loads bytes env.beyond se)
    (fits : se.notesStart + se.viNoteEnd ≤ bytes.length)
    (lengthLt : bytes.length < 2 ^ 63) (enough : bytes.length < env.fuel) :
    ∃ last,
      editFile env newdata (Process.initial bytes) = .ok 0 last ∧
        last.elf.bytes = edited bytes se newdata := by
  have opening := succeeds_of_completes completes (Process.initial bytes)
  obtain ⟨loaded, loading⟩ :
      ∃ last, readElfdata env (Process.initial bytes).tick =
        .ok (some se) last :=
    readElfdata_of_loads completes rfl loads
  have looks := (readElfdata_keeps env).ok loading
  obtain ⟨updated, updating⟩ :
      ∃ last, updateOffsets env se newdata.length loaded = .ok true last :=
    updateOffsets_of_completes completes loaded loads.headers.phoff_lt
      (loads.table_length _) loads.headers.tableSize_lt
  obtain ⟨part, rest, split, bytesEq, tmpEq, -, whole⟩ :=
    updateOffsets_ok (loads.table_length _) updating
  rw [whole rfl, List.append_nil] at split
  rw [← split, looks.elf_eq] at bytesEq
  have updatedBytes :
      updated.elf.bytes = withPhdrs bytes se newdata.length := bytesEq
  have sameLength : updated.elf.bytes.length = bytes.length := by
    rw [updatedBytes, withPhdrs_length loads]
  have fresh : updated.tmp = ⟨[], 0⟩ := by
    rw [tmpEq, looks.tmp_eq]
    rfl
  obtain ⟨noteLe, sumLt⟩ := loads.offsets_lt
  obtain ⟨last, shifting⟩ :
      ∃ last, shiftData env se newdata updated = .ok true last :=
    shiftData_of_completes completes _ noteLe (by omega) (by omega) fresh
      (by omega)
  refine ⟨last, ?_, ?_⟩
  · rw [editFile, bind_of_ok opening]
    change (readElfdata env >>= _) _ = _
    rw [bind_of_ok loading]
    change (updateOffsets env se newdata.length >>= _) _ = _
    rw [bind_of_ok updating]
    change (shiftData env se newdata >>= _) _ = _
    rw [bind_of_ok shifting]
    rfl
  · obtain ⟨-, -, lastEq⟩ := shiftData_eq_true noteLe sumLt fresh shifting
    rw [lastEq, updatedBytes]
    rfl

end Completing

end KernelStuff.Editvmcoreinfo
