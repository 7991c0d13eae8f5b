import KernelStuff.Vmcoreinfosize.Script
import Mathlib.Algebra.Order.BigOperators.Group.List
import Mathlib.Algebra.Order.Ring.Nat
import Mathlib.Data.List.Flatten

/-!
# What vmcoreinfosize accepts and prints

The statements declare the entries of the note.  The script prints one line for
each of them, and the length of these lines.
-/

namespace KernelStuff.Vmcoreinfosize

open KernelStuff.Library

/-- An entry of the note. -/
inductive Entry where
  | symbol (name : Text)
  | offset (struct field : Text)
  | number (name : Text)
  | length (name : Text)
  | size (name : Text)
  | pagesize
  | buildid
  | osrelease
  deriving DecidableEq

namespace Entry

def key : Entry → Text
  | symbol name => keyOf "SYMBOL" name
  | offset struct field => keyOf "OFFSET" (struct ++ '.' :: field)
  | number name => keyOf "NUMBER" name
  | length name => keyOf "LENGTH" name
  | size name => keyOf "SIZE" name
  | pagesize => "PAGESIZE".toList
  | buildid => "BUILD-ID".toList
  | osrelease => "OSRELEASE".toList

/-- The value the script makes up. -/
def fake : Entry → Text
  | symbol _ => addr
  | offset _ _ | number _ | length _ | size _ => num
  | pagesize => "16384".toList
  | buildid => List.replicate 40 'f'
  | osrelease => List.replicate 64 'x'

end Entry

/-- A macro of the given kind declares an entry. -/
inductive Declares (kind content : Text) : Entry → Prop
  | symbol
      (isKind : kind = "SYMBOL".toList ∨ kind = "SYMBOL_ARRAY".toList) :
      Declares kind content (.symbol content)
  | offset {before behind : Text}
      (isKind : kind = "OFFSET".toList ∨ kind = "TYPE_OFFSET".toList)
      (split : content = before ++ ',' :: behind) (first : ',' ∉ before) :
      Declares kind content (.offset (strip before) (strip behind))
  | number (isKind : kind = "NUMBER".toList) :
      Declares kind content (.number content)
  | length {before behind : Text} (isKind : kind = "LENGTH".toList)
      (split : content = before ++ ',' :: behind) (first : ',' ∉ before) :
      Declares kind content (.length (strip before))
  | size (isKind : kind = "SIZE".toList ∨ kind = "STRUCT_SIZE".toList) :
      Declares kind content (.size content)
  | pagesize (isKind : kind = "PAGESIZE".toList) : Declares kind content .pagesize
  | buildid (isKind : kind = "BUILD_ID".toList) : Declares kind content .buildid
  | osrelease (isKind : kind = "OSRELEASE".toList) :
      Declares kind content .osrelease

/-- A statement is a call of the macro on one line. -/
def StatementDeclares (stmt : Text) (entry : Entry) : Prop :=
  ∃ kind content,
    stmt = "VMCOREINFO_".toList ++ (kind ++ '(' :: (content ++ ");".toList)) ∧
      '\n' ∉ content ∧ Declares kind content entry

/-- The lines of a function behind the first line that names it, up to the brace
that closes it. -/
def HasBody (funcname : Text) (lines body : List Text) : Prop :=
  ∃ before start behind,
    lines = before ++ start :: (body ++ "\x7d\n".toList :: behind) ∧
      (∀ line ∈ before, ¬ funcname <:+: line) ∧ funcname <:+: start ∧
      "\x7d\n".toList ∉ body

def statementsIn (body : List Text) : List Text :=
  (body.map strip).filter (startsWith "VMCOREINFO".toList)

/-- The two functions of a kernel tree declare the entries. -/
def TreeDeclares (tree : String → Option Text) (entries : List Entry) : Prop :=
  ∃ crashcore printk crashcoreBody printkBody,
    tree "kernel/crash_core.c" = some crashcore ∧
      tree "kernel/printk/printk.c" = some printk ∧
      HasBody "crash_save_vmcoreinfo_init".toList (fileLines crashcore)
        crashcoreBody ∧
      HasBody "log_buf_vmcoreinfo_setup".toList (fileLines printk) printkBody ∧
      List.Forall₂ StatementDeclares
        (statementsIn crashcoreBody ++ statementsIn printkBody) entries

/-- The lines of the entries with their made-up values. -/
def fakeLines (entries : List Entry) : Text :=
  entries.flatMap fun entry => entryLine entry.key entry.fake

/-! ## The statements of a function -/

theorem not_startsWith_brace :
    startsWith "VMCOREINFO".toList (strip "\x7d\n".toList) = false := by
  decide

theorem statementsIn_singleton (line : Text) :
    statementsIn [line]
      = if startsWith "VMCOREINFO".toList (strip line) then [strip line]
        else [] := by
  rw [statementsIn, List.map_singleton, List.filter_cons, List.filter_nil]

theorem statementsIn_append (front back : List Text) :
    statementsIn (front ++ back) = statementsIn front ++ statementsIn back := by
  rw [statementsIn, List.map_append, List.filter_append]
  rfl

theorem statementsFrom_true_iff
    {funcname : Text} {lines stmts result : List Text} :
    statementsFrom funcname true stmts lines = some result ↔
      ∃ body behind, lines = body ++ "\x7d\n".toList :: behind ∧
        "\x7d\n".toList ∉ body ∧ result = stmts ++ statementsIn body := by
  induction lines generalizing stmts with
  | nil => simp [statementsFrom]
  | cons line rest induction =>
      by_cases isBrace : line = "\x7d\n".toList
      · have found : statementsFrom funcname true stmts (line :: rest)
            = some stmts := by
          rw [isBrace, statementsFrom, not_startsWith_brace]
          rfl
        rw [found]
        constructor
        · intro same
          cases same
          exact ⟨[], rest, by rw [isBrace]; rfl, by simp, by simp [statementsIn]⟩
        · intro ⟨body, behind, split, free, result⟩
          cases body with
          | nil => simp [result, statementsIn]
          | cons first body =>
              cases split
              exact absurd isBrace (fun same =>
                free (same ▸ List.mem_cons_self))
      · have next : statementsFrom funcname true stmts (line :: rest)
            = statementsFrom funcname true (stmts ++ statementsIn [line])
                rest := by
          rw [statementsFrom]
          cases starts : startsWith "VMCOREINFO".toList (strip line) with
          | true => simp only [if_true, statementsIn_singleton, starts]
          | false =>
              simp only [if_true, Bool.false_eq_true, if_false, isBrace,
                statementsIn_singleton, starts, List.append_nil]
        have splits : ∀ body : List Text,
            stmts ++ statementsIn (line :: body)
              = stmts ++ statementsIn [line] ++ statementsIn body := by
          intro body
          rw [List.append_assoc, ← statementsIn_append, List.singleton_append]
        rw [next, induction]
        constructor
        · intro ⟨body, behind, split, free, result⟩
          refine ⟨line :: body, behind, by rw [split]; rfl, ?_, ?_⟩
          · simp only [List.mem_cons, not_or]
            exact ⟨fun same => isBrace same.symm, free⟩
          · rw [result, splits body]
        · intro ⟨body, behind, split, free, result⟩
          cases body with
          | nil =>
              cases split
              exact absurd rfl isBrace
          | cons first body =>
              cases split
              exact ⟨body, behind, rfl,
                fun member => free (List.mem_cons_of_mem _ member),
                by rw [result, splits body]⟩

theorem statementsFrom_false_iff
    {funcname : Text} {lines result : List Text} :
    statementsFrom funcname false [] lines = some result ↔
      ∃ body, HasBody funcname lines body ∧ result = statementsIn body := by
  induction lines with
  | nil => simp [statementsFrom, HasBody]
  | cons line rest induction =>
      by_cases named : funcname <:+: line
      · rw [statementsFrom]
        simp only [named, if_true, Bool.false_eq_true, if_false,
          statementsFrom_true_iff, List.nil_append]
        constructor
        · intro ⟨body, behind, split, free, result⟩
          exact ⟨body, ⟨[], line, behind, by rw [split]; rfl, by simp, named,
            free⟩, result⟩
        · intro ⟨body, ⟨before, start, behind, split, unnamed, _, free⟩, result⟩
          cases before with
          | nil =>
              cases split
              exact ⟨body, behind, rfl, free, result⟩
          | cons first before =>
              cases split
              exact absurd named (unnamed line List.mem_cons_self)
      · rw [statementsFrom]
        simp only [named, Bool.false_eq_true, if_false, induction]
        constructor
        · intro ⟨body, ⟨before, start, behind, split, unnamed, names, free⟩,
            result⟩
          refine ⟨body, ⟨line :: before, start, behind, by rw [split]; rfl, ?_,
            names, free⟩, result⟩
          intro other member
          cases List.mem_cons.mp member with
          | inl same => exact same ▸ named
          | inr later => exact unnamed other later
        · intro ⟨body, ⟨before, start, behind, split, unnamed, names, free⟩,
            result⟩
          cases before with
          | nil =>
              cases split
              exact absurd names named
          | cons first before =>
              cases split
              exact ⟨body, ⟨before, start, behind, rfl,
                fun other member => unnamed other (List.mem_cons_of_mem _ member),
                names, free⟩, result⟩

theorem vmcoreinfoStatements_iff
    {tree : String → Option Text} {filename : String} {funcname : Text}
    {stmts : List Text} :
    vmcoreinfoStatements tree filename funcname = .ok stmts ↔
      ∃ content body, tree filename = some content ∧
        HasBody funcname (fileLines content) body ∧ stmts = statementsIn body := by
  rw [vmcoreinfoStatements]
  cases tree filename with
  | none => simp
  | some content =>
      simp only [Option.some.injEq]
      constructor
      · intro accepted
        cases found : statementsFrom funcname false [] (fileLines content) with
        | none => simp [found] at accepted
        | some others =>
            rw [found] at accepted
            cases accepted
            obtain ⟨lines, has, same⟩ := statementsFrom_false_iff.mp found
            exact ⟨content, lines, rfl, has, same⟩
      · intro ⟨other, lines, same, has, result⟩
        cases same
        rw [statementsFrom_false_iff.mpr ⟨lines, has, result⟩]

/-! ## One statement -/

theorem splitComma_iff {contents before behind : Text} :
    splitComma contents = some (before, behind) ↔
      contents = before ++ ',' :: behind ∧ ',' ∉ before := by
  induction contents generalizing before with
  | nil => simp [splitComma]
  | cons char contents induction =>
      by_cases comma : char = ','
      · cases before with
        | nil => simp [splitComma, comma, eq_comm]
        | cons first before =>
            simp only [splitComma, comma, bne_self_eq_false, Bool.false_eq_true,
              not_false_eq_true, List.dropWhile_cons_of_neg,
              List.takeWhile_cons_of_neg, Option.some.injEq, Prod.mk.injEq,
              List.nil_eq, reduceCtorEq, false_and, List.cons_append,
              List.cons.injEq, List.mem_cons, not_or, false_iff]
            intro both
            exact both.2.1 both.1.1
      · have next : splitComma (char :: contents)
            = (splitComma contents).map fun pair => (char :: pair.1, pair.2) := by
          have passes : (char != ',') = true := bne_iff_ne.mpr comma
          simp only [splitComma, List.dropWhile_cons, List.takeWhile_cons, passes,
            if_true]
          cases contents.dropWhile (· != ',') with
          | nil => rfl
          | cons first behind => rfl
        rw [next, Option.map_eq_some_iff]
        constructor
        · intro present
          obtain ⟨pair, found, same⟩ := present
          cases same
          obtain ⟨split, free⟩ := induction.mp found
          refine ⟨by rw [split]; rfl, ?_⟩
          simp only [List.mem_cons, not_or]
          exact ⟨fun same => comma same.symm, free⟩
        · intro parts
          obtain ⟨split, free⟩ := parts
          cases before with
          | nil =>
              cases split
              exact absurd rfl comma
          | cons first before =>
              cases split
              exact ⟨(before, behind), induction.mpr ⟨rfl,
                fun member => free (List.mem_cons_of_mem _ member)⟩, rfl⟩

theorem dropSuffix_iff {text fixed front : Text} :
    text.dropSuffix? fixed = some front ↔ text = front ++ fixed := by
  rw [List.dropSuffix?_eq_some_iff]
  constructor
  · intro ⟨found, split, same⟩
    rw [split, eq_of_beq same]
  · intro split
    exact ⟨fixed, split, BEq.refl fixed⟩

theorem matchStatement_iff {stmt kind content : Text} :
    matchStatement stmt = some (kind, content) ↔
      stmt = "VMCOREINFO_".toList ++ (kind ++ '(' :: (content ++ ");".toList)) ∧
        '\n' ∉ content ∧ kind ≠ [] ∧
        (∀ char ∈ kind, isKindChar char = true) := by
  constructor
  · intro matched
    simp only [matchStatement, Option.bind_eq_bind, Option.bind_eq_some_iff]
      at matched
    obtain ⟨rest, fixed, ⟨found, behind⟩, scanned, opened, open_, inner, closed,
      result⟩ := matched
    obtain ⟨split, nonempty, all, _⟩ := scanRun_eq_some_iff.mp scanned
    by_cases newline : '\n' ∈ inner
    · simp [newline] at result
    · have afterKind : behind = ['('] ++ opened := skip_eq_some_iff.mp open_
      simp only [newline, if_false, Option.some.injEq, Prod.mk.injEq] at result
      rw [skip_eq_some_iff.mp fixed, split, afterKind, dropSuffix_iff.mp closed, result.1, result.2, List.singleton_append]
      rw [result.1] at nonempty all
      rw [result.2] at newline
      exact ⟨rfl, newline, nonempty, all⟩
  · intro ⟨split, newline, nonempty, all⟩
    have stops : StopsAt isKindChar ('(' :: (content ++ ");".toList)) := by
      intro char here
      cases here
      decide
    have opens : skip ['('] ('(' :: (content ++ ");".toList))
        = some (content ++ ");".toList) := skip_append ['('] _
    rw [split, matchStatement, skip_append]
    simp only [Option.bind_eq_bind, Option.bind_some,
      scanRun_append nonempty all stops, opens, dropSuffix_iff.mpr rfl, newline,
      if_false]

theorem offset_declares
    {kind content line : Text}
    (isKind : kind = "OFFSET".toList ∨ kind = "TYPE_OFFSET".toList)
    (made : offset content = some line) :
    ∃ entry, Declares kind content entry ∧
      line = entryLine entry.key entry.fake := by
  obtain ⟨⟨before, behind⟩, found, same⟩ := Option.map_eq_some_iff.mp made
  obtain ⟨split, first⟩ := splitComma_iff.mp found
  exact ⟨_, .offset isKind split first, same.symm⟩

/-- The function of a kind makes the line of the entry that the kind declares. -/
theorem functions_iff {kind content line : Text} :
    (∃ function, functions.lookup kind = some function ∧
        function content = some line) ↔
      ∃ entry, Declares kind content entry ∧
        line = entryLine entry.key entry.fake := by
  constructor
  · intro ⟨function, found, made⟩
    obtain ⟨before, behind, split, _⟩ := List.lookup_eq_some_iff.mp found
    have member : (kind, function) ∈ functions := by
      rw [split]
      exact List.mem_append_right _ List.mem_cons_self
    simp only [functions, List.mem_cons, Prod.mk.injEq, List.not_mem_nil,
      or_false] at member
    obtain ⟨kind, made_⟩ | ⟨kind, made_⟩ | ⟨kind, made_⟩ | ⟨kind, made_⟩ |
      ⟨kind, made_⟩ | ⟨kind, made_⟩ | ⟨kind, made_⟩ | ⟨kind, made_⟩ |
      ⟨kind, made_⟩ | ⟨kind, made_⟩ | ⟨kind, made_⟩ := member
    all_goals subst made_
    · exact ⟨_, .symbol (.inl kind), (Option.some.inj made).symm⟩
    · exact ⟨_, .symbol (.inr kind), (Option.some.inj made).symm⟩
    · exact offset_declares (.inl kind) made
    · exact offset_declares (.inr kind) made
    · exact ⟨_, .number kind, (Option.some.inj made).symm⟩
    · obtain ⟨⟨before, behind⟩, found, same⟩ := Option.map_eq_some_iff.mp made
      obtain ⟨split, first⟩ := splitComma_iff.mp found
      exact ⟨_, .length kind split first, same.symm⟩
    · exact ⟨_, .size (.inl kind), (Option.some.inj made).symm⟩
    · exact ⟨_, .size (.inr kind), (Option.some.inj made).symm⟩
    · exact ⟨_, .pagesize kind, (Option.some.inj made).symm⟩
    · exact ⟨_, .buildid kind, (Option.some.inj made).symm⟩
    · exact ⟨_, .osrelease kind, (Option.some.inj made).symm⟩
  · intro ⟨entry, declares, same⟩
    cases declares with
    | symbol isKind =>
        refine ⟨symbol, ?_, by rw [same]; rfl⟩
        cases isKind with
        | inl isKind => exact isKind ▸ rfl
        | inr isKind => exact isKind ▸ rfl
    | offset isKind split first =>
        refine ⟨offset, ?_, ?_⟩
        · cases isKind with
          | inl isKind => exact isKind ▸ rfl
          | inr isKind => exact isKind ▸ rfl
        · rw [offset, splitComma_iff.mpr ⟨split, first⟩, same]
          rfl
    | number isKind => exact ⟨number, isKind ▸ rfl, by rw [same]; rfl⟩
    | length isKind split first =>
        refine ⟨length, isKind ▸ rfl, ?_⟩
        rw [length, splitComma_iff.mpr ⟨split, first⟩, same]
        rfl
    | size isKind =>
        refine ⟨size, ?_, by rw [same]; rfl⟩
        cases isKind with
        | inl isKind => exact isKind ▸ rfl
        | inr isKind => exact isKind ▸ rfl
    | pagesize isKind => exact ⟨pagesize, isKind ▸ rfl, by rw [same]; rfl⟩
    | buildid isKind => exact ⟨buildid, isKind ▸ rfl, by rw [same]; rfl⟩
    | osrelease isKind => exact ⟨osrelease, isKind ▸ rfl, by rw [same]; rfl⟩

theorem isKind_of_check
    {kind : Text} (check : (!kind.isEmpty && kind.all isKindChar) = true) :
    kind ≠ [] ∧ ∀ char ∈ kind, isKindChar char = true := by
  rw [Bool.and_eq_true, List.all_eq_true] at check
  refine ⟨fun empty => ?_, check.2⟩
  rw [empty] at check
  cases check.1

theorem Declares.isKind
    {kind content : Text} {entry : Entry} (declares : Declares kind content entry) :
    kind ≠ [] ∧ ∀ char ∈ kind, isKindChar char = true := by
  apply isKind_of_check
  cases declares with
  | symbol isKind | offset isKind | size isKind =>
      cases isKind with
      | inl isKind => rw [isKind]; rfl
      | inr isKind => rw [isKind]; rfl
  | number isKind | length isKind | pagesize isKind | buildid isKind
  | osrelease isKind => rw [isKind]; rfl

theorem fakeStatement_iff {stmt line : Text} :
    fakeStatement stmt = .ok line ↔
      ∃ entry, StatementDeclares stmt entry ∧
        line = entryLine entry.key entry.fake := by
  have unfolded : fakeStatement stmt = .ok line ↔
      ∃ kind content, matchStatement stmt = some (kind, content) ∧
        ∃ function, functions.lookup kind = some function ∧
          function content = some line := by
    rw [fakeStatement]
    cases matchStatement stmt with
    | none => simp
    | some groups =>
        obtain ⟨kind, content⟩ := groups
        cases found : functions.lookup kind with
        | none => simp [found]
        | some function =>
            cases made : function content with
            | none => simp [found, made]
            | some other => simp [found, made]
  rw [unfolded]
  constructor
  · intro ⟨kind, content, matched, made⟩
    obtain ⟨split, newline, _, _⟩ := matchStatement_iff.mp matched
    obtain ⟨entry, declares, same⟩ := functions_iff.mp made
    exact ⟨entry, ⟨kind, content, split, newline, declares⟩, same⟩
  · intro ⟨entry, ⟨kind, content, split, newline, declares⟩, same⟩
    exact ⟨kind, content,
      matchStatement_iff.mpr ⟨split, newline, declares.isKind⟩,
      functions_iff.mpr ⟨entry, declares, same⟩⟩

/-! ## The note -/

theorem fakeStatements_iff {stmts : List Text} {written note : Text} :
    fakeStatements stmts written = .ok note ↔
      ∃ entries, List.Forall₂ StatementDeclares stmts entries ∧
        note = written ++ fakeLines entries := by
  induction stmts generalizing written with
  | nil =>
      simp only [fakeStatements, Except.ok.injEq, List.forall₂_nil_left_iff,
        exists_eq_left, fakeLines, List.flatMap_nil, List.append_nil]
      exact eq_comm
  | cons stmt rest induction =>
      have grows : ∀ (entry : Entry) (entries : List Entry),
          written ++ fakeLines (entry :: entries)
            = written ++ entryLine entry.key entry.fake
              ++ fakeLines entries := by
        intro entry entries
        rw [fakeLines, List.flatMap_cons, List.append_assoc]
        rfl
      constructor
      · intro accepted
        rw [fakeStatements] at accepted
        cases made : fakeStatement stmt with
        | error failure => simp [made] at accepted
        | ok line =>
            rw [made] at accepted
            obtain ⟨entry, declares, same⟩ := fakeStatement_iff.mp made
            obtain ⟨entries, all, note⟩ := induction.mp accepted
            exact ⟨entry :: entries, .cons declares all,
              by rw [note, same, grows]⟩
      · intro ⟨entries, all, note⟩
        cases all with
        | @cons _ entry _ entries declares all =>
            rw [fakeStatements, fakeStatement_iff.mpr ⟨entry, declares, rfl⟩]
            exact induction.mpr ⟨entries, all, by rw [note, grows]⟩

/-- The script ends well exactly on the trees whose two functions declare entries
on lines it knows, and prints the lines of these entries and their length. -/
theorem vmcoreinfosize_main
    (tree : String → Option Text) (note : Text) (size : Nat) :
    main tree = .ok (note, size) ↔
      ∃ entries, TreeDeclares tree entries ∧ note = fakeLines entries ∧
        size = note.length := by
  constructor
  · intro accepted
    rw [main] at accepted
    cases first : vmcoreinfoStatements tree "kernel/crash_core.c"
        "crash_save_vmcoreinfo_init".toList with
    | error failure =>
        rw [first] at accepted
        cases accepted
    | ok crashcore =>
        cases second : vmcoreinfoStatements tree "kernel/printk/printk.c"
            "log_buf_vmcoreinfo_setup".toList with
        | error failure =>
            rw [first, second] at accepted
            cases accepted
        | ok printk =>
            rw [first, second] at accepted
            have printed : (fakeStatements (crashcore ++ printk) []).bind
                (fun note => .ok (note, note.length)) = .ok (note, size) :=
              accepted
            cases made : fakeStatements (crashcore ++ printk) [] with
            | error failure =>
                rw [made] at printed
                cases printed
            | ok fakeVmcoreinfo =>
                rw [made] at printed
                cases printed
                obtain ⟨crashcoreText, crashcoreBody, crashcoreFile,
                  crashcoreHas, crashcoreSame⟩ := vmcoreinfoStatements_iff.mp first
                obtain ⟨printkText, printkBody, printkFile, printkHas,
                  printkSame⟩ := vmcoreinfoStatements_iff.mp second
                obtain ⟨entries, all, same⟩ := fakeStatements_iff.mp made
                rw [crashcoreSame, printkSame] at all
                exact ⟨entries, ⟨crashcoreText, printkText, crashcoreBody,
                  printkBody, crashcoreFile, printkFile, crashcoreHas, printkHas,
                  all⟩, same, rfl⟩
  · intro ⟨entries, ⟨crashcoreText, printkText, crashcoreBody, printkBody,
      crashcoreFile, printkFile, crashcoreHas, printkHas, all⟩, same, length⟩
    have first := vmcoreinfoStatements_iff.mpr
      ⟨crashcoreText, crashcoreBody, crashcoreFile, crashcoreHas, rfl⟩
    have second := vmcoreinfoStatements_iff.mpr
      ⟨printkText, printkBody, printkFile, printkHas, rfl⟩
    have made : fakeStatements (statementsIn crashcoreBody
        ++ statementsIn printkBody) [] = .ok note :=
      fakeStatements_iff.mpr ⟨entries, all, by rw [same, List.nil_append]⟩
    have printed : (fakeStatements (statementsIn crashcoreBody
        ++ statementsIn printkBody) []).bind
          (fun note => .ok (note, note.length)) = .ok (note, size) := by
      rw [made, length]
      rfl
    rw [main, first, second]
    exact printed

end KernelStuff.Vmcoreinfosize
