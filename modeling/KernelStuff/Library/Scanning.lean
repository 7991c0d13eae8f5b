import Mathlib.Data.List.Basic
import Mathlib.Data.List.TakeWhile

/-!
# Scanning text

A pattern whose parts cannot run into each other is matched from left to right:
a fixed text is dropped, and a run of characters goes on as far as it can.
-/

namespace KernelStuff.Library

universe u

section Scanning

variable {Symbol : Type u} [BEq Symbol] [LawfulBEq Symbol]

/-- What stands behind a fixed text. -/
def skip (fixed text : List Symbol) : Option (List Symbol) :=
  text.dropPrefix? fixed

@[simp]
theorem skip_append (fixed rest : List Symbol) :
    skip fixed (fixed ++ rest) = some rest :=
  List.dropPrefix?_append_of_beq rest (BEq.refl fixed)

theorem skip_eq_some_iff {fixed text rest : List Symbol} :
    skip fixed text = some rest ↔ text = fixed ++ rest := by
  rw [skip, List.dropPrefix?_eq_some_iff]
  constructor
  · rintro ⟨found, split, same⟩
    rw [split, eq_of_beq same]
  · intro split
    exact ⟨fixed, split, BEq.refl fixed⟩

omit [BEq Symbol] [LawfulBEq Symbol]

/-- A run of characters of one kind, at least one of them, and what stands behind
it. -/
def scanRun (kind : Symbol → Bool) (text : List Symbol) :
    Option (List Symbol × List Symbol) :=
  match text.takeWhile kind with
  | [] => none
  | first :: rest => some (first :: rest, text.dropWhile kind)

/-- The text does not go on with a character of the kind. -/
def StopsAt (kind : Symbol → Bool) (text : List Symbol) : Prop :=
  ∀ symbol ∈ text.head?, kind symbol = false

/-- A run of characters ends where the text stops. -/
theorem takeWhile_append_stops
    {kind : Symbol → Bool} {run rest : List Symbol}
    (all : ∀ symbol ∈ run, kind symbol = true) (stops : StopsAt kind rest) :
    (run ++ rest).takeWhile kind = run ∧ (run ++ rest).dropWhile kind = rest := by
  rw [List.takeWhile_append_of_pos all, List.dropWhile_append_of_pos all]
  cases rest with
  | nil => simp
  | cons symbol rest =>
      have no := stops symbol rfl
      simp [no]

/-- Two runs in front of texts that stop are told apart. -/
theorem run_inj
    (kind : Symbol → Bool) {run other rest otherRest : List Symbol}
    (all : ∀ symbol ∈ run, kind symbol = true)
    (otherAll : ∀ symbol ∈ other, kind symbol = true)
    (stops : StopsAt kind rest) (otherStops : StopsAt kind otherRest)
    (same : run ++ rest = other ++ otherRest) : run = other ∧ rest = otherRest := by
  have here := takeWhile_append_stops all stops
  have there := takeWhile_append_stops otherAll otherStops
  rw [same] at here
  exact ⟨here.1.symm.trans there.1, here.2.symm.trans there.2⟩

theorem scanRun_append
    {kind : Symbol → Bool} {run rest : List Symbol}
    (nonempty : run ≠ []) (all : ∀ symbol ∈ run, kind symbol = true)
    (stops : StopsAt kind rest) :
    scanRun kind (run ++ rest) = some (run, rest) := by
  obtain ⟨taken, dropped⟩ := takeWhile_append_stops all stops
  rw [scanRun, taken, dropped]
  cases run with
  | nil => exact absurd rfl nonempty
  | cons first others => rfl

theorem scanRun_eq_some_iff
    {kind : Symbol → Bool} {text run rest : List Symbol} :
    scanRun kind text = some (run, rest) ↔
      text = run ++ rest ∧ run ≠ [] ∧ (∀ symbol ∈ run, kind symbol = true) ∧
        StopsAt kind rest := by
  constructor
  · intro scanned
    rw [scanRun] at scanned
    split at scanned
    · cases scanned
    · next first others taken =>
        cases scanned
        rw [← taken]
        refine ⟨List.takeWhile_append_dropWhile.symm, ?_, ?_, ?_⟩
        · rw [taken]
          exact List.cons_ne_nil _ _
        · intro symbol member
          exact List.mem_takeWhile_imp member
        · intro symbol here
          have stopped := List.head?_dropWhile_not kind text
          rw [Option.mem_def.mp here] at stopped
          exact stopped
  · rintro ⟨split, nonempty, all, stops⟩
    rw [split]
    exact scanRun_append nonempty all stops

end Scanning

/-! ## Numbers -/

section Numbers

variable {Symbol : Type u} {base : Nat} {render : Char → Symbol}

/-- What holds of the symbol of each digit holds of all symbols of a number. -/
theorem mem_toDigits
    {kind : Symbol → Prop} (two : 1 < base)
    (each : ∀ digit, digit < base → kind (render (Nat.digitChar digit))) (n : Nat) :
    ∀ symbol ∈ (Nat.toDigits base n).map render, kind symbol := by
  induction n using Nat.strong_induction_on with
  | _ n induction =>
      intro symbol member
      by_cases small : n < base
      · rw [Nat.toDigits_of_lt_base small, List.map_singleton,
          List.mem_singleton] at member
        rw [member]
        exact each n small
      · have shorter : n / base < n :=
          Nat.div_lt_self (by omega) two
        rw [Nat.toDigits_of_base_le two (Nat.le_of_not_lt small), List.map_append,
          List.mem_append] at member
        cases member with
        | inl before => exact induction (n / base) shorter symbol before
        | inr last =>
            rw [List.map_singleton, List.mem_singleton] at last
            rw [last]
            exact each (n % base) (Nat.mod_lt n (by omega))

/-- A number reads back from its digits. -/
theorem foldl_toDigits
    {value : Symbol → Nat} (two : 1 < base)
    (reads : ∀ digit, digit < base → value (render (Nat.digitChar digit)) = digit)
    (n : Nat) :
    ((Nat.toDigits base n).map render).foldl
      (fun number symbol => base * number + value symbol) 0 = n := by
  induction n using Nat.strong_induction_on with
  | _ n induction =>
      by_cases small : n < base
      · rw [Nat.toDigits_of_lt_base small]
        simp [reads n small]
      · have shorter : n / base < n :=
          Nat.div_lt_self (by omega) two
        rw [Nat.toDigits_of_base_le two (Nat.le_of_not_lt small), List.map_append,
          List.foldl_append, induction (n / base) shorter, List.map_singleton,
          List.foldl_cons, List.foldl_nil,
          reads (n % base) (Nat.mod_lt n (by omega))]
        exact Nat.div_add_mod n base

/-- The value of a hexadecimal digit in lower case. -/
def hexCharValue (char : Char) : Nat :=
  if char.toNat < 58 then char.toNat - 48 else char.toNat - 87

theorem toDigits_sixteen_injective : Function.Injective (Nat.toDigits 16) := by
  intro first second same
  have reads : ∀ digit, digit < 16 → hexCharValue (id (Nat.digitChar digit)) = digit := by
    decide
  rw [← foldl_toDigits (by decide) reads first, same]
  exact foldl_toDigits (by decide) reads second

end Numbers

/-! ## Blocks with marked heads -/

section Marked

variable {Entry Index Mark : Type u}

/-- A block is empty or starts with the entry that carries its mark; no other
entry of it is marked. -/
def Headed (mark : Entry → Option Mark) (name : Mark) (block : List Entry) : Prop :=
  block = [] ∨ ∃ head tail, block = head :: tail ∧ mark head = some name ∧
    ∀ entry ∈ tail, mark entry = none

theorem Headed.marked_head
    {mark : Entry → Option Mark} {name : Index → Mark}
    {block : Index → List Entry} :
    ∀ {items : List Index}, (∀ i ∈ items, Headed mark (name i) (block i)) →
      ∀ entry ∈ (items.flatMap block).head?, ∃ i ∈ items, mark entry = some (name i)
  | [], _, _, impossible => by simp at impossible
  | i :: rest, headed, entry, first => by
      rw [List.flatMap_cons] at first
      cases headed i List.mem_cons_self with
      | inl empty =>
          rw [empty, List.nil_append] at first
          obtain ⟨j, member, marked⟩ :=
            Headed.marked_head
              (fun j member => headed j (List.mem_cons_of_mem _ member)) entry first
          exact ⟨j, List.mem_cons_of_mem _ member, marked⟩
      | inr nonempty =>
          obtain ⟨head, tail, split, marked, _⟩ := nonempty
          rw [split, List.cons_append, List.head?_cons] at first
          cases first
          exact ⟨i, List.mem_cons_self, marked⟩

theorem Headed.stopsAt
    {mark : Entry → Option Mark} {name : Index → Mark}
    {block : Index → List Entry} {items : List Index}
    (headed : ∀ i ∈ items, Headed mark (name i) (block i)) :
    StopsAt (fun entry => (mark entry).isNone) (items.flatMap block) := by
  intro head here
  obtain ⟨i, _, marked⟩ := Headed.marked_head headed head here
  change (mark head).isNone = false
  rw [marked]
  rfl

/-- The block in front and what follows it are recovered. -/
theorem Headed.split
    {mark : Entry → Option Mark} {name : Mark}
    {block other rest otherRest : List Entry}
    (headed : Headed mark name block) (otherHeaded : Headed mark name other)
    (stops : StopsAt (fun entry => (mark entry).isNone) rest)
    (otherStops : StopsAt (fun entry => (mark entry).isNone) otherRest)
    (absent : ∀ entry ∈ rest.head?, mark entry ≠ some name)
    (otherAbsent : ∀ entry ∈ otherRest.head?, mark entry ≠ some name)
    (same : block ++ rest = other ++ otherRest) : block = other ∧ rest = otherRest := by
  cases headed with
  | inl empty =>
      cases otherHeaded with
      | inl otherEmpty =>
          rw [empty, otherEmpty] at same
          exact ⟨empty.trans otherEmpty.symm, same⟩
      | inr nonempty =>
          obtain ⟨head, tail, shape, marked, _⟩ := nonempty
          rw [empty, shape, List.nil_append] at same
          exact absurd marked (absent head (by rw [same]; rfl))
  | inr nonempty =>
      obtain ⟨head, tail, shape, marked, inner⟩ := nonempty
      cases otherHeaded with
      | inl otherEmpty =>
          rw [otherEmpty, shape, List.nil_append] at same
          exact absurd marked (otherAbsent head (by rw [← same]; rfl))
      | inr otherNonempty =>
          obtain ⟨otherHead, otherTail, otherShape, _, otherInner⟩ := otherNonempty
          rw [shape, otherShape, List.cons_append, List.cons_append,
            List.cons.injEq] at same
          obtain ⟨tails, rests⟩ :=
            run_inj (fun entry => (mark entry).isNone)
              (fun entry member => by rw [inner entry member]; rfl)
              (fun entry member => by rw [otherInner entry member]; rfl)
              stops otherStops same.2
          exact ⟨by rw [shape, otherShape, same.1, tails], rests⟩

/-- Blocks with different marks are recovered from their concatenation. -/
theorem Headed.recovered
    {mark : Entry → Option Mark} {name : Index → Mark}
    (apart : Function.Injective name) {first second : Index → List Entry} :
    ∀ {items : List Index}, items.Nodup →
      (∀ i ∈ items, Headed mark (name i) (first i)) →
      (∀ i ∈ items, Headed mark (name i) (second i)) →
      items.flatMap first = items.flatMap second →
        ∀ i ∈ items, first i = second i
  | [], _, _, _, _, _, impossible => by cases impossible
  | i :: rest, nodup, headed, otherHeaded, same, j, member => by
      obtain ⟨fresh, nodup⟩ := List.nodup_cons.mp nodup
      have later := fun j member => headed j (List.mem_cons_of_mem i member)
      have otherLater := fun j member => otherHeaded j (List.mem_cons_of_mem i member)
      -- What follows starts with another mark.
      have absent : ∀ {block : Index → List Entry},
          (∀ j ∈ rest, Headed mark (name j) (block j)) →
            ∀ entry ∈ (rest.flatMap block).head?, mark entry ≠ some (name i) := by
        intro block blocks entry here marked
        obtain ⟨k, within, other⟩ := Headed.marked_head blocks entry here
        have same := apart (Option.some.inj (marked.symm.trans other))
        exact fresh (same ▸ within)
      rw [List.flatMap_cons, List.flatMap_cons] at same
      obtain ⟨here, rests⟩ :=
        (headed i List.mem_cons_self).split (otherHeaded i List.mem_cons_self)
          (Headed.stopsAt later) (Headed.stopsAt otherLater) (absent later)
          (absent otherLater) same
      cases List.mem_cons.mp member with
      | inl isFirst => exact isFirst ▸ here
      | inr within =>
          exact Headed.recovered apart nodup later otherLater rests j within

end Marked

end KernelStuff.Library
