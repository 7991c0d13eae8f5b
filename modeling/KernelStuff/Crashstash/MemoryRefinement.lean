import KernelStuff.Crashstash.Memory

/-!
# The pages in memory are the list of pages

`Represents` ties the ring of pages to the list that `Stash` keeps: each call on
the pointers does what the call on the list does, and the pages that the module
has are always those of the ring.  So no page is used that is not the module's,
none is freed twice, and none is left when the module goes.
-/

namespace KernelStuff.Crashstash

open KernelStuff.Library

variable {pageShift : Nat}

/-- The ring of the entries `nodes` holds the pages of the stash, and these are
the pages that have been allocated. -/
structure Represents (head : Nat) (nodes : List Nat) (memory : Memory pageShift)
    (stash : Stash pageShift) : Prop where
  ring : memory.links.Ring head nodes
  owned : memory.owned.Perm nodes
  crashstash : stash.crashstash = nodes.map memory.content
  count : memory.count = stash.count
  size : memory.size = stash.size
  pages : memory.pages = stash.pages
  log : memory.log = stash.log

section Operations

variable {head : Nat} {nodes : List Nat} {memory : Memory pageShift}
  {stash : Stash pageShift}

/-! ## Freeing -/

/-- The loop frees each page once and leaves an empty ring. -/
theorem freePages_eq (head : Nat) (poison : Nat × Nat) :
    ∀ (nodes : List Nat) (memory : Memory pageShift),
      memory.links.Ring head nodes → memory.owned.Perm nodes →
        ∃ links : Links Nat,
          freePages head poison memory (memory.links.next head)
              (memory.links.next (memory.links.next head)) =
            .ok { memory with links := links, owned := [] } ∧
          links.Ring head []
  | [], memory, ring, owned => by
      refine ⟨memory.links, ?_, ring⟩
      rw [freePages, if_pos ring.chain.1, ← owned.eq_nil]
  | node :: rest, memory, ring, owned => by
      have first : memory.links.next head = node := ring.chain.1
      have distinct : node ≠ head := by
        intro same
        exact (List.nodup_cons.mp ring.nodup).1 (same ▸ List.mem_cons_self)
      have mine : node ∈ memory.owned :=
        owned.mem_iff.mpr List.mem_cons_self
      have shorter := ring.del_first poison
      have others : (memory.owned.erase node).Perm rest := by
        have erased := owned.erase node
        rwa [List.erase_cons_head] at erased
      have onward :
          (memory.links.del poison node).next head = memory.links.next node := by
        have before : memory.links.Ring head ([] ++ node :: rest) := ring
        rw [shorter.next_head, before.next_node]
      obtain ⟨links, freed, empty⟩ :=
        freePages_eq head poison rest
          { memory with
            links := memory.links.del poison node
            owned := memory.owned.erase node }
          shorter others
      refine ⟨links, ?_, empty⟩
      rw [freePages, first, if_neg distinct, if_pos mine]
      dsimp only at freed ⊢
      rw [onward] at freed
      exact freed

theorem memoryFree_represents
    (poison : Nat × Nat) (represents : Represents head nodes memory stash) :
    ∃ next,
      memoryFree head poison memory = .ok next ∧
        Represents head [] next (crashstashFree stash) := by
  obtain ⟨links, freed, empty⟩ :=
    freePages_eq head poison nodes memory represents.ring represents.owned
  refine
    ⟨{ memory with links := links, owned := [], size := 0, pages := 0 },
      ?_, ?_⟩
  · simp only [memoryFree, freed]
    rfl
  · exact
      { ring := empty
        owned := List.Perm.nil
        crashstash := rfl
        count := represents.count
        size := rfl
        pages := rfl
        log := represents.log }

theorem memoryPrint_represents
    (suppressed : Bool) (represents : Represents head nodes memory stash) :
    Represents head nodes (memoryPrint suppressed memory)
      (prInfoRatelimited suppressed stash) := by
  rw [memoryPrint, prInfoRatelimited, represents.log]
  split
  · exact represents
  · exact { represents with log := rfl }

theorem memoryOpen_represents
    (poison : Nat × Nat) (mode : AccMode) (suppressed : Bool)
    (represents : Represents head nodes memory stash) :
    ∃ next later,
      memoryOpen head poison mode suppressed memory =
          .ok (next, (crashstashOpen mode suppressed stash).2) ∧
        Represents head later next
          (crashstashOpen mode suppressed stash).1 := by
  rw [memoryOpen, crashstashOpen, represents.count]
  by_cases busy : stash.count ≠ 0
  · rw [if_pos busy, if_pos busy]
    exact ⟨memory, nodes, rfl, represents⟩
  rw [if_neg busy, if_neg busy]
  by_cases unsupported : mode = .readWrite
  · rw [if_pos unsupported, if_pos unsupported]
    exact ⟨memory, nodes, rfl, represents⟩
  rw [if_neg unsupported, if_neg unsupported]
  by_cases writes : mode = .writeOnly
  · obtain ⟨freed, run, empty⟩ := memoryFree_represents poison represents
    have printed := memoryPrint_represents suppressed empty
    simp only [if_pos writes, run]
    exact
      ⟨_, [], rfl, { printed with count := congrArg (· + 1) printed.count }⟩
  · simp only [if_neg writes]
    exact ⟨_, nodes, rfl, { represents with count := rfl }⟩

theorem memoryRelease_represents
    {next : Stash pageShift} {value : Int}
    (represents : Represents head nodes memory stash)
    (run : crashstashRelease stash = .ok (next, value)) :
    ∃ later,
      memoryRelease memory = .ok (later, value) ∧
        Represents head nodes later next := by
  rw [crashstashRelease] at run
  rw [memoryRelease, represents.count]
  split at run
  · cases run
  · next open_ =>
      cases run
      rw [if_neg open_]
      exact ⟨_, rfl, { represents with count := rfl }⟩

/-! ## Writing -/

/-- The page to write to is the last entry of the ring. -/
theorem memoryPage_represents
    (allocator : Allocator head) {fresh : Page pageShift} {pgoff : Nat}
    {next : Stash pageShift}
    (represents : Represents head nodes memory stash)
    (run : selectPage fresh pgoff stash = .ok next) :
    ∃ later before pg,
      memoryPage allocator fresh pgoff memory = .ok (later, pg) ∧
        Represents head (before ++ [pg]) later next := by
  rw [selectPage] at run
  by_cases inside : pgoff ≠ 0
  · rw [if_pos inside] at run
    split at run
    · cases run
    · next some =>
        cases run
        have nonempty : nodes ≠ [] := by
          intro none
          apply some
          rw [represents.crashstash, none, List.map_nil]
        obtain ⟨before, last, is⟩ :=
          (List.eq_nil_or_concat' nodes).resolve_left nonempty
        have notEmpty : ¬ memory.links.next head = head := by
          rw [represents.ring.next_head_eq_iff]
          exact nonempty
        subst is
        refine ⟨memory, before, last, ?_, represents⟩
        rw [memoryPage, if_pos inside, if_neg notEmpty,
          represents.ring.prev_head]
  · rw [if_neg inside] at run
    cases run
    generalize pick : allocator.pick memory.owned memory.allocated = pg
    have isFresh := allocator.fresh memory.owned memory.allocated
    rw [pick, List.mem_cons, not_or] at isFresh
    have notNode : pg ∉ nodes := fun member =>
      isFresh.2 (represents.owned.mem_iff.mpr member)
    have notRing : pg ∉ head :: nodes := by
      rw [List.mem_cons, not_or]
      exact ⟨isFresh.1, notNode⟩
    refine
      ⟨{ memory with
          links := memory.links.addTail pg head
          content := Function.update memory.content pg fresh
          pages := memory.pages + 1
          owned := pg :: memory.owned
          allocated := memory.allocated + 1 },
        nodes, pg, ?_, ?_⟩
    · rw [memoryPage, if_neg inside, pick]
    · exact
        { ring := represents.ring.addTail notRing
          owned :=
            (represents.owned.cons pg).trans
              (List.perm_append_singleton pg nodes).symm
          crashstash := by
            dsimp only
            rw [List.map_append, List.map_singleton, Function.update_self,
              represents.crashstash]
            congr 1
            apply List.map_congr_left
            intro node member
            rw [Function.update_of_ne]
            intro same
            exact notNode (same ▸ member)
          count := represents.count
          size := represents.size
          pages := congrArg (· + 1) represents.pages
          log := represents.log }

theorem storePage_represents
    {before : List Nat} {pg : Nat} (pgoff : Nat) (bytes : List UInt8)
    (represents : Represents head (before ++ [pg]) memory stash) :
    ∃ later,
      storePage pg pgoff bytes memory = .ok later ∧
        Represents head (before ++ [pg]) later
          (storeLast pgoff bytes stash) := by
  have mine : pg ∈ memory.owned :=
    represents.owned.mem_iff.mpr (by simp)
  have notBefore : pg ∉ before := by
    intro member
    have distinct := (List.nodup_cons.mp represents.ring.nodup).2
    exact
      (List.nodup_append.mp distinct).2.2 pg member pg
        (List.mem_singleton_self pg) rfl
  refine
    ⟨{ memory with
        content :=
          Function.update memory.content pg
            ((memory.content pg).put pgoff bytes) },
      if_pos mine, ?_⟩
  exact
    { represents with
      crashstash := by
        rw [storeLast]
        dsimp only
        rw [represents.crashstash, List.map_append, List.map_append,
          List.map_singleton, List.map_singleton, List.modifyLast_concat,
          Function.update_self]
        congr 1
        apply List.map_congr_left
        intro node member
        rw [Function.update_of_ne]
        intro same
        exact notBefore (same ▸ member) }

/-- The locals of a write on the pointers and on the list. -/
structure WriteRepresents (head : Nat) (nodes : List Nat)
    (memory : MemoryWrite pageShift) (list : WriteLocals pageShift) : Prop where
  stash : Represents head nodes memory.memory list.stash
  off : memory.off = list.off
  amt : memory.amt = list.amt
  written : memory.written = list.written
  data : memory.data = list.data

/-- A loop that ends on the list ends on the pointers, with the same locals. -/
theorem memoryWriteLoop_represents
    (allocator : Allocator head) (copy : Nat → UserCopy)
    (fresh : Nat → Page pageShift) :
    ∀ (nodes : List Nat) {k : Nat} {list last : WriteLocals pageShift}
      {memory : MemoryWrite pageShift},
      WriteRepresents head nodes memory list →
        writeLoop copy fresh k list = .ok last →
          ∃ later lastNodes,
            memoryWriteLoop allocator copy fresh k memory = .ok later ∧
              WriteRepresents head lastNodes later last := by
  intro nodes k list
  induction amount : list.amt using Nat.strong_induction_on
    generalizing nodes k list with
  | _ amt inductionHypothesis =>
  intro last memory represents run
  rw [writeLoop] at run
  rw [memoryWriteLoop, represents.amt, represents.off, represents.data]
  by_cases finished : list.amt = 0
  · rw [if_pos finished] at run ⊢
    cases run
    exact ⟨memory, nodes, rfl, represents⟩
  rw [if_neg finished] at run ⊢
  dsimp only at run ⊢
  cases selects :
      selectPage (fresh k) (list.off % pageSize pageShift) list.stash with
  | error fault =>
      rw [selects] at run
      cases run
  | ok selected =>
      rw [selects] at run
      obtain ⟨paged, before, pg, page, pageRepresents⟩ :=
        memoryPage_represents allocator represents.stash selects
      rw [page]
      dsimp only at run ⊢
      cases copies : copy k with
      | fault left =>
          rw [copies] at run
          cases run
          obtain ⟨stored, stores, storedRepresents⟩ :=
            storePage_represents (list.off % pageSize pageShift)
              (left.take (chunkAmt pageShift list.off list.amt)) pageRepresents
          refine
            ⟨⟨stored, list.off, list.amt, -EFAULT, list.data⟩, before ++ [pg],
              ?_, ?_⟩
          · dsimp only
            rw [stores]
            rfl
          · exact ⟨storedRepresents, rfl, rfl, rfl, rfl⟩
      | complete =>
          rw [copies] at run
          obtain ⟨stored, stores, storedRepresents⟩ :=
            storePage_represents (list.off % pageSize pageShift)
              (list.data.take (chunkAmt pageShift list.off list.amt))
              pageRepresents
          dsimp only at run ⊢
          rw [stores]
          have smaller :
              list.amt - chunkAmt pageShift list.off list.amt < amt := by
            have room :
                list.off % pageSize pageShift < pageSize pageShift :=
              Nat.mod_lt _ (Nat.two_pow_pos pageShift)
            rw [chunkAmt]
            omega
          refine inductionHypothesis _ smaller (before ++ [pg]) rfl ?_ run
          exact
            { stash :=
                { storedRepresents with
                  size := by
                    dsimp only
                    rw [storedRepresents.size] }
              off := rfl
              amt := rfl
              written := by
                dsimp only
                rw [represents.written]
              data := rfl }

theorem memoryWrite_represents
    (allocator : Allocator head) {copy : Nat → UserCopy}
    {fresh : Nat → Page pageShift} {buffer : WriteBuffer} {off : Nat}
    {result : WriteResult pageShift}
    (represents : Represents head nodes memory stash)
    (run : crashstashWrite copy fresh buffer off stash = .ok result) :
    ∃ later lastNodes,
      memoryWrite allocator copy fresh buffer off memory =
          .ok ⟨later, result.off, result.value⟩ ∧
        Represents head lastNodes later result.stash := by
  rw [crashstashWrite] at run
  rw [memoryWrite, represents.size]
  by_cases elsewhere : off ≠ stash.size
  · rw [if_pos elsewhere] at run ⊢
    cases run
    exact ⟨memory, nodes, rfl, represents⟩
  rw [if_neg elsewhere] at run ⊢
  by_cases full : maxSize ≤ stash.size
  · rw [if_pos full] at run ⊢
    cases run
    exact ⟨memory, nodes, rfl, represents⟩
  rw [if_neg full] at run ⊢
  cases loops :
      writeLoop copy fresh 0
        { stash := stash
          off := off
          amt := writeAmount stash buffer.data.length
          written := 0
          data := buffer.data } with
  | error fault =>
      rw [loops] at run
      cases run
  | ok last =>
      rw [loops] at run
      cases run
      have start :
          WriteRepresents head nodes
            { memory := memory
              off := off
              amt := writeAmount stash buffer.data.length
              written := 0
              data := buffer.data }
            { stash := stash
              off := off
              amt := writeAmount stash buffer.data.length
              written := 0
              data := buffer.data } :=
        ⟨represents, rfl, rfl, rfl, rfl⟩
      obtain ⟨later, lastNodes, runs, ends⟩ :=
        memoryWriteLoop_represents allocator copy fresh nodes start loops
      refine ⟨later.memory, lastNodes, ?_, ends.stash⟩
      rw [writeAmount] at runs
      dsimp only
      rw [runs, ← ends.off, ← ends.written]
      rfl

/-! ## Reading -/

/-- Seeking on the ring comes to the page that the list gives. -/
theorem memorySeek_eq
    {links : Links Nat} (content : Nat → Page pageShift) {head : Nat} :
    ∀ (left right : List Nat) (pgnum : Nat),
      links.Ring head (left ++ right) →
        ∃ before after,
          left ++ right = before ++ after ∧
            memorySeek links head (right.head?.getD head) pgnum =
              after.head?.getD head ∧
            seekPage (right.map content) pgnum = after.map content
  | left, [], pgnum, ring => by
      refine ⟨left, [], rfl, ?_, ?_⟩
      · cases pgnum with
        | zero => rfl
        | succ pgnum => exact if_pos rfl
      · cases pgnum <;> rfl
  | left, node :: rest, 0, ring => ⟨left, node :: rest, rfl, rfl, rfl⟩
  | left, node :: rest, pgnum + 1, ring => by
      have distinct : node ≠ head := by
        intro same
        apply (List.nodup_cons.mp ring.nodup).1
        rw [← same]
        exact List.mem_append_right _ List.mem_cons_self
      have onward := ring.next_node
      have shifted : left ++ node :: rest = (left ++ [node]) ++ rest := by
        rw [List.append_assoc, List.singleton_append]
      rw [shifted] at ring
      obtain ⟨before, after, split, seeks, sought⟩ :=
        memorySeek_eq content (left ++ [node]) rest pgnum ring
      refine ⟨before, after, shifted.trans split, ?_, sought⟩
      rw [List.head?_cons, Option.getD_some, memorySeek, if_neg distinct, onward,
        seeks]

/-- The locals of a read on the pointers and on the list: the cursor is the rest
of the ring. -/
structure ReadRepresents (head : Nat) (memory : Memory pageShift)
    (left right : List Nat) (pointers : MemoryRead)
    (list : ReadLocals pageShift) : Prop where
  ring : memory.links.Ring head (left ++ right)
  owned : memory.owned.Perm (left ++ right)
  pg : pointers.pg = right.head?.getD head
  cursor : list.cursor = right.map memory.content
  off : pointers.off = list.off
  amt : pointers.amt = list.amt
  read : pointers.read = list.read
  data : pointers.data = list.data
  sources : pointers.sources = list.sources

theorem memoryReadLoop_represents (copy : Nat → UserCopy) :
    ∀ (right left : List Nat) {k : Nat} {list last : ReadLocals pageShift}
      {pointers : MemoryRead},
      ReadRepresents head memory left right pointers list →
        readLoop copy k list = .ok last →
          ∃ later,
            memoryReadLoop memory copy k pointers = .ok later ∧
              later.off = last.off ∧ later.read = last.read ∧
              later.data = last.data ∧ later.sources = last.sources := by
  intro right
  induction right with
  | nil =>
      intro left k list last pointers represents run
      rw [readLoop, represents.cursor] at run
      rw [memoryReadLoop, represents.amt]
      by_cases finished : list.amt = 0
      · rw [if_pos finished] at run ⊢
        cases run
        exact
          ⟨pointers, rfl, represents.off, represents.read, represents.data,
            represents.sources⟩
      · rw [if_neg finished] at run
        cases run
  | cons node rest inductionHypothesis =>
      intro left k list last pointers represents run
      rw [readLoop, represents.cursor] at run
      rw [memoryReadLoop, represents.amt]
      by_cases finished : list.amt = 0
      · rw [if_pos finished] at run ⊢
        cases run
        exact
          ⟨pointers, rfl, represents.off, represents.read, represents.data,
            represents.sources⟩
      have here : pointers.pg = node := represents.pg
      have mine : node ∈ memory.owned :=
        represents.owned.mem_iff.mpr
          (List.mem_append_right _ List.mem_cons_self)
      rw [if_neg finished] at run ⊢
      dsimp only [List.map_cons] at run ⊢
      rw [here, if_pos mine, represents.off, represents.sources,
        represents.data, represents.read]
      cases copies : copy k with
      | fault torn =>
          rw [copies] at run
          cases run
          exact ⟨_, rfl, rfl, rfl, rfl, rfl⟩
      | complete =>
          rw [copies] at run
          have shifted : left ++ node :: rest = (left ++ [node]) ++ rest := by
            rw [List.append_assoc, List.singleton_append]
          refine inductionHypothesis (left ++ [node]) ?_ run
          exact
            { ring := shifted ▸ represents.ring
              owned := shifted ▸ represents.owned
              pg := represents.ring.next_node
              cursor := rfl
              off := rfl
              amt := rfl
              read := rfl
              data := rfl
              sources := rfl }

theorem memoryRead_represents
    {copy : Nat → UserCopy} {amt off : Nat} {last : ReadLocals pageShift}
    (represents : Represents head nodes memory stash)
    (run : crashstashRead copy amt off stash = .ok last) :
    ∃ later,
      memoryRead head memory copy amt off = .ok later ∧
        later.off = last.off ∧ later.read = last.read ∧
        later.data = last.data ∧ later.sources = last.sources := by
  obtain ⟨before, after, split, seeks, sought⟩ :=
    memorySeek_eq memory.content [] nodes (off / pageSize pageShift)
      represents.ring
  rw [List.nil_append] at split
  rw [crashstashRead, represents.crashstash, sought, readAmount] at run
  rw [memoryRead, represents.size, represents.ring.next_head, seeks]
  refine
    memoryReadLoop_represents copy after before
      (?_ : ReadRepresents head memory before after _ _) run
  exact
    { ring := split ▸ represents.ring
      owned := split ▸ represents.owned
      pg := rfl
      cursor := rfl
      off := rfl
      amt := rfl
      read := rfl
      data := rfl
      sources := rfl }

end Operations

/-! ## Calls and runs -/

structure Machine.Represents (head : Nat) (nodes : List Nat)
    (machine : Machine pageShift) (system : System pageShift) : Prop where
  memory : Crashstash.Represents head nodes machine.memory system.stash
  files : machine.files = system.files

theorem Machine.Represents.setFile
    {head : Nat} {nodes later : List Nat} {machine : Machine pageShift}
    {system : System pageShift} {memory : Memory pageShift}
    {stash : Stash pageShift}
    (represents : machine.Represents head nodes system)
    (next : Crashstash.Represents head later memory stash) (fd : Nat)
    (file : Option File) :
    (machine.setFile fd file memory).Represents head later
      (system.setFile fd file stash) where
  memory := next
  files := by
    change Function.update machine.files fd file = _
    rw [represents.files]
    rfl

/-- A call that the list answers is answered alike on the pointers. -/
theorem machineStep_represents
    {head : Nat} (allocator : Allocator head) (poison : Nat × Nat)
    {nodes : List Nat} {machine : Machine pageShift}
    {system next : System pageShift} {call : Call pageShift} {reply : Reply}
    (represents : machine.Represents head nodes system)
    (served : system.step call = .ok (next, reply)) :
    ∃ later lastNodes,
      machine.step allocator poison call = .ok (later, reply) ∧
        later.Represents head lastNodes next := by
  cases call with
  | openFile fd mode suppressed =>
      rw [System.step] at served
      rw [Machine.step, represents.files]
      cases here : system.files fd with
      | some file =>
          rw [here] at served
          cases served
          exact ⟨machine, nodes, rfl, represents⟩
      | none =>
          rw [here] at served
          cases served
          obtain ⟨opened, later, opens, openedRepresents⟩ :=
            memoryOpen_represents poison mode suppressed represents.memory
          dsimp only
          rw [opens]
          exact
            ⟨_, later, rfl, represents.setFile openedRepresents fd _⟩
  | write fd buffer copy fresh =>
      rw [System.step] at served
      rw [Machine.step, represents.files]
      cases here : system.files fd with
      | none =>
          rw [here] at served
          cases served
          exact ⟨machine, nodes, rfl, represents⟩
      | some file =>
          rw [here] at served
          dsimp only at served ⊢
          split at served
          · next writable =>
              rw [if_pos writable]
              cases writes :
                  crashstashWrite copy fresh buffer file.pos system.stash with
              | error fault =>
                  rw [writes] at served
                  cases served
              | ok result =>
                  rw [writes] at served
                  cases served
                  obtain ⟨later, lastNodes, runs, written⟩ :=
                    memoryWrite_represents allocator represents.memory writes
                  rw [runs]
                  exact
                    ⟨_, lastNodes, rfl, represents.setFile written fd _⟩
          · next unwritable =>
              rw [if_neg unwritable]
              cases served
              exact ⟨machine, nodes, rfl, represents⟩
  | read fd amt copy =>
      rw [System.step] at served
      rw [Machine.step, represents.files]
      cases here : system.files fd with
      | none =>
          rw [here] at served
          cases served
          exact ⟨machine, nodes, rfl, represents⟩
      | some file =>
          rw [here] at served
          dsimp only at served ⊢
          split at served
          · next readable =>
              rw [if_pos readable]
              cases reads :
                  crashstashRead copy amt.val file.pos system.stash with
              | error fault =>
                  rw [reads] at served
                  cases served
              | ok last =>
                  rw [reads] at served
                  cases served
                  obtain ⟨later, runs, off, read, data, sources⟩ :=
                    memoryRead_represents represents.memory reads
                  rw [runs]
                  refine
                    ⟨_, nodes, ?_, represents.setFile represents.memory fd _⟩
                  rw [← off, ← read, ← data, ← sources]
                  rfl
          · next unreadable =>
              rw [if_neg unreadable]
              cases served
              exact ⟨machine, nodes, rfl, represents⟩
  | release fd =>
      rw [System.step] at served
      rw [Machine.step, represents.files]
      cases here : system.files fd with
      | none =>
          rw [here] at served
          cases served
          exact ⟨machine, nodes, rfl, represents⟩
      | some file =>
          rw [here] at served
          dsimp only at served ⊢
          cases releases : crashstashRelease system.stash with
          | error fault =>
              rw [releases] at served
              cases served
          | ok result =>
              rw [releases] at served
              cases served
              obtain ⟨later, runs, released⟩ :=
                memoryRelease_represents represents.memory releases
              rw [runs]
              exact ⟨_, nodes, rfl, represents.setFile released fd _⟩

theorem machineServe_represents
    {head : Nat} (allocator : Allocator head) (poison : Nat × Nat) :
    ∀ (calls : List (Call pageShift)) {nodes : List Nat}
      {machine : Machine pageShift} {system last : System pageShift}
      {replies : List Reply},
      machine.Represents head nodes system →
        serve System.step system calls = .ok (last, replies) →
          ∃ later lastNodes,
            serve (Machine.step allocator poison) machine calls =
                .ok (later, replies) ∧
              later.Represents head lastNodes last
  | [], nodes, machine, system, last, replies, represents, run => by
      cases run
      exact ⟨machine, nodes, rfl, represents⟩
  | call :: rest, nodes, machine, system, last, replies, represents, run => by
      obtain ⟨next, reply, others, served, onward, is⟩ := serve_cons_inv run
      subst is
      obtain ⟨middle, between, runs, middleRepresents⟩ :=
        machineStep_represents allocator poison represents served
      obtain ⟨later, lastNodes, runsOn, lastRepresents⟩ :=
        machineServe_represents allocator poison rest middleRepresents onward
      exact ⟨later, lastNodes, serve_cons runs runsOn, lastRepresents⟩

theorem machineInitial_represents
    (head : Nat) (links : Links Nat) (content : Nat → Page pageShift)
    (log : List LogRecord) :
    (Machine.initial pageShift head links content log).Represents head []
      (System.initial pageShift log) where
  memory :=
    { ring := links.initHead_ring head
      owned := List.Perm.nil
      crashstash := rfl
      count := rfl
      size := rfl
      pages := rfl
      log := rfl }
  files := rfl

/-- Every list of calls runs on the pointers as on the list. -/
theorem exists_machineServe
    {head : Nat} (allocator : Allocator head) (poison : Nat × Nat)
    (links : Links Nat) (content : Nat → Page pageShift)
    (log : List LogRecord) (calls : List (Call pageShift)) :
    ∃ machine system replies nodes,
      serve (Machine.step allocator poison)
          (Machine.initial pageShift head links content log) calls =
        .ok (machine, replies) ∧
      serve System.step (System.initial pageShift log) calls =
        .ok (system, replies) ∧
      machine.Represents head nodes system ∧ system.Sound := by
  have answers : ∀ (system : System pageShift) (call : Call pageShift),
      system.Sound →
        ∃ next reply, system.step call = .ok (next, reply) ∧ next.Sound := by
    intro system call sound
    obtain ⟨next, reply, served, serves⟩ := System.step_serves sound call
    exact ⟨next, reply, served, serves.sound sound⟩
  obtain ⟨system, replies, run, sound⟩ :=
    serve_total System.Sound answers calls (System.initial_sound log)
  obtain ⟨machine, nodes, runs, represents⟩ :=
    machineServe_represents allocator poison calls
      (machineInitial_represents head links content log) run
  exact ⟨machine, system, replies, nodes, runs, run, represents, sound⟩

/-- The pages of a sound system are counted by `pages`. -/
theorem Machine.Represents.length_eq
    {head : Nat} {nodes : List Nat} {machine : Machine pageShift}
    {system : System pageShift} (represents : machine.Represents head nodes system)
    (sound : system.Sound) : nodes.length = machine.memory.pages := by
  rw [represents.memory.pages, ← sound.backed.entries,
    represents.memory.crashstash, List.length_map]

/-- However the module is called, and whichever pages it is given, as long as
`alloc_page` does give it one: the calls on the pointers run without a fault and
answer as those on the list, the pages that it has are those of its ring, `pages` in
number, and `crashstash_exit` frees them all. -/
theorem crashstash_pages
    {head : Nat} (allocator : Allocator head) (poison : Nat × Nat)
    (links : Links Nat) (content : Nat → Page pageShift)
    (log : List LogRecord) (calls : List (Call pageShift)) :
    ∃ machine system replies nodes last,
      serve (Machine.step allocator poison)
          (Machine.initial pageShift head links content log) calls =
        .ok (machine, replies) ∧
      serve System.step (System.initial pageShift log) calls =
        .ok (system, replies) ∧
      machine.Represents head nodes system ∧
      machine.memory.owned.length = machine.memory.pages ∧
      memoryExit head poison machine.memory = .ok last ∧
      last.owned = [] ∧ last.links.Ring head [] := by
  obtain ⟨machine, system, replies, nodes, runs, run, represents, sound⟩ :=
    exists_machineServe allocator poison links content log calls
  obtain ⟨freed, frees, empty⟩ :=
    memoryFree_represents poison represents.memory
  have number : machine.memory.owned.length = machine.memory.pages := by
    rw [represents.memory.owned.length_eq, represents.length_eq sound]
  exact
    ⟨machine, system, replies, nodes, freed, runs, run, represents, number,
      frees, empty.owned.eq_nil, empty.ring⟩

end KernelStuff.Crashstash
