import LowFlow.Memory.Regions

/-!
# What an arena has allocated

At any time an arena has allocated the blocks of its chain with their areas, and
nothing else, also when a caller puts blocks at the ends of the chain itself
(`allocated_in_chain`). So `lf_dealloc_arena`, which frees the chain, gives back
everything, and a second call frees a block again (`dealloc_gives_back`).
-/

set_option autoImplicit false

namespace LowFlow

open Library

variable {β : Type}

/-! ## Freeing an arena -/

/-- The loop of `lf_dealloc_arena` from a block on. -/
def deallocBlocks : ℕ → Option BlockPtr → Heap β → Option (Heap β)
  | _, none, heap => some heap
  | 0, some _, _ => none
  | fuel + 1, some curBlock, heap => do
      let nextBlock := (← heap.block curBlock).next
      let heap ← heap.free curBlock
      deallocBlocks fuel nextBlock heap

/-- The pointers of the arena are left as they are. -/
def lfDeallocArena (arena : Arena β) : Option (Arena β) := do
  let heap ← deallocBlocks arena.heap.serial arena.headBlock arena.heap
  some { arena with heap }

/-! ## Operations on the chain -/

/-- What can be done with an arena when a caller also puts blocks at the ends of its chain. -/
inductive ChainOp where
  | arena (op : ArenaOp)
  | allocHeadBlock
  | allocTailBlock

/-- One operation. A new block hands out no region. -/
def chainStep : ChainOp → Traced β → Option (Option Ptr × Traced β)
  | .arena op, t => arenaStep op t
  | .allocHeadBlock, t => do
      let (_, arena) ← lfAllocArenaHeadBlock t.arena
      some (none, { t with arena })
  | .allocTailBlock, t => do
      let (_, arena) ← lfAllocArenaTailBlock t.arena
      some (none, { t with arena })

/-! ## What is allocated -/

/-- The blocks with the places of their areas. -/
def Deck.places (deck : Deck β) : List (BlockPtr × ℕ × ℕ) :=
  deck.map fun entry => (entry.1, entry.2.data.place)

/-- These blocks are allocated, with areas at these places, and no others. -/
structure Heap.Has (heap : Heap β) (places : List (BlockPtr × ℕ × ℕ)) : Prop where
  blocks : ∀ p, heap.block p ≠ none ↔ p ∈ places.map Prod.fst
  areas : heap.areas.Perm (places.map Prod.snd)

namespace Heap.Has

variable {heap heap' : Heap β} {places places' : List (BlockPtr × ℕ × ℕ)} {p : BlockPtr}

theorem perm (has : heap.Has places) (same : places.Perm places') : heap.Has places' where
  blocks := fun p => (has.blocks p).trans (same.map Prod.fst).mem_iff
  areas := has.areas.trans (same.map Prod.snd)

/-- Writing to a header allocates and frees nothing. -/
theorem modify {f : MemBlock β → MemBlock β} (has : heap.Has places)
    (modified : heap.modify p f = some heap') : heap'.Has places := by
  obtain ⟨b, found, rfl⟩ := Option.map_eq_some_iff.mp modified
  refine ⟨?_, has.areas⟩
  intro q
  rw [← has.blocks q]
  by_cases same : q = p
  · simp [same, found]
  · simp [same]

/-- A header and an area are allocated for a new block. -/
theorem mallocBlock (has : heap.Has places) (n : ℕ) :
    (heap.mallocHeader.2.mallocArea n).2.Has
      ((heap.serial, (heap.nextArea n).place) :: places) := by
  obtain ⟨block, -, areas, -⟩ := heap.mallocBlock_spec n
  refine ⟨?_, ?_⟩
  · intro q
    rw [block, List.map_cons, List.mem_cons, ← has.blocks q]
    by_cases same : q = heap.serial
    · simp [same]
    · simp [same]
  · rw [areas]
    exact has.areas.cons _

/-- The block and its area are freed. -/
theorem free {b : MemBlock β} (has : heap.Has ((p, b.data.place) :: places))
    (found : heap.block p = some b) (once : p ∉ places.map Prod.fst)
    (freed : heap.free p = some heap') : heap'.Has places := by
  obtain ⟨heap'', freed', block, -, areas, -⟩ := Heap.free_spec found
  obtain rfl := Option.some.inj (freed.symm.trans freed')
  refine ⟨?_, ?_⟩
  · intro q
    rw [block]
    by_cases same : q = p
    · simp [same, once]
    · simpa [same] using has.blocks q
  · rw [areas]
    simpa using has.areas.erase b.data.place

end Heap.Has

/-! ## The operations -/

section Operations

variable {arena arena' : Arena β} {deck deck' : Deck β} {places : List (BlockPtr × ℕ × ℕ)}
  {size : ℕ} {p : BlockPtr}

theorem lfAllocArenaHeadBlock_has (has : arena.heap.Has places)
    (alloc : lfAllocArenaHeadBlock arena = some (p, arena')) :
    arena'.heap.Has
      ((arena.heap.serial, (arena.heap.nextArea arena.blockSize).place) :: places) := by
  have new := has.mallocBlock arena.blockSize
  by_cases zero : arena.blockSize = 0
  · simp [lfAllocArenaHeadBlock, zero] at alloc
  · cases head : arena.headBlock with
    | none =>
        simp only [lfAllocArenaHeadBlock, zero, head, ↓reduceIte, Option.bind_eq_bind,
          Option.bind_some, Option.bind_eq_some_iff, Option.some.injEq, Prod.mk.injEq] at alloc
        obtain ⟨heap, filled, -, rfl⟩ := alloc
        exact new.modify filled
    | some old =>
        simp only [lfAllocArenaHeadBlock, zero, head, ↓reduceIte, Option.bind_eq_bind,
          Option.bind_eq_some_iff, Option.some.injEq, Prod.mk.injEq] at alloc
        obtain ⟨linked, relinked, heap, filled, -, rfl⟩ := alloc
        exact (new.modify relinked).modify filled

theorem lfAllocArenaTailBlock_has (has : arena.heap.Has places)
    (alloc : lfAllocArenaTailBlock arena = some (p, arena')) :
    arena'.heap.Has
      ((arena.heap.serial, (arena.heap.nextArea arena.blockSize).place) :: places) := by
  have new := has.mallocBlock arena.blockSize
  by_cases zero : arena.blockSize = 0
  · simp [lfAllocArenaTailBlock, zero] at alloc
  · cases tail : arena.tailBlock with
    | none =>
        simp only [lfAllocArenaTailBlock, zero, tail, ↓reduceIte, Option.bind_eq_bind,
          Option.bind_some, Option.bind_eq_some_iff, Option.some.injEq, Prod.mk.injEq] at alloc
        obtain ⟨heap, filled, -, rfl⟩ := alloc
        exact new.modify filled
    | some old =>
        simp only [lfAllocArenaTailBlock, zero, tail, ↓reduceIte, Option.bind_eq_bind,
          Option.bind_eq_some_iff, Option.some.injEq, Prod.mk.injEq] at alloc
        obtain ⟨linked, relinked, heap, filled, -, rfl⟩ := alloc
        exact (new.modify relinked).modify filled

theorem resetBlocks_has {fuel : ℕ} {first : Option BlockPtr} {heap heap' : Heap β}
    (has : heap.Has places) (walked : resetBlocks arena fuel first heap = some heap') :
    heap'.Has places := by
  induction fuel generalizing first heap with
  | zero =>
      cases first with
      | none => exact Option.some.inj walked ▸ has
      | some p => cases walked
  | succ fuel ih =>
      cases first with
      | none => exact Option.some.inj walked ▸ has
      | some p =>
          simp only [resetBlocks, Option.bind_eq_bind, Option.bind_eq_some_iff] at walked
          obtain ⟨b, -, heap₁, restarted, onward⟩ := walked
          exact ih (has.modify restarted) onward

/-- An arena has allocated what it represents. -/
def Arena.Accounted (arena : Arena β) (deck : Deck β) : Prop :=
  Represents arena deck ∧ arena.heap.Has deck.places

/-- The place of a block at the tail comes last. -/
theorem Deck.places_concat (deck : Deck β) (p : BlockPtr) (b : Slab β) :
    ((p, b.data.place) :: deck.places).Perm (Deck.places (deck ++ [(p, b)])) := by
  rw [places, places, List.map_append]
  exact (List.perm_append_singleton ..).symm

namespace Arena.Accounted

/-- A new block at the head. -/
theorem allocHeadBlock (accounted : arena.Accounted deck)
    (alloc : lfAllocArenaHeadBlock arena = some (p, arena')) :
    ∃ deck', arena'.Accounted deck' := by
  obtain ⟨rep, has⟩ := accounted
  obtain ⟨arena'', alloc', rep', -⟩ := rep.allocHeadBlock
  obtain ⟨-, rfl⟩ := Prod.mk.inj (Option.some.inj (alloc.symm.trans alloc'))
  exact ⟨_, rep', lfAllocArenaHeadBlock_has has alloc⟩

/-- A new block at the tail. -/
theorem allocTailBlock (accounted : arena.Accounted deck)
    (alloc : lfAllocArenaTailBlock arena = some (p, arena')) :
    ∃ deck', arena'.Accounted deck' := by
  obtain ⟨rep, has⟩ := accounted
  obtain ⟨arena'', alloc', rep', -⟩ := rep.allocTailBlock
  obtain ⟨-, rfl⟩ := Prod.mk.inj (Option.some.inj (alloc.symm.trans alloc'))
  exact ⟨_, rep', (lfAllocArenaTailBlock_has has alloc).perm
    (Deck.places_concat deck _ ⟨_, _, _, _⟩)⟩

/-- An allocation at the head. -/
theorem allocAtHead (accounted : arena.Accounted deck) {ptr : Ptr}
    (alloc : lfArenaAllocAtHead arena size = some (ptr, arena')) :
    ∃ deck', arena'.Accounted deck' := by
  obtain ⟨rep, has⟩ := accounted
  obtain ⟨positive, bound, deck', change, rep', -⟩ := rep.of_allocAtHead alloc
  refine ⟨deck', rep', ?_⟩
  have accepted : ¬ (size = 0 ∨ arena.blockSize < size) := by omega
  cases change with
  | @fits p b rest room =>
      obtain ⟨node, found, rfl⟩ := rep.lookup (p := p) (b := b) (by simp)
      have roomy : ¬ node.leftOffset < size := Nat.not_lt.mpr room
      simp only [lfArenaAllocAtHead, accepted, rep.head_eq, found, roomy, ↓reduceIte,
        Option.bind_eq_bind, Option.bind_some, Option.bind_eq_some_iff, Option.some.injEq,
        Prod.mk.injEq] at alloc
      obtain ⟨heap, lowered, -, rfl⟩ := alloc
      exact has.modify lowered
  | @opens p b rest full =>
      obtain ⟨node, found, rfl⟩ := rep.lookup (p := p) (b := b) (by simp)
      simp only [lfArenaAllocAtHead, accepted, rep.head_eq, found, full, ↓reduceIte,
        Option.bind_eq_bind, Option.bind_some, Option.bind_eq_some_iff, Option.some.injEq,
        Prod.mk.injEq] at alloc
      obtain ⟨⟨q, opened⟩, isOpened, new, -, heap, lowered, -, rfl⟩ := alloc
      exact (lfAllocArenaHeadBlock_has has isOpened).modify lowered

/-- An allocation at the tail. -/
theorem allocAtTail (accounted : arena.Accounted deck) {ptr : Ptr}
    (alloc : lfArenaAllocAtTail arena size = some (ptr, arena')) :
    ∃ deck', arena'.Accounted deck' := by
  obtain ⟨rep, has⟩ := accounted
  obtain ⟨positive, bound, deck', change, rep', -⟩ := rep.of_allocAtTail alloc
  refine ⟨deck', rep', ?_⟩
  have accepted : ¬ (size = 0 ∨ arena.blockSize < size) := by omega
  cases change with
  | @fits p b front room =>
      obtain ⟨node, found, rfl⟩ := rep.lookup (p := p) (b := b) (by simp)
      have roomy : ¬ sizeSub node.size node.rightOffset < size := Nat.not_lt.mpr room
      simp only [lfArenaAllocAtTail, accepted, rep.tail_eq, found, roomy, ↓reduceIte,
        Option.bind_eq_bind, Option.bind_some, Option.bind_eq_some_iff, Option.some.injEq,
        Prod.mk.injEq] at alloc
      obtain ⟨heap, raised, -, rfl⟩ := alloc
      simpa [Deck.places] using has.modify raised
  | @opens p b front full =>
      obtain ⟨node, found, rfl⟩ := rep.lookup (p := p) (b := b) (by simp)
      simp only [lfArenaAllocAtTail, accepted, rep.tail_eq, found, full, ↓reduceIte,
        Option.bind_eq_bind, Option.bind_some, Option.bind_eq_some_iff, Option.some.injEq,
        Prod.mk.injEq] at alloc
      obtain ⟨⟨q, opened⟩, isOpened, new, -, heap, raised, -, rfl⟩ := alloc
      have added := (lfAllocArenaTailBlock_has has isOpened).modify raised
      exact added.perm (Deck.places_concat _ _ ⟨_, _, _, _⟩)

/-- Freeing the head block. -/
theorem deallocHead (accounted : arena.Accounted deck) {q : Option BlockPtr}
    (dealloc : lfDeallocArenaHeadBlock arena = some (q, arena')) :
    ∃ deck', arena'.Accounted deck' := by
  obtain ⟨rep, has⟩ := accounted
  obtain ⟨⟨p, b⟩, rest, rfl⟩ := List.exists_cons_of_ne_nil rep.nonempty
  cases rest with
  | nil =>
      rw [rep.deallocHead_single, Option.some.injEq, Prod.mk.injEq] at dealloc
      obtain ⟨-, rfl⟩ := dealloc
      exact ⟨_, rep, has⟩
  | cons next rest =>
      obtain ⟨q, c⟩ := next
      obtain ⟨arena'', dealloc', rep', -⟩ := rep.deallocHead
      obtain ⟨-, rfl⟩ := Prod.mk.inj (Option.some.inj (dealloc.symm.trans dealloc'))
      refine ⟨_, rep', ?_⟩
      have several : ¬ arena.blockCount ≤ 1 := by simp [rep.count]
      have once := (List.nodup_cons.mp rep.distinct).1
      obtain ⟨-, node, found, rfl, back, onward⟩ := rep.chain
      have back' : node.prev = none := back
      have next' : node.next = some q := onward.1
      simp only [lfDeallocArenaHeadBlock, lfDeallocArenaBlock, several, rep.head_eq, found, back',
        next', ↓reduceIte, Option.bind_eq_bind, Option.bind_some, Option.bind_eq_some_iff,
        Option.some.injEq, Prod.mk.injEq] at dealloc
      obtain ⟨-, ⟨linked, relinked, heap, freed, rfl⟩, -, rfl⟩ := dealloc
      have kept := has.modify relinked
      have there : linked.block p = some node := by
        obtain ⟨c', -, rfl⟩ := Option.map_eq_some_iff.mp relinked
        have apart : p ≠ q := fun same => once (by simp [same])
        simpa [apart] using found
      exact kept.free there (by simpa [Deck.places, Function.comp_def] using once) freed

/-- Freeing the tail block. -/
theorem deallocTail (accounted : arena.Accounted deck) {q : Option BlockPtr}
    (dealloc : lfDeallocArenaTailBlock arena = some (q, arena')) :
    ∃ deck', arena'.Accounted deck' := by
  obtain ⟨rep, has⟩ := accounted
  obtain ⟨front, ⟨p, b⟩, rfl⟩ := List.eq_nil_or_concat' deck |>.resolve_left rep.nonempty
  rcases List.eq_nil_or_concat' front with rfl | ⟨front, ⟨q, c⟩, rfl⟩
  · rw [Represents.deallocTail_single rep, Option.some.injEq, Prod.mk.injEq] at dealloc
    obtain ⟨-, rfl⟩ := dealloc
    exact ⟨_, rep, has⟩
  · obtain ⟨arena'', dealloc', rep', -⟩ := rep.deallocTail
    obtain ⟨-, rfl⟩ := Prod.mk.inj (Option.some.inj (dealloc.symm.trans dealloc'))
    refine ⟨_, rep', ?_⟩
    have several : ¬ arena.blockCount ≤ 1 := by simp [rep.count]
    have once : p ∉ ptrs (front ++ [(q, c)]) := by
      have distinct := rep.distinct
      rw [ptrs, List.map_append] at distinct
      exact fun member => List.disjoint_of_nodup_append distinct member (by simp)
    obtain ⟨-, -, -, node, found, rfl, back, after⟩ := segment_append.mp rep.chain
    have back' : node.prev = some q := back.trans (lastPtr_concat _ _ _)
    have after' : node.next = none := after
    simp only [lfDeallocArenaTailBlock, lfDeallocArenaBlock, several, rep.tail_eq, found, back',
      after', ↓reduceIte, Option.bind_eq_bind, Option.bind_some, Option.bind_eq_some_iff,
      Option.some.injEq, Prod.mk.injEq] at dealloc
    obtain ⟨-, ⟨linked, relinked, heap, freed, rfl⟩, -, rfl⟩ := dealloc
    have kept := (has.perm (Deck.places_concat ..).symm).modify relinked
    have there : linked.block p = some node := by
      obtain ⟨c', -, rfl⟩ := Option.map_eq_some_iff.mp relinked
      have apart : p ≠ q := fun same => once (by simp [same])
      simpa [apart] using found
    exact kept.free there (by simpa [Deck.places, Function.comp_def] using once) freed

/-- A reset allocates and frees nothing. -/
theorem reset (accounted : arena.Accounted deck) (reset : lfResetArena arena = some arena') :
    ∃ deck', arena'.Accounted deck' := by
  obtain ⟨rep, has⟩ := accounted
  obtain ⟨arena'', reset', rep', -⟩ := rep.reset
  obtain rfl := Option.some.inj (reset.symm.trans reset')
  refine ⟨_, rep', ?_⟩
  have same : (deck.restart (startOffset arena.blockOffset arena.blockSize)).places =
      deck.places := by
    simp [Deck.places, Deck.restart, Slab.restart]
  rw [same]
  simp only [lfResetArena, Option.bind_eq_bind, Option.bind_eq_some_iff, Option.some.injEq] at reset
  obtain ⟨heap, walked, rfl⟩ := reset
  exact resetBlocks_has has walked

/-- A new arena has allocated its block. -/
theorem init {malloc : Allocator β} {blockSize : ℕ} {strategy : MemBlockOffset} {start : Arena β}
    (init : lfInitArena (Arena.declared malloc blockSize strategy) = some start) :
    ∃ deck, start.Accounted deck := by
  have positive := lfInitArena_accepts init
  obtain ⟨start', init', rep, -⟩ := lfInitArena_spec _ positive
  obtain rfl := Option.some.inj (init.symm.trans init')
  refine ⟨_, rep, ?_⟩
  simp only [lfInitArena, Option.bind_eq_bind, Option.bind_eq_some_iff, Option.some.injEq] at init
  obtain ⟨⟨p, opened⟩, isOpened, heap, placed, rfl⟩ := init
  have nothing : (Heap.empty malloc).Has [] := ⟨by simp [Heap.empty], .nil⟩
  exact (lfAllocArenaHeadBlock_has nothing isOpened).modify placed

/-- One operation on the arena. -/
theorem of_arenaStep {t t' : Traced β} (accounted : t.arena.Accounted deck) {op : ArenaOp}
    {answer : Option Ptr} (taken : arenaStep op t = some (answer, t')) :
    ∃ deck', t'.arena.Accounted deck' := by
  cases op with
  | allocAtHead size =>
      obtain ⟨⟨ptr, arena'⟩, alloc, made⟩ := Option.bind_eq_some_iff.mp taken
      cases made
      exact accounted.allocAtHead alloc
  | allocAtTail size =>
      obtain ⟨⟨ptr, arena'⟩, alloc, made⟩ := Option.bind_eq_some_iff.mp taken
      cases made
      exact accounted.allocAtTail alloc
  | deallocHeadBlock =>
      obtain ⟨⟨q, arena'⟩, dealloc, made⟩ := Option.bind_eq_some_iff.mp taken
      cases made
      exact accounted.deallocHead dealloc
  | deallocTailBlock =>
      obtain ⟨⟨q, arena'⟩, dealloc, made⟩ := Option.bind_eq_some_iff.mp taken
      cases made
      exact accounted.deallocTail dealloc
  | reset =>
      obtain ⟨arena', reset, made⟩ := Option.bind_eq_some_iff.mp taken
      cases made
      exact accounted.reset reset

/-- **One operation.** -/
theorem step {t t' : Traced β} (accounted : t.arena.Accounted deck) {op : ChainOp}
    {answer : Option Ptr} (taken : chainStep op t = some (answer, t')) :
    ∃ deck', t'.arena.Accounted deck' := by
  cases op with
  | arena op => exact accounted.of_arenaStep taken
  | allocHeadBlock =>
      obtain ⟨⟨p, arena'⟩, alloc, made⟩ := Option.bind_eq_some_iff.mp taken
      cases made
      exact accounted.allocHeadBlock alloc
  | allocTailBlock =>
      obtain ⟨⟨p, arena'⟩, alloc, made⟩ := Option.bind_eq_some_iff.mp taken
      cases made
      exact accounted.allocTailBlock alloc

end Arena.Accounted

end Operations

/-! ## Every run -/

section Runs

variable {malloc : Allocator β} {blockSize : ℕ} {strategy : MemBlockOffset} {start : Arena β}
  {ops : List ChainOp} {answers : List (Option Ptr)} {t : Traced β}

/-- Operations on a new arena keep the account. -/
theorem Arena.Accounted.of_run
    (init : lfInitArena (Arena.declared malloc blockSize strategy) = some start)
    (runs : run chainStep ops ⟨start, []⟩ = some (answers, t)) :
    ∃ deck, t.arena.Accounted deck := by
  refine run_invariant (fun t : Traced β => ∃ deck, t.arena.Accounted deck) ?_
    (Arena.Accounted.init init) runs
  rintro op t answer t' ⟨deck, accounted⟩ taken
  exact accounted.step taken

/-- **Nothing leaks.** After any operations on a new arena, the blocks that are allocated
are those of its chain, and the areas that are allocated are theirs. -/
theorem allocated_in_chain
    (init : lfInitArena (Arena.declared malloc blockSize strategy) = some start)
    (runs : run chainStep ops ⟨start, []⟩ = some (answers, t)) :
    ∃ deck, Represents t.arena deck ∧ (∀ p, t.arena.heap.block p ≠ none ↔ p ∈ ptrs deck) ∧
      t.arena.heap.areas.Perm (deck.map fun entry => entry.2.data.place) := by
  obtain ⟨deck, rep, has⟩ := Arena.Accounted.of_run init runs
  refine ⟨deck, rep, ?_, ?_⟩
  · simpa [Deck.places, Function.comp_def] using has.blocks
  · simpa [Deck.places, Function.comp_def] using has.areas

/-- Operations on an arena of eight bytes a block, one of which frees a block, with a new
block at the head. -/
theorem exists_run_eight : ∃ (start : Arena UInt8) (answers : List (Option Ptr))
    (t : Traced UInt8), lfInitArena (Arena.declared (Allocator.bump 0) 8 .middle) = some start ∧
      run chainStep [.arena (.allocAtHead 3), .arena (.allocAtTail 4), .arena (.allocAtTail 1),
        .arena .deallocHeadBlock, .allocHeadBlock] ⟨start, []⟩ = some (answers, t) ∧
      t.arena.blockCount = 2 := by
  have ends : ((lfInitArena (Arena.declared (Allocator.bump (0 : UInt8)) 8 .middle)).bind
      fun start => (run chainStep [.arena (.allocAtHead 3), .arena (.allocAtTail 4),
        .arena (.allocAtTail 1), .arena .deallocHeadBlock, .allocHeadBlock] ⟨start, []⟩).map
          fun result => result.2.arena.blockCount) = some 2 := by
    decide +kernel
  obtain ⟨start, init, ends⟩ := Option.bind_eq_some_iff.mp ends
  obtain ⟨⟨answers, t⟩, runs, two⟩ := Option.map_eq_some_iff.mp ends
  exact ⟨start, answers, t, init, runs, two⟩

theorem allocated_in_chain_eight : ∃ (t : Traced UInt8) (deck : Deck UInt8),
    t.arena.blockCount = 2 ∧ Represents t.arena deck ∧
      (∀ p, t.arena.heap.block p ≠ none ↔ p ∈ ptrs deck) ∧
      t.arena.heap.areas.Perm (deck.map fun entry => entry.2.data.place) := by
  obtain ⟨start, answers, t, init, runs, two⟩ := exists_run_eight
  obtain ⟨deck, result⟩ := allocated_in_chain init runs
  exact ⟨t, deck, two, result⟩

/-- The loop of `lf_dealloc_arena` frees the blocks of a chain. -/
theorem deallocBlocks_spec {heap : Heap β} {deck : Deck β} {before first : Option BlockPtr}
    {fuel : ℕ} (enough : deck.length ≤ fuel) (distinct : (ptrs deck).Nodup)
    (chain : Segment (blockView β) heap.block none before first deck)
    (has : heap.Has deck.places) :
    ∃ heap', deallocBlocks fuel first heap = some heap' ∧ heap'.Has [] := by
  induction deck generalizing heap before first fuel with
  | nil =>
      cases (chain : first = none)
      exact ⟨heap, by simp [deallocBlocks], has⟩
  | cons entry rest ih =>
      obtain ⟨p, b⟩ := entry
      obtain ⟨rfl, node, found, rfl, -, onward⟩ := chain
      obtain ⟨fuel, rfl⟩ := Nat.exists_eq_add_of_lt (Nat.lt_of_lt_of_le Nat.zero_lt_one
        (Nat.le_trans (Nat.le_add_left 1 rest.length) enough))
      obtain ⟨missing, distinct⟩ := List.nodup_cons.mp distinct
      obtain ⟨heap₁, freed, block₁, -⟩ := Heap.free_spec found
      have has₁ : heap₁.Has (Deck.places rest) :=
        has.free found (by simpa [Deck.places, Function.comp_def] using missing) freed
      have onward₁ : Segment (blockView β) heap₁.block none (some p) ((blockView β).next node)
          rest := onward.frame fun r member => by
        have other : r ≠ p := fun same => missing (same ▸ member)
        simp [block₁, other]
      obtain ⟨heap', walked, has'⟩ :=
        @ih heap₁ _ _ fuel (by simpa using enough) distinct onward₁ has₁
      refine ⟨heap', ?_, has'⟩
      simp only [Nat.zero_add, deallocBlocks, found, freed, Option.bind_eq_bind, Option.bind_some]
      exact walked

/-- **An arena gives back everything.** After any operations on a new arena,
`lf_dealloc_arena` frees all blocks and areas. A second call frees a block again. -/
theorem dealloc_gives_back
    (init : lfInitArena (Arena.declared malloc blockSize strategy) = some start)
    (runs : run chainStep ops ⟨start, []⟩ = some (answers, t)) :
    ∃ arena, lfDeallocArena t.arena = some arena ∧ (∀ p, arena.heap.block p = none) ∧
      arena.heap.areas = [] ∧ lfDeallocArena arena = none := by
  obtain ⟨deck, rep, has⟩ := Arena.Accounted.of_run init runs
  obtain ⟨heap, walked, has'⟩ := deallocBlocks_spec rep.length_le rep.distinct rep.chain has
  have nothing : ∀ p, heap.block p = none := by simpa using has'.blocks
  obtain ⟨⟨p, b⟩, rest, rfl⟩ := List.exists_cons_of_ne_nil rep.nonempty
  refine ⟨{ t.arena with heap }, by simp [lfDeallocArena, walked], nothing,
    List.perm_nil.mp has'.areas, ?_⟩
  simp only [lfDeallocArena, rep.head_eq]
  cases heap.serial <;> simp [deallocBlocks, nothing]

theorem dealloc_gives_back_eight : ∃ (t : Traced UInt8) (arena : Arena UInt8),
    t.arena.blockCount = 2 ∧ lfDeallocArena t.arena = some arena ∧
      (∀ p, arena.heap.block p = none) ∧ arena.heap.areas = [] ∧ lfDeallocArena arena = none := by
  obtain ⟨start, answers, t, init, runs, two⟩ := exists_run_eight
  obtain ⟨arena, result⟩ := dealloc_gives_back init runs
  exact ⟨t, arena, two, result⟩

end Runs

end LowFlow
