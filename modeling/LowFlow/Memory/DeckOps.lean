import LowFlow.Memory.Deck
import Mathlib.Data.List.Perm.Subperm

/-!
# What each arena function does to the deck
-/

set_option autoImplicit false

namespace LowFlow

open Library

variable {β : Type}

/-! ## Opening a block -/

/-- The area that the next `malloc` of `n` bytes after a header returns. -/
def Heap.nextArea (heap : Heap β) (n : ℕ) : Area β :=
  (heap.mallocHeader.2.mallocArea n).1

@[simp] theorem nextArea_extent (heap : Heap β) (n : ℕ) : (heap.nextArea n).extent = n := rfl

/-- A new area does not overlap those in use. -/
theorem nextArea_apart (heap : Heap β) (n : ℕ) :
    ∀ area ∈ heap.areas, Area.Apart (heap.nextArea n).place area :=
  heap.malloc.apart heap.areas n

theorem Represents.allocHeadBlock {arena : Arena β} {deck : Deck β}
    (rep : Represents arena deck) :
    ∃ arena', lfAllocArenaHeadBlock arena = some (arena.heap.serial, arena') ∧
      Represents arena' ((arena.heap.serial, ⟨arena.heap.nextArea arena.blockSize,
        arena.blockSize, arena.blockSize, arena.blockSize⟩) :: deck) ∧
      arena.Keeps arena' ∧ arena'.size = arena.size := by
  obtain ⟨⟨p, b⟩, rest, rfl⟩ := List.exists_cons_of_ne_nil rep.nonempty
  have below : p < arena.heap.serial := rep.known p (by simp)
  have unused : arena.heap.serial ∉ ptrs ((p, b) :: rest) := fun member =>
    absurd (rep.known _ member) (Nat.lt_irrefl _)
  obtain ⟨node, found, carried⟩ := rep.lookup (p := p) (b := b) (by simp)
  have apart : p ≠ arena.heap.serial := Nat.ne_of_lt below
  have positive : arena.blockSize ≠ 0 := Nat.ne_of_gt rep.positive
  obtain ⟨block₀, malloc₀, areas₀, serial₀⟩ := arena.heap.mallocBlock_spec arena.blockSize
  -- the old head block is linked back to the new one, then the new header is filled in
  have found₀ : (arena.heap.mallocHeader.2.mallocArea arena.blockSize).2.block p = some node := by
    simp [block₀, apart, found]
  obtain ⟨heap₁, relinked, block₁, malloc₁, areas₁, serial₁⟩ := Heap.modify_spec found₀
    fun b => { b with prev := some arena.heap.serial }
  have found₁ : heap₁.block arena.heap.serial =
      some (arena.heap.malloc.header arena.heap.serial) := by
    rw [block₁, block₀]
    simp [apart.symm]
  let new : MemBlock β := ⟨⟨arena.heap.nextArea arena.blockSize, arena.blockSize,
    arena.blockSize, arena.blockSize⟩, none, some p⟩
  obtain ⟨heap₂, filled, block₂, malloc₂, areas₂, serial₂⟩ := Heap.modify_spec found₁ fun _ => new
  have opened : lfAllocArenaHeadBlock arena = some (arena.heap.serial,
      { arena with
        blockCount := arena.blockCount + 1
        headBlock := some arena.heap.serial
        heap := heap₂ }) := by
    simp only [lfAllocArenaHeadBlock, positive, ↓reduceIte, rep.head_eq, Heap.mallocHeader_ptr,
      relinked, Option.bind_eq_bind, Option.bind_some]
    exact congrArg (Option.bind · _) filled
  have relink : ∀ other, arena.heap.block p = some other →
      (blockView β).view { node with prev := some arena.heap.serial } = (blockView β).view other ∧
        (blockView β).next { node with prev := some arena.heap.serial } = (blockView β).next other ∧
        (blockView β).prev { node with prev := some arena.heap.serial } =
          some arena.heap.serial := by
    intro other sameNode
    cases found.symm.trans sameNode
    exact ⟨rfl, rfl, rfl⟩
  have linked := rep.chain.pushFront rep.distinct unused
    (rfl : (blockView β).next new = some p) relink
  have areas_eq : heap₂.areas = new.data.place :: arena.heap.areas := by
    rw [areas₂, areas₁, areas₀]
    rfl
  have later : arena.heap.serial ≤ heap₂.serial := by
    rw [serial₂, serial₁, serial₀]
    exact Nat.le_add_right ..
  refine ⟨_, opened, ?_, ⟨rfl, rfl, rfl, malloc₂.trans (malloc₁.trans malloc₀), later⟩, rfl⟩
  exact {
    chain := linked.frame fun r _ => by
      simp only [block₂, block₁, block₀, Function.update_apply]
      split <;> rfl
    distinct := List.nodup_cons.mpr ⟨unused, rep.distinct⟩
    tail := by simpa [List.getLast?_cons] using rep.tail
    count := by simpa using rep.count
    nonempty := by simp
    positive := rep.positive
    sized := List.forall_mem_cons.mpr ⟨rfl, rep.sized⟩
    extent := List.forall_mem_cons.mpr ⟨rfl, rep.extent⟩
    known := by
      rw [serial₂, serial₁, serial₀]
      exact List.forall_mem_cons.mpr
        ⟨by omega, fun r member => by have := rep.known r member; omega⟩
    owned := by
      rw [areas_eq]
      exact List.forall_mem_cons.mpr ⟨List.mem_cons_self .., fun entry member =>
        List.mem_cons_of_mem _ (rep.owned entry member)⟩
    apart := List.pairwise_cons.mpr ⟨fun entry member =>
      nextArea_apart _ _ _ (rep.owned entry member), rep.apart⟩ }

theorem Represents.allocTailBlock {arena : Arena β} {deck : Deck β}
    (rep : Represents arena deck) :
    ∃ arena', lfAllocArenaTailBlock arena = some (arena.heap.serial, arena') ∧
      Represents arena' (deck ++ [(arena.heap.serial, ⟨arena.heap.nextArea arena.blockSize,
        0, 0, arena.blockSize⟩)]) ∧
      arena.Keeps arena' ∧ arena'.size = arena.size := by
  obtain ⟨front, ⟨p, b⟩, rfl⟩ := List.eq_nil_or_concat' deck |>.resolve_left rep.nonempty
  have below : p < arena.heap.serial := rep.known p (by simp)
  have unused : arena.heap.serial ∉ ptrs (front ++ [(p, b)]) := fun member =>
    absurd (rep.known _ member) (Nat.lt_irrefl _)
  obtain ⟨node, found, carried⟩ := rep.lookup (p := p) (b := b) (by simp)
  have apart : p ≠ arena.heap.serial := Nat.ne_of_lt below
  have positive : arena.blockSize ≠ 0 := Nat.ne_of_gt rep.positive
  obtain ⟨block₀, malloc₀, areas₀, serial₀⟩ := arena.heap.mallocBlock_spec arena.blockSize
  -- the old tail block is linked forward to the new one, then the new header is filled in
  have found₀ : (arena.heap.mallocHeader.2.mallocArea arena.blockSize).2.block p = some node := by
    simp [block₀, apart, found]
  obtain ⟨heap₁, relinked, block₁, malloc₁, areas₁, serial₁⟩ := Heap.modify_spec found₀
    fun b => { b with next := some arena.heap.serial }
  have found₁ : heap₁.block arena.heap.serial =
      some (arena.heap.malloc.header arena.heap.serial) := by
    rw [block₁, block₀]
    simp [apart.symm]
  let new : MemBlock β := ⟨⟨arena.heap.nextArea arena.blockSize, 0, 0, arena.blockSize⟩,
    some p, none⟩
  obtain ⟨heap₂, filled, block₂, malloc₂, areas₂, serial₂⟩ := Heap.modify_spec found₁ fun _ => new
  have opened : lfAllocArenaTailBlock arena = some (arena.heap.serial,
      { arena with
        blockCount := arena.blockCount + 1
        tailBlock := some arena.heap.serial
        heap := heap₂ }) := by
    simp only [lfAllocArenaTailBlock, positive, ↓reduceIte, rep.tail_eq, Heap.mallocHeader_ptr,
      relinked, Option.bind_eq_bind, Option.bind_some]
    exact congrArg (Option.bind · _) filled
  have relink : ∀ other, arena.heap.block p = some other →
      (blockView β).view { node with next := some arena.heap.serial } = (blockView β).view other ∧
        (blockView β).prev { node with next := some arena.heap.serial } = (blockView β).prev other ∧
        (blockView β).next { node with next := some arena.heap.serial } =
          some arena.heap.serial := by
    intro other sameNode
    cases found.symm.trans sameNode
    exact ⟨rfl, rfl, rfl⟩
  have linked := rep.chain.pushBack rep.distinct unused
    (rfl : (blockView β).prev new = some p) relink
  have areas_eq : heap₂.areas = new.data.place :: arena.heap.areas := by
    rw [areas₂, areas₁, areas₀]
    rfl
  have forall_concat {P : BlockPtr × Slab β → Prop} (old : ∀ entry ∈ front ++ [(p, b)], P entry)
      (last : P (arena.heap.serial, new.toSlab)) :
      ∀ entry ∈ front ++ [(p, b)] ++ [(arena.heap.serial, new.toSlab)], P entry := by
    intro entry member
    rcases List.mem_append.mp member with inOld | isNew
    · exact old entry inOld
    · rw [List.mem_singleton.mp isNew]
      exact last
  have later : arena.heap.serial ≤ heap₂.serial := by
    rw [serial₂, serial₁, serial₀]
    exact Nat.le_add_right ..
  refine ⟨_, opened, ?_, ⟨rfl, rfl, rfl, malloc₂.trans (malloc₁.trans malloc₀), later⟩, rfl⟩
  exact {
    chain := linked.frame fun r _ => by
      simp only [block₂, block₁, block₀, Function.update_apply]
      split <;> rfl
    distinct := by
      rw [ptrs, List.map_append]
      exact List.nodup_append'.mpr ⟨rep.distinct, by simp, by simpa using unused⟩
    tail := by simp
    count := by simpa using rep.count
    nonempty := by simp
    positive := rep.positive
    sized := forall_concat rep.sized rfl
    extent := forall_concat rep.extent rfl
    known := by
      rw [serial₂, serial₁, serial₀]
      refine List.forall_mem_map.mpr (forall_concat (?_) (by simp))
      intro entry member
      have := rep.known _ (List.mem_map_of_mem member)
      omega
    owned := by
      rw [areas_eq]
      exact forall_concat (fun entry member => List.mem_cons_of_mem _ (rep.owned entry member))
        (List.mem_cons_self ..)
    apart := by
      refine List.pairwise_append.mpr ⟨rep.apart, by simp, ?_⟩
      intro entry member other isNew
      rw [List.mem_singleton.mp isNew]
      exact (nextArea_apart _ _ _ (rep.owned entry member)).symm }

/-! ## Allocating at an end -/

/-- What an allocation at the head does: the head block has room, or a new head
block is opened. -/
inductive AllocHead (arena : Arena β) (size : ℕ) : Deck β → Ptr → Deck β → Prop where
  | fits {p : BlockPtr} {b : Slab β} {rest : Deck β} (room : size ≤ b.leftOffset) :
      AllocHead arena size ((p, b) :: rest) ⟨p, (b.leftOffset - size : ℕ)⟩
        ((p, { b with leftOffset := b.leftOffset - size }) :: rest)
  | opens {p : BlockPtr} {b : Slab β} {rest : Deck β} (full : b.leftOffset < size) :
      AllocHead arena size ((p, b) :: rest) ⟨arena.heap.serial, (arena.blockSize - size : ℕ)⟩
        ((arena.heap.serial, ⟨arena.heap.nextArea arena.blockSize, arena.blockSize,
          arena.blockSize - size, arena.blockSize⟩) :: (p, b) :: rest)

/-- What an allocation at the tail does: the tail block has room, or a new tail
block is opened. -/
inductive AllocTail (arena : Arena β) (size : ℕ) : Deck β → Ptr → Deck β → Prop where
  | fits {p : BlockPtr} {b : Slab β} {front : Deck β}
      (room : size ≤ sizeSub b.size b.rightOffset) :
      AllocTail arena size (front ++ [(p, b)]) ⟨p, b.rightOffset⟩
        (front ++ [(p, { b with rightOffset := b.rightOffset + size })])
  | opens {p : BlockPtr} {b : Slab β} {front : Deck β}
      (full : sizeSub b.size b.rightOffset < size) :
      AllocTail arena size (front ++ [(p, b)]) ⟨arena.heap.serial, 0⟩
        (front ++ [(p, b)] ++ [(arena.heap.serial, ⟨arena.heap.nextArea arena.blockSize, size, 0,
          arena.blockSize⟩)])

/-- After an allocation at the head the arena starts with the new region. -/
theorem AllocHead.first {arena : Arena β} {size : ℕ} {deck deck' : Deck β} {ptr : Ptr}
    (alloc : AllocHead arena size deck ptr deck') :
    ∃ p b rest, ∃ offset : ℕ, ptr = ⟨p, offset⟩ ∧ deck' = (p, b) :: rest ∧
      b.leftOffset = offset := by
  cases alloc with
  | fits => exact ⟨_, _, _, _, rfl, rfl, rfl⟩
  | opens => exact ⟨_, _, _, _, rfl, rfl, rfl⟩

/-- After an allocation at the tail the arena ends with the new region. -/
theorem AllocTail.last {arena : Arena β} {size : ℕ} {deck deck' : Deck β} {ptr : Ptr}
    (alloc : AllocTail arena size deck ptr deck') :
    ∃ front p b, ∃ offset : ℕ, ptr = ⟨p, offset⟩ ∧ deck' = front ++ [(p, b)] ∧
      b.rightOffset = offset + size := by
  cases alloc with
  | fits => exact ⟨_, _, _, _, rfl, rfl, rfl⟩
  | opens => exact ⟨_, _, _, 0, rfl, rfl, (Nat.zero_add _).symm⟩

/-- An allocation at the tail of an arena with this last block. -/
theorem AllocTail.at_last {arena : Arena β} {size : ℕ} {front deck' : Deck β} {p : BlockPtr}
    {b : Slab β} {ptr : Ptr} (alloc : AllocTail arena size (front ++ [(p, b)]) ptr deck') :
    (size ≤ sizeSub b.size b.rightOffset ∧ ptr = ⟨p, b.rightOffset⟩ ∧
      deck' = front ++ [(p, { b with rightOffset := b.rightOffset + size })]) ∨
    (sizeSub b.size b.rightOffset < size ∧ ptr = ⟨arena.heap.serial, 0⟩ ∧
      deck' = front ++ [(p, b)] ++ [(arena.heap.serial,
        ⟨arena.heap.nextArea arena.blockSize, size, 0, arena.blockSize⟩)]) := by
  generalize start : front ++ [(p, b)] = deck at alloc
  cases alloc with
  | fits room =>
      obtain ⟨rfl, last⟩ := List.append_inj' start rfl
      cases last
      exact .inl ⟨room, rfl, rfl⟩
  | opens full =>
      obtain ⟨rfl, last⟩ := List.append_inj' start rfl
      cases last
      exact .inr ⟨full, rfl, rfl⟩

/-- An allocation at the tail does not run over the end of a block. -/
theorem AllocTail.bounded {arena : Arena β} {size : ℕ} {deck deck' : Deck β} {ptr : Ptr}
    (alloc : AllocTail arena size deck ptr deck') (bound : size ≤ arena.blockSize)
    (sized : ∀ entry ∈ deck, entry.2.size = arena.blockSize)
    (bounded : ∀ entry ∈ deck, entry.2.rightOffset ≤ arena.blockSize) :
    ∀ entry ∈ deck', entry.2.rightOffset ≤ arena.blockSize := by
  cases alloc with
  | @fits p b front room =>
      obtain ⟨others, last⟩ := List.forall_mem_append.mp bounded
      have right : b.rightOffset ≤ arena.blockSize := last _ (List.mem_singleton_self _)
      have width : b.size = arena.blockSize := sized (p, b) (by simp)
      rw [width, sizeSub_of_le right] at room
      refine List.forall_mem_append.mpr ⟨others, List.forall_mem_singleton.mpr ?_⟩
      change b.rightOffset + size ≤ arena.blockSize
      omega
  | opens full =>
      exact List.forall_mem_append.mpr ⟨bounded, List.forall_mem_singleton.mpr bound⟩

/-- Lowering the left offset of the head block. -/
theorem Represents.setLeft {arena : Arena β} {p : BlockPtr} {b : Slab β} {rest : Deck β}
    (rep : Represents arena ((p, b) :: rest)) (left : ℕ) :
    ∃ heap, (arena.heap.modify p fun b => { b with leftOffset := left }) = some heap ∧
      Represents { arena with heap } ((p, { b with leftOffset := left }) :: rest) ∧
      arena.Keeps { arena with heap } := by
  have missing : p ∉ ptrs rest := (List.nodup_cons.mp rep.distinct).1
  rw [← modify_cons p b rest (fun b => { b with leftOffset := left }) missing]
  exact rep.modify (by simp) (fun _ => rfl) (fun _ => rfl) (fun _ => rfl) (fun _ => rfl)
    (fun _ => rfl)

/-- Raising the right offset of the tail block. -/
theorem Represents.setRight {arena : Arena β} {p : BlockPtr} {b : Slab β} {front : Deck β}
    (rep : Represents arena (front ++ [(p, b)])) (right : ℕ) :
    ∃ heap, (arena.heap.modify p fun b => { b with rightOffset := right }) = some heap ∧
      Represents { arena with heap } (front ++ [(p, { b with rightOffset := right })]) ∧
      arena.Keeps { arena with heap } := by
  have missing : p ∉ ptrs front := by
    have distinct := rep.distinct
    rw [ptrs, List.map_append] at distinct
    exact fun member => List.disjoint_of_nodup_append distinct member (by simp)
  rw [← modify_concat p b front (fun b => { b with rightOffset := right }) missing]
  exact rep.modify (by simp) (fun _ => rfl) (fun _ => rfl) (fun _ => rfl) (fun _ => rfl)
    (fun _ => rfl)

/-- The recorded size plays no part in what an arena represents. -/
theorem Represents.withSize {arena : Arena β} {deck : Deck β} (rep : Represents arena deck)
    (size : ℕ) : Represents { arena with size } deck :=
  ⟨rep.chain, rep.distinct, rep.tail, rep.count, rep.nonempty, rep.positive, rep.sized, rep.extent,
    rep.known, rep.owned, rep.apart⟩

theorem Represents.allocAtHead {arena : Arena β} {deck : Deck β} (rep : Represents arena deck)
    {size : ℕ} (positive : 0 < size) (bound : size ≤ arena.blockSize) :
    ∃ ptr arena' deck', lfArenaAllocAtHead arena size = some (ptr, arena') ∧
      AllocHead arena size deck ptr deck' ∧ Represents arena' deck' ∧ arena.Keeps arena' ∧
      arena'.size = sizeWrap (arena.size + size) := by
  obtain ⟨⟨p, b⟩, rest, rfl⟩ := List.exists_cons_of_ne_nil rep.nonempty
  obtain ⟨node, found, rfl⟩ := rep.lookup (p := p) (b := b) (by simp)
  have accepted : ¬ (size = 0 ∨ arena.blockSize < size) := by omega
  by_cases full : node.leftOffset < size
  · obtain ⟨opened, alloc, repOpened, keeps, sameSize⟩ := rep.allocHeadBlock
    obtain ⟨new, foundNew, carried⟩ := repOpened.lookup (List.mem_cons_self ..)
    obtain ⟨heap, lowered, repLowered, keepsLowered⟩ :=
      repOpened.setLeft (arena.blockSize - size)
    have left : new.leftOffset = arena.blockSize := by rw [carried]
    refine ⟨_, { opened with heap, size := sizeWrap (opened.size + size) }, _, ?_,
      .opens full, repLowered.withSize _, keeps.trans (keepsLowered.withSize _), by simp [sameSize]⟩
    simp [lfArenaAllocAtHead, accepted, rep.head_eq, found, full, alloc, foundNew, left, lowered]
  · obtain ⟨heap, lowered, repLowered, keepsLowered⟩ := rep.setLeft (node.leftOffset - size)
    refine ⟨_, { arena with heap, size := sizeWrap (arena.size + size) }, _, ?_,
      .fits (by omega), repLowered.withSize _, keepsLowered.withSize _, rfl⟩
    simp [lfArenaAllocAtHead, accepted, rep.head_eq, found, full, lowered]

theorem Represents.allocAtTail {arena : Arena β} {deck : Deck β} (rep : Represents arena deck)
    {size : ℕ} (positive : 0 < size) (bound : size ≤ arena.blockSize) :
    ∃ ptr arena' deck', lfArenaAllocAtTail arena size = some (ptr, arena') ∧
      AllocTail arena size deck ptr deck' ∧ Represents arena' deck' ∧ arena.Keeps arena' ∧
      arena'.size = sizeWrap (arena.size + size) := by
  obtain ⟨front, ⟨p, b⟩, rfl⟩ := List.eq_nil_or_concat' deck |>.resolve_left rep.nonempty
  obtain ⟨node, found, rfl⟩ := rep.lookup (p := p) (b := b) (by simp)
  have accepted : ¬ (size = 0 ∨ arena.blockSize < size) := by omega
  by_cases full : sizeSub node.size node.rightOffset < size
  · obtain ⟨opened, alloc, repOpened, keeps, sameSize⟩ := rep.allocTailBlock
    obtain ⟨new, foundNew, carried⟩ := repOpened.lookup
      (List.mem_append_right _ (List.mem_singleton_self _))
    obtain ⟨heap, raised, repRaised, keepsRaised⟩ := repOpened.setRight size
    have right : new.rightOffset = 0 := by rw [carried]
    refine ⟨_, { opened with heap, size := sizeWrap (opened.size + size) }, _, ?_,
      .opens full, repRaised.withSize _, keeps.trans (keepsRaised.withSize _), by simp [sameSize]⟩
    simp [lfArenaAllocAtTail, accepted, rep.tail_eq, found, full, alloc, foundNew, right, raised]
  · obtain ⟨heap, raised, repRaised, keepsRaised⟩ := rep.setRight (node.rightOffset + size)
    refine ⟨_, { arena with heap, size := sizeWrap (arena.size + size) }, _, ?_,
      .fits (by omega), repRaised.withSize _, keepsRaised.withSize _, rfl⟩
    simp [lfArenaAllocAtTail, accepted, rep.tail_eq, found, full, raised]

/-- What an allocation at the head that was made did. -/
theorem Represents.of_allocAtHead {arena arena' : Arena β} {deck : Deck β} {size : ℕ} {ptr : Ptr}
    (rep : Represents arena deck) (alloc : lfArenaAllocAtHead arena size = some (ptr, arena')) :
    0 < size ∧ size ≤ arena.blockSize ∧ ∃ deck', AllocHead arena size deck ptr deck' ∧
      Represents arena' deck' ∧ arena.Keeps arena' ∧
      arena'.size = sizeWrap (arena.size + size) := by
  have accepted : ¬ (size = 0 ∨ arena.blockSize < size) := fun refused => by
    simp [lfArenaAllocAtHead, refused] at alloc
  have positive : 0 < size := by omega
  have bound : size ≤ arena.blockSize := by omega
  obtain ⟨ptr', arena'', deck', alloc', change⟩ := rep.allocAtHead positive bound
  obtain ⟨rfl, rfl⟩ := Prod.mk.inj (Option.some.inj (alloc.symm.trans alloc'))
  exact ⟨positive, bound, deck', change⟩

/-- What an allocation at the tail that was made did. -/
theorem Represents.of_allocAtTail {arena arena' : Arena β} {deck : Deck β} {size : ℕ} {ptr : Ptr}
    (rep : Represents arena deck) (alloc : lfArenaAllocAtTail arena size = some (ptr, arena')) :
    0 < size ∧ size ≤ arena.blockSize ∧ ∃ deck', AllocTail arena size deck ptr deck' ∧
      Represents arena' deck' ∧ arena.Keeps arena' ∧
      arena'.size = sizeWrap (arena.size + size) := by
  have accepted : ¬ (size = 0 ∨ arena.blockSize < size) := fun refused => by
    simp [lfArenaAllocAtTail, refused] at alloc
  have positive : 0 < size := by omega
  have bound : size ≤ arena.blockSize := by omega
  obtain ⟨ptr', arena'', deck', alloc', change⟩ := rep.allocAtTail positive bound
  obtain ⟨rfl, rfl⟩ := Prod.mk.inj (Option.some.inj (alloc.symm.trans alloc'))
  exact ⟨positive, bound, deck', change⟩

/-! ## Freeing a block at an end -/

/-- A part of a deck stays owned when a block outside of it is freed. -/
theorem owned_erase {areas : List (ℕ × ℕ)} {kept : Deck β} {freed : Slab β}
    (owned : ∀ entry ∈ kept, entry.2.data.place ∈ areas)
    (apart : ∀ entry ∈ kept, Area.Apart entry.2.data.place freed.data.place)
    (positive : 0 < freed.data.extent) :
    ∀ entry ∈ kept, entry.2.data.place ∈ areas.erase freed.data.place := by
  intro entry member
  refine (List.mem_erase_of_ne ?_).mpr (owned entry member)
  intro same
  have overlap := apart entry member
  rw [same] at overlap
  simp only [Area.Apart, Area.place] at overlap
  omega

/-- With one block left, freeing the head block does nothing. -/
theorem Represents.deallocHead_single {arena : Arena β} {p : BlockPtr} {b : Slab β}
    (rep : Represents arena [(p, b)]) : lfDeallocArenaHeadBlock arena = some (some p, arena) := by
  have count : arena.blockCount = 1 := rep.count
  simp [lfDeallocArenaHeadBlock, count, rep.head_eq]

/-- With one block left, freeing the tail block does nothing. -/
theorem Represents.deallocTail_single {arena : Arena β} {p : BlockPtr} {b : Slab β}
    (rep : Represents arena [(p, b)]) : lfDeallocArenaTailBlock arena = some (some p, arena) := by
  have count : arena.blockCount = 1 := rep.count
  have tail : arena.tailBlock = some p := rep.tail
  simp [lfDeallocArenaTailBlock, count, tail]

theorem Represents.deallocHead {arena : Arena β} {p q : BlockPtr} {b c : Slab β} {rest : Deck β}
    (rep : Represents arena ((p, b) :: (q, c) :: rest)) :
    ∃ arena', lfDeallocArenaHeadBlock arena = some (some q, arena') ∧
      Represents arena' ((q, c) :: rest) ∧ arena.Keeps arena' ∧
      arena'.size = sizeSub arena.size arena.blockSize ∧ arena'.heap.block p = none := by
  obtain ⟨-, first, foundFirst, rfl, back, onward⟩ := rep.chain
  obtain ⟨next, second, foundSecond, carried, backSecond, beyond⟩ := onward
  have several : ¬ arena.blockCount ≤ 1 := by simp [rep.count]
  have sized : first.size = arena.blockSize := rep.sized _ (List.mem_cons_self ..)
  have extent : first.data.extent = arena.blockSize := rep.extent _ (List.mem_cons_self ..)
  have apart : p ≠ q := by
    have distinct := rep.distinct
    simp only [ptrs, List.map_cons, List.nodup_cons, List.mem_cons, not_or] at distinct
    exact distinct.1.1
  have back' : first.prev = none := back
  have next' : first.next = some q := next
  obtain ⟨heap₁, relinked, block₁, malloc₁, areas₁, serial₁⟩ :=
    Heap.modify_spec foundSecond fun n => { n with prev := none }
  have found₁ : heap₁.block p = some first := by simp [block₁, apart, foundFirst]
  obtain ⟨heap₂, freed, block₂, malloc₂, areas₂, serial₂⟩ := Heap.free_spec found₁
  have relink : ∀ other, arena.heap.block q = some other →
      (blockView β).view { second with prev := none } = (blockView β).view other ∧
        (blockView β).next { second with prev := none } = (blockView β).next other ∧
        (blockView β).prev { second with prev := none } = none := by
    intro other sameNode
    cases foundSecond.symm.trans sameNode
    exact ⟨rfl, rfl, rfl⟩
  have linked := rep.chain.popFront rep.distinct relink
  refine ⟨{ arena with
      headBlock := some q, blockCount := arena.blockCount - 1
      size := sizeSub arena.size arena.blockSize, heap := heap₂ }, ?_, ?_,
    ⟨rfl, rfl, rfl, malloc₂.trans malloc₁, by simp [serial₂, serial₁]⟩, rfl, by simp [block₂]⟩
  · simp [lfDeallocArenaHeadBlock, lfDeallocArenaBlock, several, rep.head_eq, foundFirst, next',
      back', relinked, freed, sized]
  · exact {
      chain := by simpa [block₂, block₁] using linked
      distinct := (List.nodup_cons.mp rep.distinct).2
      tail := by simpa [List.getLast?_cons] using rep.tail
      count := by simp [rep.count]
      nonempty := by simp
      positive := rep.positive
      sized := fun entry member => rep.sized entry (List.mem_cons_of_mem _ member)
      extent := fun entry member => rep.extent entry (List.mem_cons_of_mem _ member)
      known := fun r member => by
        rw [serial₂, serial₁]
        exact rep.known r (List.mem_cons_of_mem _ member)
      owned := by
        rw [areas₂, areas₁]
        refine owned_erase (fun entry member => rep.owned entry (List.mem_cons_of_mem _ member))
          (?_) (extent ▸ rep.positive)
        intro entry member
        exact ((List.pairwise_cons.mp rep.apart).1 entry member).symm
      apart := (List.pairwise_cons.mp rep.apart).2 }

theorem Represents.deallocTail {arena : Arena β} {p q : BlockPtr} {b c : Slab β} {front : Deck β}
    (rep : Represents arena (front ++ [(q, c)] ++ [(p, b)])) :
    ∃ arena', lfDeallocArenaTailBlock arena = some (some q, arena') ∧
      Represents arena' (front ++ [(q, c)]) ∧ arena.Keeps arena' ∧
      arena'.size = sizeSub arena.size arena.blockSize ∧ arena'.heap.block p = none := by
  obtain ⟨middle, before, next, last, foundLast, rfl, back, after⟩ := segment_append.mp rep.chain
  obtain ⟨-, -, -, second, foundSecond, carried, backSecond, nextSecond⟩ :=
    segment_append.mp before
  have several : ¬ arena.blockCount ≤ 1 := by simp [rep.count]
  have inDeck : (p, last.toSlab) ∈ front ++ [(q, c)] ++ [(p, last.toSlab)] := by simp
  have sized : last.size = arena.blockSize := rep.sized _ inDeck
  have extent : last.data.extent = arena.blockSize := rep.extent _ inDeck
  have distinct := rep.distinct
  rw [ptrs, List.map_append, List.nodup_append'] at distinct
  have apart : p ≠ q := by
    intro same
    exact distinct.2.2 (by simp : q ∈ ptrs (front ++ [(q, c)])) (by simp [same])
  have back' : last.prev = some q := back.trans (lastPtr_concat _ _ _)
  have after' : last.next = none := after
  obtain ⟨heap₁, relinked, block₁, malloc₁, areas₁, serial₁⟩ :=
    Heap.modify_spec foundSecond fun n => { n with next := none }
  have found₁ : heap₁.block p = some last := by simp [block₁, apart, foundLast]
  obtain ⟨heap₂, freed, block₂, malloc₂, areas₂, serial₂⟩ := Heap.free_spec found₁
  have relink : ∀ other, arena.heap.block q = some other →
      (blockView β).view { second with next := none } = (blockView β).view other ∧
        (blockView β).prev { second with next := none } = (blockView β).prev other ∧
        (blockView β).next { second with next := none } = none := by
    intro other sameNode
    cases foundSecond.symm.trans sameNode
    exact ⟨rfl, rfl, rfl⟩
  have linked := rep.chain.popBack rep.distinct relink
  refine ⟨{ arena with
      tailBlock := some q, blockCount := arena.blockCount - 1
      size := sizeSub arena.size arena.blockSize, heap := heap₂ }, ?_, ?_,
    ⟨rfl, rfl, rfl, malloc₂.trans malloc₁, by simp [serial₂, serial₁]⟩, rfl, by simp [block₂]⟩
  · simp [lfDeallocArenaTailBlock, lfDeallocArenaBlock, several, rep.tail_eq, foundLast, after',
      back', relinked, freed, sized]
  · have kept {P : BlockPtr × Slab β → Prop}
        (all : ∀ entry ∈ front ++ [(q, c)] ++ [(p, last.toSlab)], P entry) :
        ∀ entry ∈ front ++ [(q, c)], P entry := fun entry member =>
      all entry (List.mem_append_left _ member)
    exact {
      chain := by simpa [block₂, block₁] using linked
      distinct := distinct.1
      tail := by simp
      count := by simp [rep.count]
      nonempty := by simp
      positive := rep.positive
      sized := kept rep.sized
      extent := kept rep.extent
      known := fun r member => by
        rw [serial₂, serial₁]
        exact rep.known r (by
          rw [ptrs, List.map_append]
          exact List.mem_append_left _ member)
      owned := by
        rw [areas₂, areas₁]
        refine owned_erase (kept rep.owned) (?_) (extent ▸ rep.positive)
        intro entry member
        exact (List.pairwise_append.mp rep.apart).2.2 entry member _ (List.mem_singleton_self _)
      apart := (List.pairwise_append.mp rep.apart).1 }

/-! ## Resetting -/

/-- The block with an empty used range at its start offset. -/
def Slab.restart (b : Slab β) (offset : ℕ) : Slab β :=
  { b with leftOffset := offset, rightOffset := offset }

/-- The deck after a reset. -/
def Deck.restart (deck : Deck β) (offset : ℕ) : Deck β :=
  deck.map fun entry => (entry.1, entry.2.restart offset)

@[simp] theorem ptrs_restart (deck : Deck β) (offset : ℕ) :
    ptrs (deck.restart offset) = ptrs deck := by
  simp [ptrs, Deck.restart]

/-- The reset loop walks the rest of the chain and restarts each of its blocks. -/
theorem resetBlocks_spec (arena : Arena β) {deck : Deck β} {heap : Heap β}
    {before first : Option BlockPtr} {fuel : ℕ} (enough : deck.length ≤ fuel)
    (distinct : (ptrs deck).Nodup)
    (chain : Segment (blockView β) heap.block none before first deck) :
    ∃ heap', resetBlocks arena fuel first heap = some heap' ∧
      Segment (blockView β) heap'.block none before first
        (deck.restart (startOffset arena.blockOffset arena.blockSize)) ∧
      (∀ r ∉ ptrs deck, heap'.block r = heap.block r) ∧
      heap'.malloc = heap.malloc ∧ heap'.areas = heap.areas ∧ heap'.serial = heap.serial := by
  induction deck generalizing heap before first fuel with
  | nil =>
      cases (chain : first = none)
      exact ⟨heap, by simp [resetBlocks], rfl, fun _ _ => rfl, rfl, rfl, rfl⟩
  | cons entry rest ih =>
      obtain ⟨p, b⟩ := entry
      obtain ⟨rfl, node, found, rfl, back, tail⟩ := chain
      obtain ⟨fuel, rfl⟩ : ∃ n, fuel = n + 1 := ⟨fuel - 1, by simp at enough; omega⟩
      obtain ⟨missing, distinct⟩ := List.nodup_cons.mp distinct
      obtain ⟨heap₁, restarted, block₁, malloc₁, areas₁, serial₁⟩ :=
        Heap.modify_spec found (lfSetBlockOffset arena)
      have tail₁ : Segment (blockView β) heap₁.block none (some p) ((blockView β).next node) rest :=
        tail.frame fun r member => by
          have other : r ≠ p := fun same => missing (same ▸ member)
          simp [block₁, other]
      obtain ⟨heap₂, walked, chain₂, frame₂, malloc₂, areas₂, serial₂⟩ :=
        ih (by simpa using enough) distinct tail₁
      refine ⟨heap₂, ?_, ?_, ?_, malloc₂.trans malloc₁, areas₂.trans areas₁,
        serial₂.trans serial₁⟩
      · simp only [resetBlocks, found, restarted, Option.bind_eq_bind, Option.bind_some]
        exact walked
      · exact ⟨rfl, lfSetBlockOffset arena node, by simp [frame₂ p missing, block₁], rfl, back,
          chain₂⟩
      · intro r outside
        simp only [ptrs, List.map_cons, List.mem_cons, not_or] at outside
        simp [frame₂ r outside.2, block₁, outside.1]

/-- Distinct pointers below a bound are not more than the bound. -/
theorem Represents.length_le {arena : Arena β} {deck : Deck β} (rep : Represents arena deck) :
    deck.length ≤ arena.heap.serial := by
  have inRange : ptrs deck ⊆ List.range arena.heap.serial := fun p member =>
    List.mem_range.mpr (rep.known p member)
  simpa using (List.subperm_of_subset rep.distinct inRange).length_le

theorem Represents.reset {arena : Arena β} {deck : Deck β} (rep : Represents arena deck) :
    ∃ arena', lfResetArena arena = some arena' ∧
      Represents arena' (deck.restart (startOffset arena.blockOffset arena.blockSize)) ∧
      arena.Keeps arena' ∧ arena'.size = 0 := by
  obtain ⟨heap, walked, chain, -, malloc, areas, serial⟩ :=
    resetBlocks_spec arena rep.length_le rep.distinct rep.chain
  refine ⟨{ arena with heap, size := 0 }, by simp [lfResetArena, walked], ?_,
    ⟨rfl, rfl, rfl, malloc, by simp [serial]⟩, rfl⟩
  exact {
    chain := chain
    distinct := by simpa using rep.distinct
    tail := by simpa using rep.tail
    count := by simpa [Deck.restart] using rep.count
    nonempty := by simpa [Deck.restart] using rep.nonempty
    positive := rep.positive
    sized := List.forall_mem_map.mpr fun entry member => rep.sized entry member
    extent := List.forall_mem_map.mpr fun entry member => rep.extent entry member
    known := by simpa [serial] using rep.known
    owned := by
      rw [areas]
      exact List.forall_mem_map.mpr fun entry member => rep.owned entry member
    apart := List.pairwise_map.mpr rep.apart }

/-! ## Initializing -/

/-- A new arena is one empty block at the start offset. -/
theorem lfInitArena_spec (arena : Arena β) (positive : 0 < arena.blockSize) :
    ∃ arena', lfInitArena arena = some arena' ∧
      Represents arena' [(arena.heap.serial, ⟨arena.heap.nextArea arena.blockSize,
        startOffset arena.blockOffset arena.blockSize,
        startOffset arena.blockOffset arena.blockSize, arena.blockSize⟩)] ∧
      arena'.blockSize = arena.blockSize ∧ arena'.blockOffset = arena.blockOffset ∧
      arena'.cursorBlock = some arena.heap.serial ∧ arena'.size = 0 := by
  have accepted : arena.blockSize ≠ 0 := Nat.ne_of_gt positive
  obtain ⟨block₀, malloc₀, areas₀, serial₀⟩ := arena.heap.mallocBlock_spec arena.blockSize
  have found₀ : (arena.heap.mallocHeader.2.mallocArea arena.blockSize).2.block arena.heap.serial =
      some (arena.heap.malloc.header arena.heap.serial) := by simp [block₀]
  let new : MemBlock β := ⟨⟨arena.heap.nextArea arena.blockSize, arena.blockSize,
    arena.blockSize, arena.blockSize⟩, none, none⟩
  obtain ⟨heap₁, filled, block₁, malloc₁, areas₁, serial₁⟩ := Heap.modify_spec found₀ fun _ => new
  have found₁ : heap₁.block arena.heap.serial = some new := by simp [block₁]
  let opened : Arena β :=
    { arena with
      blockCount := 1, headBlock := some arena.heap.serial, tailBlock := some arena.heap.serial
      heap := heap₁ }
  obtain ⟨heap₂, placed, block₂, malloc₂, areas₂, serial₂⟩ :=
    Heap.modify_spec found₁ (lfSetBlockOffset opened)
  have alloc : lfAllocArenaHeadBlock
      { arena with blockCount := 0, headBlock := none, tailBlock := none } =
      some (arena.heap.serial, { opened with tailBlock := none }) := by
    simp only [lfAllocArenaHeadBlock, accepted, ↓reduceIte, Heap.mallocHeader_ptr,
      Option.bind_eq_bind, Option.bind_some]
    exact congrArg (Option.bind · _) filled
  refine ⟨{ opened with heap := heap₂, cursorBlock := some arena.heap.serial, size := 0 }, ?_, ?_,
    rfl, rfl, rfl, rfl⟩
  · simp only [lfInitArena, alloc, Option.bind_eq_bind, Option.bind_some]
    exact congrArg (Option.bind · _) placed
  · exact {
      chain := ⟨rfl, lfSetBlockOffset opened new, by simp [block₂], rfl, rfl, rfl⟩
      distinct := by simp
      tail := rfl
      count := rfl
      nonempty := by simp
      positive := positive
      sized := by simp [opened]
      extent := by simp [opened]
      known := by simp [serial₂, serial₁, serial₀]
      owned := by
        simp only [List.mem_singleton, forall_eq, areas₂, areas₁, areas₀]
        exact List.mem_cons_self ..
      apart := by simp }

/-- An arena is initialized only with a block size. -/
theorem lfInitArena_accepts {arena start : Arena β} (init : lfInitArena arena = some start) :
    0 < arena.blockSize := by
  rcases Nat.eq_zero_or_pos arena.blockSize with zero | positive
  · simp [lfInitArena, lfAllocArenaHeadBlock, zero] at init
  · exact positive

/-! ## Writing bytes -/

/-- The block with bytes written at an offset. -/
def Slab.write (b : Slab β) (offset : ℕ) (bytes : List β) : Slab β :=
  { b with data := b.data.write offset bytes }

theorem Represents.store {arena : Arena β} {deck : Deck β} (rep : Represents arena deck)
    {p : BlockPtr} (member : p ∈ ptrs deck) {offset : ℕ} {bytes : List β}
    (inside : offset + bytes.length ≤ arena.blockSize) :
    ∃ heap, arena.heap.store ⟨p, offset⟩ bytes = some heap ∧
      Represents { arena with heap } (deck.modify p fun b => b.write offset bytes) ∧
      arena.Keeps { arena with heap } := by
  obtain ⟨⟨q, b⟩, inDeck, rfl⟩ := List.mem_map.mp member
  obtain ⟨node, found, rfl⟩ := rep.lookup inDeck
  have bound : node.data.extent = arena.blockSize := rep.extent _ inDeck
  obtain ⟨heap, written, repWritten, keeps⟩ := rep.modify member
    (f := fun b => { b with data := b.data.write offset bytes }) (fun _ => rfl) (fun _ => rfl)
    (fun _ => rfl) (g := fun b => b.write offset bytes) (fun _ => rfl) (fun _ => rfl)
  refine ⟨heap, ?_, repWritten, keeps⟩
  simpa [Heap.store, found, Heap.InArea, bound, inside] using written

/-- A write past the end of a block's area fails. -/
theorem Represents.store_outside {arena : Arena β} {deck : Deck β} (rep : Represents arena deck)
    {p : BlockPtr} {b : Slab β} (member : (p, b) ∈ deck) {offset : ℕ} {bytes : List β}
    (outside : arena.blockSize < offset + bytes.length) :
    arena.heap.store ⟨p, offset⟩ bytes = none := by
  obtain ⟨node, found, rfl⟩ := rep.lookup member
  have bound : node.data.extent = arena.blockSize := rep.extent _ member
  simp [Heap.store, found, Heap.InArea, bound, Nat.not_le.mpr outside]

end LowFlow
