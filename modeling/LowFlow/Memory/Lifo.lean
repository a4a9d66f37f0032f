import LowFlow.Memory.Regions
import LowFlow.Memory.Stack

/-!
# A stack holds a list of elements

`Holds` is the invariant of a stack whose elements need no padding. The slots of
the elements, top first, tile the blocks in use from the head on; every block in
use behind the head has no room for another element; what each slot holds is
the element's bytes. Below the blocks in use there can be spare ones, which a
reset left empty.
-/

set_option autoImplicit false

namespace LowFlow

open Library

variable {β : Type}

/-- An element of a stack: its slot and what it holds. -/
abbrev Element (β : Type) := Ptr × List β

/-- The region of a slot. -/
def slot (e : Element β) : Region := ⟨e.1, e.2.length⟩

/-- The stack holds these elements, top first. -/
structure Stack.Holds (stack : Stack β) (used spare : Deck β) (live : List (Element β)) : Prop where
  rep : Represents stack.arena (used ++ spare)
  padded : stack.elemPaddedSize = stack.elemSize
  positive : 0 < stack.elemSize
  fits : stack.elemSize ≤ stack.arena.blockSize
  nonempty : used ≠ []
  right : ∀ entry ∈ used ++ spare, entry.2.rightOffset = stack.arena.blockSize
  full : ∀ entry ∈ used.tail, entry.2.leftOffset < stack.elemSize
  empty : ∀ entry ∈ spare, entry.2.leftOffset = stack.arena.blockSize
  sized : ∀ e ∈ live, e.2.length = stack.elemSize
  tiles : TilesDeck used (live.map slot)
  reads : ∀ e ∈ live, (used ++ spare).Reads e.1 e.2

/-- An allocation looks at the head block only. -/
theorem AllocHead.append {arena : Arena β} {size : ℕ} {used spare deck' : Deck β} {ptr : Ptr}
    (alloc : AllocHead arena size (used ++ spare) ptr deck') (nonempty : used ≠ []) :
    ∃ used', deck' = used' ++ spare ∧ AllocHead arena size used ptr used' := by
  obtain ⟨⟨p, b⟩, rest, rfl⟩ := List.exists_cons_of_ne_nil nonempty
  rw [List.cons_append] at alloc
  cases alloc with
  | fits room => exact ⟨_ :: rest, rfl, .fits room⟩
  | opens full => exact ⟨_ :: (p, b) :: rest, rfl, .opens full⟩

namespace Stack.Holds

variable {stack : Stack β} {used spare : Deck β} {live : List (Element β)}

/-- An element lies inside a block. -/
theorem inside (holds : stack.Holds used spare live) {e : Element β} (member : e ∈ live) :
    0 ≤ e.1.offset ∧ e.1.offset + e.2.length ≤ stack.arena.blockSize := by
  obtain ⟨entry, inUse, -, low, high⟩ := holds.tiles.inside (List.mem_map_of_mem member)
  have right := holds.right entry (List.mem_append_left _ inUse)
  simp only [slot] at low high
  omega

/-- Every element can be read from its slot. -/
theorem load (holds : stack.Holds used spare live) {e : Element β} (member : e ∈ live) :
    stack.arena.heap.load e.1 stack.elemSize = some e.2 := by
  rw [← holds.sized e member]
  exact holds.rep.load_reads (holds.reads e member) (holds.inside member).2

/-- The slots do not overlap. -/
theorem apart (holds : stack.Holds used spare live) :
    (live.map slot).Pairwise Region.Apart := by
  have distinct := holds.rep.distinct
  rw [ptrs, List.map_append] at distinct
  exact holds.tiles.pairwise distinct.of_append_left

/-! ## Pushing -/

/-- A new slot holds what was there before. -/
theorem alloc (holds : stack.Holds used spare live) :
    ∃ ptr stack' used' old, lfAllocStackElem stack = some (ptr, stack') ∧
      stack'.Holds used' spare ((ptr, old) :: live) ∧ stack.Keeps stack' ∧
      stack'.elemCount = stack.elemCount + 1 ∧ (ptrs used').head? = some ptr.block := by
  obtain ⟨ptr, stack', deck', alloc, change, rep, keeps, count⟩ :=
    lfAllocStackElem_spec holds.rep holds.positive holds.fits
  obtain ⟨used', rfl, change'⟩ := change.append holds.nonempty
  have tiles := change'.tiles holds.positive holds.fits holds.tiles
  obtain ⟨⟨p, b⟩, inUse, block, low, high⟩ := tiles.inside (List.mem_cons_self ..)
  have blocks : stack'.arena.blockSize = stack.arena.blockSize := keeps.arena.blockSize
  have atHead : (ptrs used').head? = some ptr.block := by cases change' <;> rfl
  refine ⟨ptr, stack', used', b.data.read ptr.offset.toNat stack.elemSize, alloc, ?_, keeps, count,
    atHead⟩
  exact {
    rep := rep
    padded := keeps.padded.trans (holds.padded.trans keeps.size.symm)
    positive := keeps.size ▸ holds.positive
    fits := by rw [keeps.size, blocks]; exact holds.fits
    nonempty := by cases change' <;> simp
    right := by
      rw [blocks]
      have right := holds.right
      cases change' with
      | fits room => exact List.forall_mem_cons.mpr (List.forall_mem_cons.mp right)
      | opens full => exact List.forall_mem_cons.mpr ⟨rfl, right⟩
    full := by
      rw [keeps.size]
      have full := holds.full
      cases change' with
      | fits room => exact full
      | opens noRoom => exact List.forall_mem_cons.mpr ⟨noRoom, full⟩
    empty := by rw [blocks]; exact holds.empty
    sized := by
      rw [keeps.size]
      exact List.forall_mem_cons.mpr ⟨by simp, holds.sized⟩
    tiles := by simpa [slot] using tiles
    reads := by
      have start : 0 ≤ ptr.offset := Int.le_trans (Int.natCast_nonneg b.leftOffset) low
      refine List.forall_mem_cons.mpr ⟨⟨b, ?_, start, by simp⟩, fun e member =>
        (holds.reads e member).carried change.carries⟩
      rw [show ptr.block = p from block]
      exact List.mem_append_left _ inUse }

/-- Writing to the top slot changes the top element only. -/
theorem overwrite {ptr : Ptr} {old bytes : List β}
    (holds : stack.Holds used spare ((ptr, old) :: live)) (sized : bytes.length = stack.elemSize) :
    ∃ stack' used', stack.store ptr bytes = some stack' ∧
      stack'.Holds used' spare ((ptr, bytes) :: live) ∧ stack.Keeps stack' ∧
      stack'.elemCount = stack.elemCount ∧ ptrs used' = ptrs used := by
  have width : old.length = stack.elemSize := holds.sized _ (List.mem_cons_self ..)
  obtain ⟨low, high⟩ := holds.inside (List.mem_cons_self ..)
  obtain ⟨start, atStart⟩ := Int.eq_ofNat_of_zero_le low
  obtain ⟨p, offset⟩ := ptr
  obtain rfl : offset = start := atStart
  have inUse : p ∈ ptrs used := holds.tiles.block_mem (List.mem_cons_self ..)
  have inDeck : p ∈ ptrs (used ++ spare) := by
    rw [ptrs, List.map_append]
    exact List.mem_append_left _ inUse
  have bound : start + bytes.length ≤ stack.arena.blockSize := by
    simp only [] at high
    omega
  obtain ⟨stack', stored, rep, keeps, count⟩ := Stack.store_spec holds.rep inDeck bound
  have elsewhere : p ∉ ptrs spare := by
    have distinct := holds.rep.distinct
    rw [ptrs, List.map_append] at distinct
    exact fun member => List.disjoint_of_nodup_append distinct inUse member
  have blocks : stack'.arena.blockSize = stack.arena.blockSize := keeps.arena.blockSize
  have same : ∀ entry ∈ used.modify p (fun b => b.write start bytes), ∃ old ∈ used,
      entry.2.leftOffset = old.2.leftOffset ∧ entry.2.rightOffset = old.2.rightOffset := by
    intro entry member
    obtain ⟨old, inOld, rfl⟩ := List.mem_map.mp member
    refine ⟨old, inOld, ?_⟩
    dsimp only
    split <;> exact ⟨rfl, rfl⟩
  have regions : ((⟨p, start⟩, bytes) :: live).map slot = ((⟨p, start⟩, old) :: live).map slot := by
    simp [slot, width, sized]
  have others : ∀ e ∈ live, Region.Apart (slot (⟨p, start⟩, old)) (slot e) := fun e member =>
    (List.pairwise_cons.mp holds.apart).1 _ (List.mem_map_of_mem member)
  rw [modify_append, modify_of_notMem _ elsewhere] at rep
  refine ⟨stack', used.modify p fun b => b.write start bytes, stored, ?_, keeps, count,
    ptrs_modify ..⟩
  exact {
    rep := rep
    padded := keeps.padded.trans (holds.padded.trans keeps.size.symm)
    positive := keeps.size ▸ holds.positive
    fits := by rw [keeps.size, blocks]; exact holds.fits
    nonempty := by simpa [Deck.modify] using holds.nonempty
    right := by
      rw [blocks]
      obtain ⟨right, rightSpare⟩ := List.forall_mem_append.mp holds.right
      refine List.forall_mem_append.mpr ⟨?_, rightSpare⟩
      intro entry member
      obtain ⟨old, inOld, -, sameRight⟩ := same entry member
      exact sameRight.trans (right old inOld)
    full := by
      rw [keeps.size, Deck.modify, ← List.map_tail]
      refine List.forall_mem_map.mpr ?_
      intro old inOld
      dsimp only
      split <;> exact holds.full old inOld
    empty := by rw [blocks]; exact holds.empty
    sized := by
      rw [keeps.size]
      exact List.forall_mem_cons.mpr ⟨sized, (List.forall_mem_cons.mp holds.sized).2⟩
    tiles := by
      rw [regions]
      exact holds.tiles.modify p (fun _ => rfl) (fun _ => rfl)
    reads := by
      have elsewhere := modify_of_notMem (fun b => b.write start bytes) elsewhere
      rw [← elsewhere, ← modify_append]
      refine List.forall_mem_cons.mpr ⟨Deck.Reads.store_same inDeck low bytes, ?_⟩
      intro e member
      have reads := holds.reads e (List.mem_cons_of_mem _ member)
      refine reads.store_apart ⟨p, start⟩ low ?_
      have apart := others e member
      simp only [Region.Apart, slot, width, ← sized] at apart
      rcases apart with other | before | after
      · exact .inl (Ne.symm other)
      · exact .inr (.inr before)
      · exact .inr (.inl after) }

/-- A pushed element is in front of the others. -/
theorem push (holds : stack.Holds used spare live) {bytes : List β}
    (sized : bytes.length = stack.elemSize) :
    ∃ ptr stack' used', stack.push bytes = some (ptr, stack') ∧
      stack'.Holds used' spare ((ptr, bytes) :: live) ∧ stack.Keeps stack' ∧
      stack'.elemCount = stack.elemCount + 1 ∧ (ptrs used').head? = some ptr.block := by
  obtain ⟨ptr, stack₁, used₁, old, alloc, holds₁, keeps₁, count₁, atHead⟩ := holds.alloc
  obtain ⟨stack', used', stored, holds', keeps, count, samePtrs⟩ :=
    holds₁.overwrite (sized.trans keeps₁.size.symm)
  exact ⟨ptr, stack', used', by simp [Stack.push, alloc, stored], holds', keeps₁.trans keeps,
    count.trans count₁, samePtrs ▸ atHead⟩

/-! ## Popping -/

/-- A block that is in use behind the head holds an element. -/
theorem next_nonempty {p q : BlockPtr} {b c : Slab β} {rest : Deck β}
    (holds : stack.Holds ((p, b) :: (q, c) :: rest) spare live) : c.leftOffset ≠ c.rightOffset := by
  have right : c.rightOffset = stack.arena.blockSize := holds.right (q, c) (by simp)
  have full : c.leftOffset < stack.elemSize := holds.full (q, c) (by simp)
  have fits := holds.fits
  omega

/-- When the top element is in the head block, that is not empty. -/
theorem head_nonempty {e : Element β} {p : BlockPtr} {b : Slab β} {rest : Deck β}
    (holds : stack.Holds ((p, b) :: rest) spare (e :: live)) (atHead : e.1.block = p) :
    b.leftOffset ≠ b.rightOffset := by
  have distinct := holds.rep.distinct
  rw [ptrs, List.map_append] at distinct
  exact holds.tiles.first_nonempty (List.nodup_cons.mp distinct.of_append_left).1 atHead

/-- An empty head block can be taken away. -/
theorem dropHead {p q : BlockPtr} {b c : Slab β} {rest : Deck β}
    (holds : stack.Holds ((p, b) :: (q, c) :: rest) spare live)
    (empty : b.leftOffset = b.rightOffset) {arena : Arena β}
    (rep : Represents arena ((q, c) :: rest ++ spare)) (keeps : stack.arena.Keeps arena) :
    Stack.Holds { stack with arena } ((q, c) :: rest) spare live := by
  have tiles := holds.tiles.skipEmpty empty
  have missing : p ∉ ptrs ((q, c) :: rest) := by
    have distinct := holds.rep.distinct
    rw [ptrs, List.map_append] at distinct
    exact (List.nodup_cons.mp distinct.of_append_left).1
  exact {
    rep := rep
    padded := holds.padded
    positive := holds.positive
    fits := by rw [keeps.blockSize]; exact holds.fits
    nonempty := by simp
    right := by
      rw [keeps.blockSize]
      exact fun entry member => holds.right entry (List.mem_cons_of_mem _ member)
    full := fun entry member => holds.full entry (List.mem_cons_of_mem _ member)
    empty := by rw [keeps.blockSize]; exact holds.empty
    sized := holds.sized
    tiles := tiles
    reads := fun e member => by
      refine (holds.reads e member).of_cons fun same => missing ?_
      exact same ▸ tiles.block_mem (List.mem_map_of_mem member) }

/-- What a pop from a head block that is not empty leaves. -/
theorem popHead {ptr : Ptr} {bytes : List β} {p : BlockPtr} {b : Slab β} {rest : Deck β}
    (holds : stack.Holds ((p, b) :: rest) spare ((ptr, bytes) :: live))
    (nonempty : b.leftOffset ≠ b.rightOffset) {stack' : Stack β}
    (rep : Represents stack'.arena ((p, b.popped stack.elemPaddedSize) :: rest ++ spare))
    (keeps : stack.Keeps stack') :
    ptr = ⟨p, b.leftOffset⟩ ∧
      stack'.Holds ((p, b.popped stack.elemPaddedSize) :: rest) spare live ∧
      stack'.arena.heap.load ptr stack'.elemSize = some bytes := by
  obtain ⟨atLeft, room, tiles⟩ := holds.tiles.takeFirst nonempty
  have width : bytes.length = stack.elemSize := holds.sized _ (List.mem_cons_self ..)
  have blocks : stack'.arena.blockSize = stack.arena.blockSize := keeps.arena.blockSize
  simp only [slot, width] at atLeft room tiles
  have popped := popped_of_le room
  have carries : Deck.Carries ((p, b) :: rest ++ spare)
      ((p, b.popped stack.elemPaddedSize) :: rest ++ spare) := .cons rfl (.refl _)
  refine ⟨atLeft, ?_, ?_⟩
  · exact {
      rep := rep
      padded := keeps.padded.trans (holds.padded.trans keeps.size.symm)
      positive := keeps.size ▸ holds.positive
      fits := by rw [keeps.size, blocks]; exact holds.fits
      nonempty := by simp
      right := by
        rw [blocks, holds.padded, popped]
        exact List.forall_mem_cons.mpr (List.forall_mem_cons.mp holds.right)
      full := keeps.size ▸ holds.full
      empty := by rw [blocks]; exact holds.empty
      sized := by
        rw [keeps.size]
        exact fun e member => holds.sized e (List.mem_cons_of_mem _ member)
      tiles := by rw [holds.padded, popped]; exact tiles
      reads := fun e member =>
        (holds.reads e (List.mem_cons_of_mem _ member)).carried carries }
  · rw [keeps.size, ← width]
    refine rep.load_reads ((holds.reads _ (List.mem_cons_self ..)).carried carries) ?_
    rw [blocks]
    exact (holds.inside (List.mem_cons_self ..)).2

/-- A pop returns the top slot, which still holds the top element. -/
theorem pop {ptr : Ptr} {bytes : List β} (holds : stack.Holds used spare ((ptr, bytes) :: live))
    (counted : stack.elemCount ≠ 0) :
    ∃ stack' used', lfPopFromStack stack = some (some ptr, stack') ∧
      stack'.Holds used' spare live ∧ stack.Keeps stack' ∧
      stack'.elemCount = stack.elemCount - 1 ∧
      stack'.arena.heap.load ptr stack'.elemSize = some bytes := by
  obtain ⟨⟨p, b⟩, rest, rfl⟩ := List.exists_cons_of_ne_nil holds.nonempty
  by_cases empty : b.leftOffset = b.rightOffset
  · cases rest with
    | nil =>
        have none : ((ptr, bytes) :: live).map slot = [] := holds.tiles.skipEmpty empty
        simp at none
    | cons next rest =>
        obtain ⟨q, c⟩ := next
        obtain ⟨arena, stack', rep₁, keeps₁, popped, rep', keeps, count⟩ :=
          lfPopFromStack_next counted holds.rep empty
        obtain ⟨rfl, holds', loaded⟩ :=
          (holds.dropHead empty rep₁ keeps₁).popHead holds.next_nonempty rep' keeps
        exact ⟨stack', _, popped, holds', (Keeps.of_arena keeps₁).trans keeps, count, loaded⟩
  · obtain ⟨stack', popped, rep', keeps, count⟩ := lfPopFromStack_head counted holds.rep empty
    obtain ⟨rfl, holds', loaded⟩ := holds.popHead empty rep' keeps
    exact ⟨stack', _, popped, holds', keeps, count, loaded⟩

/-- A new stack holds nothing. -/
theorem init {stack : Stack β} (positive : 0 < stack.elemSize)
    (some_in_block : 0 < stack.elemQttInBlock)
    (padded : paddedSize stack.elemSize stack.elemAlignment = some stack.elemSize)
    (fits : stack.elemSize ≤ sizeWrap (stack.elemQttInBlock * stack.elemSize)) :
    ∃ start used, lfInitStack stack = some start ∧ start.Holds used [] [] ∧
      start.arena.blockSize = sizeWrap (stack.elemQttInBlock * stack.elemSize) ∧
      start.elemQttInBlock = stack.elemQttInBlock ∧ start.elemSize = stack.elemSize ∧
      start.elemAlignment = stack.elemAlignment ∧ start.elemCount = 0 := by
  obtain ⟨start, p, b, init, rep, blocks, -, left, right, qtt, size, alignment, same, count⟩ :=
    lfInitStack_spec positive some_in_block padded (by omega)
  refine ⟨start, [(p, b)], init, ?_, blocks, qtt, size, alignment, count⟩
  exact {
    rep := rep
    padded := same.trans size.symm
    positive := by rw [size]; exact positive
    fits := by rw [size, blocks]; exact fits
    nonempty := by simp
    right := by simpa using right
    full := by simp
    empty := by simp
    sized := by simp
    tiles := tilesDeck_singleton.mpr (left.trans right.symm)
    reads := by simp }

end Stack.Holds

end LowFlow
