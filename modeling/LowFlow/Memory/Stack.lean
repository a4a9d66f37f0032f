import LowFlow.Memory.Contents

/-!
# Stacks

The functions of `core/memory/stack.c`, and what each does to the deck of the
stack's arena. A stack grows at the head of its arena. A slot is an element's
size wide when it is pushed and its padded size wide when it is popped.
-/

set_option autoImplicit false

namespace LowFlow

open Library

variable {β : Type}

/-- `LF_Stack`. -/
structure Stack (β : Type) where
  arena : Arena β
  elemQttInBlock : ℕ
  elemSize : ℕ
  elemAlignment : ℕ
  elemPaddedSize : ℕ
  elemCount : ℕ

/-- A stack as it is declared. -/
def Stack.declared (malloc : Allocator β) (elemQttInBlock elemSize elemAlignment : ℕ) : Stack β :=
  { arena := Arena.declared malloc 0 .right, elemQttInBlock, elemSize, elemAlignment,
    elemPaddedSize := 0, elemCount := 0 }

/-- An element's size with the padding that aligns the next one. The remainder
by zero is undefined. -/
def paddedSize (elemSize elemAlignment : ℕ) : Option ℕ :=
  if elemAlignment = 0 then none
  else
    let padding := (elemAlignment - elemSize % elemAlignment) % elemAlignment
    some (sizeWrap (elemSize + padding))

theorem paddedSize_lt {elemSize elemAlignment elemPaddedSize : ℕ}
    (padded : paddedSize elemSize elemAlignment = some elemPaddedSize) :
    elemPaddedSize < sizeModulus := by
  simp only [paddedSize] at padded
  split at padded
  · cases padded
  · cases padded
    exact sizeWrap_lt _

/-- An element whose size is a multiple of its alignment is not padded. -/
theorem paddedSize_of_dvd {elemSize elemAlignment : ℕ} (aligned : elemAlignment ∣ elemSize)
    (positive : 0 < elemSize) (small : elemSize < sizeModulus) :
    paddedSize elemSize elemAlignment = some elemSize := by
  have nonzero : elemAlignment ≠ 0 := fun zero => by
    subst zero
    exact absurd (Nat.eq_zero_of_zero_dvd aligned) (Nat.ne_of_gt positive)
  simp [paddedSize, nonzero, Nat.mod_eq_zero_of_dvd aligned, sizeWrap_of_lt small]

def lfInitStack (stack : Stack β) : Option (Stack β) := do
  if stack.elemSize = 0 ∨ stack.elemQttInBlock = 0 then none
  let elemPaddedSize ← paddedSize stack.elemSize stack.elemAlignment
  let arena ← lfInitArena
    { stack.arena with
      blockSize := sizeWrap (stack.elemQttInBlock * elemPaddedSize)
      blockOffset := .right }
  some { stack with elemCount := 0, elemPaddedSize, arena }

def lfAllocStackElem (stack : Stack β) : Option (Ptr × Stack β) := do
  let (elem, arena) ← lfArenaAllocAtHead stack.arena stack.elemSize
  some (elem, { stack with arena, elemCount := stack.elemCount + 1 })

def lfResetStack (stack : Stack β) : Option (Stack β) := do
  some { stack with arena := ← lfResetArena stack.arena }

/-- The answer is `none` where the code returns `NULL`. -/
def lfPopFromStack (stack : Stack β) : Option (Option Ptr × Stack β) := do
  if stack.elemCount = 0 then some (none, stack)
  else
    let headBlock ← stack.arena.headBlock
    let (headBlock, arena) ←
      if lfIsBlockEmpty (← stack.arena.heap.block headBlock) then
        lfDeallocArenaHeadBlock stack.arena
      else some (some headBlock, stack.arena)
    let headBlock ← headBlock
    let block ← arena.heap.block headBlock
    let newLeftOffset := block.leftOffset + stack.elemPaddedSize
    let heap ← arena.heap.modify headBlock fun b =>
      { b with
        rightOffset := if b.rightOffset < newLeftOffset then newLeftOffset else b.rightOffset
        leftOffset := newLeftOffset }
    some (some ⟨headBlock, block.leftOffset⟩,
      { stack with arena := { arena with heap }, elemCount := stack.elemCount - 1 })

def lfIsStackEmpty (stack : Stack β) : Bool :=
  stack.elemCount = 0

/-- Writing through the pointer that an allocation returned. -/
def Stack.store (stack : Stack β) (ptr : Ptr) (bytes : List β) : Option (Stack β) := do
  let heap ← stack.arena.heap.store ptr bytes
  some { stack with arena := { stack.arena with heap } }

/-- Allocating a slot and writing to it. -/
def Stack.push (stack : Stack β) (bytes : List β) : Option (Ptr × Stack β) := do
  let (ptr, stack) ← lfAllocStackElem stack
  some (ptr, ← stack.store ptr bytes)

/-- What no operation on a stack changes. -/
structure Stack.Keeps (stack stack' : Stack β) : Prop where
  arena : stack.arena.Keeps stack'.arena
  qtt : stack'.elemQttInBlock = stack.elemQttInBlock
  size : stack'.elemSize = stack.elemSize
  alignment : stack'.elemAlignment = stack.elemAlignment
  padded : stack'.elemPaddedSize = stack.elemPaddedSize

theorem Stack.Keeps.refl (stack : Stack β) : stack.Keeps stack :=
  ⟨.refl _, rfl, rfl, rfl, rfl⟩

/-- A change of the arena alone. -/
theorem Stack.Keeps.of_arena {stack : Stack β} {arena : Arena β} (keeps : stack.arena.Keeps arena) :
    stack.Keeps { stack with arena } :=
  ⟨keeps, rfl, rfl, rfl, rfl⟩

theorem Stack.Keeps.trans {one two three : Stack β} (first : one.Keeps two)
    (second : two.Keeps three) : one.Keeps three where
  arena := first.arena.trans second.arena
  qtt := second.qtt.trans first.qtt
  size := second.size.trans first.size
  alignment := second.alignment.trans first.alignment
  padded := second.padded.trans first.padded

/-! ## Pushing -/

theorem lfAllocStackElem_spec {stack : Stack β} {deck : Deck β}
    (rep : Represents stack.arena deck) (positive : 0 < stack.elemSize)
    (fits : stack.elemSize ≤ stack.arena.blockSize) :
    ∃ ptr stack' deck', lfAllocStackElem stack = some (ptr, stack') ∧
      AllocHead stack.arena stack.elemSize deck ptr deck' ∧ Represents stack'.arena deck' ∧
      stack.Keeps stack' ∧ stack'.elemCount = stack.elemCount + 1 := by
  obtain ⟨ptr, arena, deck', alloc, change, rep', keeps, -⟩ := rep.allocAtHead positive fits
  exact ⟨ptr, { stack with arena, elemCount := stack.elemCount + 1 }, deck',
    by simp [lfAllocStackElem, alloc], change, rep', ⟨keeps, rfl, rfl, rfl, rfl⟩, rfl⟩

theorem Stack.store_spec {stack : Stack β} {deck : Deck β} (rep : Represents stack.arena deck)
    {p : BlockPtr} (member : p ∈ ptrs deck) {offset : ℕ} {bytes : List β}
    (inside : offset + bytes.length ≤ stack.arena.blockSize) :
    ∃ stack', stack.store ⟨p, offset⟩ bytes = some stack' ∧
      Represents stack'.arena (deck.modify p fun b => b.write offset bytes) ∧
      stack.Keeps stack' ∧ stack'.elemCount = stack.elemCount := by
  obtain ⟨heap, stored, rep', keeps⟩ := rep.store member inside
  exact ⟨{ stack with arena := { stack.arena with heap } }, by simp [Stack.store, stored], rep',
    ⟨keeps, rfl, rfl, rfl, rfl⟩, rfl⟩

/-! ## Popping -/

/-- The head block after a slot was popped from it. -/
def Slab.popped (b : Slab β) (width : ℕ) : Slab β :=
  { b with
    rightOffset := if b.rightOffset < b.leftOffset + width then b.leftOffset + width
      else b.rightOffset
    leftOffset := b.leftOffset + width }

/-- A pop inside the used range moves the left offset only. -/
theorem popped_of_le {b : Slab β} {width : ℕ} (inside : b.leftOffset + width ≤ b.rightOffset) :
    b.popped width = { b with leftOffset := b.leftOffset + width } := by
  simp [Slab.popped, Nat.not_lt.mpr inside]

theorem Represents.popHead {arena : Arena β} {p : BlockPtr} {b : Slab β} {rest : Deck β}
    (rep : Represents arena ((p, b) :: rest)) (width : ℕ) :
    ∃ heap, (arena.heap.modify p fun c =>
        { c with
          rightOffset := if c.rightOffset < b.leftOffset + width then b.leftOffset + width
            else c.rightOffset
          leftOffset := b.leftOffset + width }) = some heap ∧
      Represents { arena with heap } ((p, b.popped width) :: rest) ∧
      arena.Keeps { arena with heap } := by
  have missing : p ∉ ptrs rest := (List.nodup_cons.mp rep.distinct).1
  have changed := modify_cons p b rest (fun c =>
    { c with
      rightOffset := if c.rightOffset < b.leftOffset + width then b.leftOffset + width
        else c.rightOffset
      leftOffset := b.leftOffset + width }) missing
  rw [Slab.popped, ← changed]
  exact rep.modify (by simp) (fun _ => rfl) (fun _ => rfl) (fun _ => rfl) (fun _ => rfl)
    (fun _ => rfl)

/-- A pop takes a slot from the head block when that is not empty. -/
theorem lfPopFromStack_head {stack : Stack β} {p : BlockPtr} {b : Slab β} {rest : Deck β}
    (counted : stack.elemCount ≠ 0) (rep : Represents stack.arena ((p, b) :: rest))
    (nonempty : b.leftOffset ≠ b.rightOffset) :
    ∃ stack', lfPopFromStack stack = some (some ⟨p, b.leftOffset⟩, stack') ∧
      Represents stack'.arena ((p, b.popped stack.elemPaddedSize) :: rest) ∧
      stack.Keeps stack' ∧ stack'.elemCount = stack.elemCount - 1 := by
  obtain ⟨node, found, rfl⟩ := rep.lookup (p := p) (b := b) (by simp)
  obtain ⟨heap, moved, rep', keeps⟩ := rep.popHead stack.elemPaddedSize
  refine ⟨{ stack with
      arena := { stack.arena with heap }, elemCount := stack.elemCount - 1 }, ?_, rep',
    ⟨keeps, rfl, rfl, rfl, rfl⟩, rfl⟩
  simp [lfPopFromStack, counted, rep.head_eq, found, lfIsBlockEmpty, nonempty, moved]

/-- With an empty head block, a pop frees it and takes a slot from the next. -/
theorem lfPopFromStack_next {stack : Stack β} {p q : BlockPtr} {b c : Slab β} {rest : Deck β}
    (counted : stack.elemCount ≠ 0)
    (rep : Represents stack.arena ((p, b) :: (q, c) :: rest))
    (empty : b.leftOffset = b.rightOffset) :
    ∃ arena stack', Represents arena ((q, c) :: rest) ∧ stack.arena.Keeps arena ∧
      lfPopFromStack stack = some (some ⟨q, c.leftOffset⟩, stack') ∧
      Represents stack'.arena ((q, c.popped stack.elemPaddedSize) :: rest) ∧
      Stack.Keeps { stack with arena } stack' ∧ stack'.elemCount = stack.elemCount - 1 := by
  obtain ⟨node, found, rfl⟩ := rep.lookup (p := p) (b := b) (by simp)
  obtain ⟨arena, dealloc, rep₁, keeps₁, -⟩ := rep.deallocHead
  obtain ⟨next, foundNext, rfl⟩ := rep₁.lookup (p := q) (b := c) (by simp)
  obtain ⟨heap, moved, rep', keeps⟩ := rep₁.popHead stack.elemPaddedSize
  refine ⟨arena, { stack with
      arena := { arena with heap }, elemCount := stack.elemCount - 1 }, rep₁, keeps₁, ?_, rep',
    ⟨keeps, rfl, rfl, rfl, rfl⟩, rfl⟩
  have isEmpty : lfIsBlockEmpty node = true := decide_eq_true empty
  simp [lfPopFromStack, counted, rep.head_eq, found, isEmpty, dealloc, foundNext, moved]

/-- The last block is kept also when it is empty. -/
theorem lfPopFromStack_single {stack : Stack β} {p : BlockPtr} {b : Slab β}
    (counted : stack.elemCount ≠ 0) (rep : Represents stack.arena [(p, b)]) :
    ∃ stack', lfPopFromStack stack = some (some ⟨p, b.leftOffset⟩, stack') ∧
      Represents stack'.arena [(p, b.popped stack.elemPaddedSize)] ∧
      stack.Keeps stack' ∧ stack'.elemCount = stack.elemCount - 1 := by
  obtain ⟨node, found, rfl⟩ := rep.lookup (p := p) (b := b) (by simp)
  obtain ⟨heap, moved, rep', keeps⟩ := rep.popHead stack.elemPaddedSize
  refine ⟨{ stack with
      arena := { stack.arena with heap }, elemCount := stack.elemCount - 1 }, ?_, rep',
    ⟨keeps, rfl, rfl, rfl, rfl⟩, rfl⟩
  simp [lfPopFromStack, counted, rep.head_eq, found, rep.deallocHead_single, moved]

/-- An empty stack answers `NULL`. -/
theorem lfPopFromStack_empty {stack : Stack β} (empty : stack.elemCount = 0) :
    lfPopFromStack stack = some (none, stack) := by
  simp [lfPopFromStack, empty]

/-- **What a pop does**: nothing to a stack that counts no elements. Else it takes a slot from
the head block, or from the one behind it when the head block is empty and not the only one. -/
theorem lfPopFromStack_cases {stack stack' : Stack β} {answer : Option Ptr} {deck : Deck β}
    (rep : Represents stack.arena deck) (popped : lfPopFromStack stack = some (answer, stack')) :
    (stack.elemCount = 0 ∧ answer = none ∧ stack' = stack) ∨
      ∃ p b rest,
        (deck = (p, b) :: rest ∧ (b.leftOffset = b.rightOffset → rest = []) ∨
          ∃ q c, deck = (q, c) :: (p, b) :: rest ∧ c.leftOffset = c.rightOffset) ∧
        stack.elemCount ≠ 0 ∧ answer = some ⟨p, b.leftOffset⟩ ∧
        Represents stack'.arena ((p, b.popped stack.elemPaddedSize) :: rest) ∧
        stack.Keeps stack' ∧ stack'.elemCount = stack.elemCount - 1 := by
  by_cases counted : stack.elemCount = 0
  · rw [lfPopFromStack_empty counted] at popped
    obtain ⟨rfl, rfl⟩ := Prod.mk.inj (Option.some.inj popped)
    exact .inl ⟨counted, rfl, rfl⟩
  right
  obtain ⟨⟨p, b⟩, rest, rfl⟩ := List.exists_cons_of_ne_nil rep.nonempty
  by_cases empty : b.leftOffset = b.rightOffset
  · cases rest with
    | nil =>
        obtain ⟨next, pop, rep', keeps, count⟩ := lfPopFromStack_single counted rep
        obtain ⟨rfl, rfl⟩ := Prod.mk.inj (Option.some.inj (popped.symm.trans pop))
        exact ⟨p, b, [], .inl ⟨rfl, fun _ => rfl⟩, counted, rfl, rep', keeps, count⟩
    | cons second rest =>
        obtain ⟨q, c⟩ := second
        obtain ⟨arena, next, -, keeps, pop, rep', keeps', count⟩ :=
          lfPopFromStack_next counted rep empty
        obtain ⟨rfl, rfl⟩ := Prod.mk.inj (Option.some.inj (popped.symm.trans pop))
        exact ⟨q, c, rest, .inr ⟨p, b, rfl, empty⟩, counted, rfl, rep',
          (Stack.Keeps.of_arena keeps).trans keeps', count⟩
  · obtain ⟨next, pop, rep', keeps, count⟩ := lfPopFromStack_head counted rep empty
    obtain ⟨rfl, rfl⟩ := Prod.mk.inj (Option.some.inj (popped.symm.trans pop))
    exact ⟨p, b, rest, .inl ⟨rfl, fun none => absurd none empty⟩, counted, rfl, rep', keeps, count⟩

/-- Taking a slot from the head block leaves the size of the arena as it is. -/
theorem lfPopFromStack_size {stack stack' : Stack β} {answer : Option Ptr} {p : BlockPtr}
    {b : Slab β} {rest : Deck β} (rep : Represents stack.arena ((p, b) :: rest))
    (nonempty : b.leftOffset ≠ b.rightOffset)
    (popped : lfPopFromStack stack = some (answer, stack')) :
    stack'.arena.size = stack.arena.size := by
  obtain ⟨node, found, rfl⟩ := rep.lookup (p := p) (b := b) (by simp)
  by_cases counted : stack.elemCount = 0
  · rw [lfPopFromStack_empty counted] at popped
    cases popped
    rfl
  · obtain ⟨heap, moved, -, -⟩ := rep.popHead stack.elemPaddedSize
    simp [lfPopFromStack, counted, rep.head_eq, found, lfIsBlockEmpty, nonempty, moved] at popped
    rw [← popped.2]

/-- The operations that hand out slots of a stack. -/
inductive SlotOp where
  | allocStackElem
  | popFromStack
deriving DecidableEq

/-- One operation, with the slot it returns. -/
def slotStep : SlotOp → Stack β → Option (Option Ptr × Stack β)
  | .allocStackElem, stack => do
      let (elem, stack) ← lfAllocStackElem stack
      some (some elem, stack)
  | .popFromStack, stack => lfPopFromStack stack

/-- A slot is allocated only when the elements fit in a block. -/
theorem lfAllocStackElem_accepts {stack stack' : Stack β} {ptr : Ptr}
    (alloc : lfAllocStackElem stack = some (ptr, stack')) :
    0 < stack.elemSize ∧ stack.elemSize ≤ stack.arena.blockSize := by
  by_contra refused
  have wrong : stack.elemSize = 0 ∨ stack.arena.blockSize < stack.elemSize := by omega
  simp [lfAllocStackElem, lfArenaAllocAtHead, wrong] at alloc

/-- What an allocation that returns has done. -/
theorem slotStep_alloc {stack stack' : Stack β} {answer : Option Ptr} {deck : Deck β}
    (rep : Represents stack.arena deck)
    (taken : slotStep .allocStackElem stack = some (answer, stack')) :
    0 < stack.elemSize ∧ stack.elemSize ≤ stack.arena.blockSize ∧ ∃ ptr deck',
      answer = some ptr ∧ lfAllocStackElem stack = some (ptr, stack') ∧
      AllocHead stack.arena stack.elemSize deck ptr deck' ∧ Represents stack'.arena deck' ∧
      stack.Keeps stack' ∧ stack'.elemCount = stack.elemCount + 1 := by
  simp only [slotStep, Option.bind_eq_bind, Option.bind_eq_some_iff, Option.some.injEq,
    Prod.mk.injEq, Prod.exists] at taken
  obtain ⟨ptr, pushed, alloc, rfl, rfl⟩ := taken
  obtain ⟨positive, fits⟩ := lfAllocStackElem_accepts alloc
  obtain ⟨ptr', stack', deck', alloc', change, rep', keeps, count⟩ :=
    lfAllocStackElem_spec rep positive fits
  obtain ⟨rfl, rfl⟩ := Prod.mk.inj (Option.some.inj (alloc.symm.trans alloc'))
  exact ⟨positive, fits, ptr, deck', rfl, alloc, change, rep', keeps, count⟩

/-! ## Initializing and resetting -/

theorem lfInitStack_spec {stack : Stack β} {elemPaddedSize : ℕ} (positive : 0 < stack.elemSize)
    (some_in_block : 0 < stack.elemQttInBlock)
    (padded : paddedSize stack.elemSize stack.elemAlignment = some elemPaddedSize)
    (blocks : 0 < sizeWrap (stack.elemQttInBlock * elemPaddedSize)) :
    ∃ stack' p b, lfInitStack stack = some stack' ∧ Represents stack'.arena [(p, b)] ∧
      stack'.arena.blockSize = sizeWrap (stack.elemQttInBlock * elemPaddedSize) ∧
      stack'.arena.blockOffset = .right ∧ b.leftOffset = stack'.arena.blockSize ∧
      b.rightOffset = stack'.arena.blockSize ∧ stack'.elemQttInBlock = stack.elemQttInBlock ∧
      stack'.elemSize = stack.elemSize ∧ stack'.elemAlignment = stack.elemAlignment ∧
      stack'.elemPaddedSize = elemPaddedSize ∧ stack'.elemCount = 0 := by
  obtain ⟨arena, init, rep, size, offset, -, -⟩ := lfInitArena_spec
    { stack.arena with
      blockSize := sizeWrap (stack.elemQttInBlock * elemPaddedSize), blockOffset := .right } blocks
  have accepted : ¬ (stack.elemSize = 0 ∨ stack.elemQttInBlock = 0) := by omega
  refine ⟨{ stack with elemCount := 0, elemPaddedSize, arena }, _, _,
    by simp [lfInitStack, accepted, padded, init], rep, size, offset, ?_, ?_, rfl, rfl, rfl, rfl,
    rfl⟩
  · exact size.symm
  · exact size.symm

/-- A stack is initialized only with elements and room for them. -/
theorem lfInitStack_accepts {stack start : Stack β} (init : lfInitStack stack = some start) :
    0 < stack.elemSize ∧ 0 < stack.elemQttInBlock ∧ ∃ padded,
      paddedSize stack.elemSize stack.elemAlignment = some padded ∧
      0 < sizeWrap (stack.elemQttInBlock * padded) := by
  simp only [lfInitStack, Option.bind_eq_bind] at init
  split at init
  · cases init
  · obtain ⟨padded, width, init⟩ := Option.bind_eq_some_iff.mp init
    obtain ⟨arena, initArena, -⟩ := Option.bind_eq_some_iff.mp init
    exact ⟨by omega, by omega, padded, width, lfInitArena_accepts initArena⟩

theorem lfResetStack_spec {stack : Stack β} {deck : Deck β} (rep : Represents stack.arena deck) :
    ∃ stack', lfResetStack stack = some stack' ∧
      Represents stack'.arena
        (deck.restart (startOffset stack.arena.blockOffset stack.arena.blockSize)) ∧
      stack.Keeps stack' ∧ stack'.elemCount = stack.elemCount := by
  obtain ⟨arena, reset, rep', keeps, -⟩ := rep.reset
  exact ⟨{ stack with arena }, by simp [lfResetStack, reset], rep', ⟨keeps, rfl, rfl, rfl, rfl⟩,
    rfl⟩

end LowFlow
