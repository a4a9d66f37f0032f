import LowFlow.Memory.Heap

/-!
# Arenas

The functions of `core/memory/arena.c`. An arena is a chain of equal-size
blocks that grows at both ends. Each block has a used range from its left to
its right offset: an allocation at the head moves the left offset of the head
block down, an allocation at the tail moves the right offset of the tail block
up, and a request that does not fit opens a new block at that end.
-/

set_option autoImplicit false

namespace LowFlow

/-- Where the used range of a first or reset block starts. -/
inductive MemBlockOffset where
  | middle
  | left
  | right
deriving DecidableEq, Repr

/-- `LF_Arena`, with the part of the heap that holds its blocks. -/
structure Arena (β : Type) where
  headBlock : Option BlockPtr
  tailBlock : Option BlockPtr
  blockCount : ℕ
  blockSize : ℕ
  size : ℕ
  blockOffset : MemBlockOffset
  cursorBlock : Option BlockPtr
  heap : Heap β

variable {β : Type}

/-- An arena as it is declared, with the block size and the start offset set. -/
def Arena.declared (malloc : Allocator β) (blockSize : ℕ) (blockOffset : MemBlockOffset) :
    Arena β :=
  { headBlock := none, tailBlock := none, blockCount := 0, blockSize, size := 0, blockOffset,
    cursorBlock := none, heap := Heap.empty malloc }

/-- `(float)size`: the number with 24 significant bits that is closest to it, and
the even one of two. -/
def floatOfSize (size : ℕ) : ℕ :=
  let ulp := 1 <<< (Nat.log2 size - 23)
  let below := size / ulp
  if 2 * (size % ulp) < ulp ∨ 2 * (size % ulp) = ulp ∧ below % 2 = 0 then below * ulp
  else (below + 1) * ulp

example : floatOfSize 16777217 = 16777216 := by decide

/-- The offset at which a block of an arena starts empty. The middle is
`(size_t)(block_size * 0.5f)`. -/
def startOffset (strategy : MemBlockOffset) (blockSize : ℕ) : ℕ :=
  match strategy with
  | .left => 0
  | .right => blockSize
  | .middle => floatOfSize blockSize / 2

theorem floatOfSize_le (size : ℕ) : floatOfSize size ≤ 2 * size := by
  simp only [floatOfSize]
  generalize 1 <<< (Nat.log2 size - 23) = ulp
  have whole := Nat.div_add_mod size ulp
  rw [Nat.mul_comm] at whole
  split
  · omega
  · rw [Nat.add_mul]
    omega

/-- Rounding adds no more than half of the size. -/
theorem floatOfSize_le_half {size : ℕ} (positive : 0 < size) :
    2 * floatOfSize size ≤ 3 * size := by
  have small : 1 <<< (Nat.log2 size - 23) ≤ size := by
    rw [Nat.one_shiftLeft]
    exact Nat.le_trans (Nat.pow_le_pow_right Nat.two_pos (Nat.sub_le ..))
      (Nat.log2_self_le (Nat.ne_of_gt positive))
  simp only [floatOfSize]
  generalize 1 <<< (Nat.log2 size - 23) = ulp at small
  have whole := Nat.div_add_mod size ulp
  rw [Nat.mul_comm (size / ulp), Nat.mul_comm (size / ulp + 1), Nat.mul_add]
  split <;> omega

theorem startOffset_le (strategy : MemBlockOffset) (blockSize : ℕ) :
    startOffset strategy blockSize ≤ blockSize := by
  cases strategy with
  | left => exact Nat.zero_le _
  | right => exact le_rfl
  | middle =>
      have bound := floatOfSize_le blockSize
      simp only [startOffset]
      omega

def lfSetBlockOffset (arena : Arena β) (block : MemBlock β) : MemBlock β :=
  { block with
    leftOffset := startOffset arena.blockOffset arena.blockSize
    rightOffset := startOffset arena.blockOffset arena.blockSize }

def lfAllocArenaHeadBlock (arena : Arena β) : Option (BlockPtr × Arena β) := do
  if arena.blockSize = 0 then none
  let newBlock := arena.heap.mallocHeader.1
  let data := (arena.heap.mallocHeader.2.mallocArea arena.blockSize).1
  let heap := (arena.heap.mallocHeader.2.mallocArea arena.blockSize).2
  let heap ← match arena.headBlock with
    | some oldHeadBlock => heap.modify oldHeadBlock fun b => { b with prev := some newBlock }
    | none => some heap
  let heap ← heap.modify newBlock fun _ =>
    { data, rightOffset := arena.blockSize, leftOffset := arena.blockSize, size := arena.blockSize,
      prev := none, next := arena.headBlock }
  some (newBlock,
    { arena with blockCount := arena.blockCount + 1, headBlock := some newBlock, heap })

def lfAllocArenaTailBlock (arena : Arena β) : Option (BlockPtr × Arena β) := do
  if arena.blockSize = 0 then none
  let newBlock := arena.heap.mallocHeader.1
  let data := (arena.heap.mallocHeader.2.mallocArea arena.blockSize).1
  let heap := (arena.heap.mallocHeader.2.mallocArea arena.blockSize).2
  let heap ← match arena.tailBlock with
    | some oldTailBlock => heap.modify oldTailBlock fun b => { b with next := some newBlock }
    | none => some heap
  let heap ← heap.modify newBlock fun _ =>
    { data, rightOffset := 0, leftOffset := 0, size := arena.blockSize,
      prev := arena.tailBlock, next := none }
  some (newBlock,
    { arena with blockCount := arena.blockCount + 1, tailBlock := some newBlock, heap })

/-- The caller has set `block_size` and `block_offset`. -/
def lfInitArena (arena : Arena β) : Option (Arena β) := do
  let arena := { arena with blockCount := 0, headBlock := none, tailBlock := none }
  let (headBlock, arena) ← lfAllocArenaHeadBlock arena
  let arena := { arena with tailBlock := arena.headBlock }
  let heap ← arena.heap.modify headBlock (lfSetBlockOffset arena)
  some { arena with heap, cursorBlock := arena.headBlock, size := 0 }

def lfArenaAllocAtHead (arena : Arena β) (size : ℕ) : Option (Ptr × Arena β) := do
  if size = 0 ∨ arena.blockSize < size then none
  let headBlock ← arena.headBlock
  let remainingSize := (← arena.heap.block headBlock).leftOffset
  let (headBlock, arena) ←
    if remainingSize < size then lfAllocArenaHeadBlock arena else some (headBlock, arena)
  let filledOffset := (← arena.heap.block headBlock).leftOffset - size
  let heap ← arena.heap.modify headBlock fun b => { b with leftOffset := filledOffset }
  some (⟨headBlock, filledOffset⟩, { arena with heap, size := sizeWrap (arena.size + size) })

def lfArenaAllocAtTail (arena : Arena β) (size : ℕ) : Option (Ptr × Arena β) := do
  if size = 0 ∨ arena.blockSize < size then none
  let tailBlock ← arena.tailBlock
  let block ← arena.heap.block tailBlock
  let remainingSize := sizeSub block.size block.rightOffset
  let (tailBlock, arena) ←
    if remainingSize < size then lfAllocArenaTailBlock arena else some (tailBlock, arena)
  let rightOffset := (← arena.heap.block tailBlock).rightOffset
  let heap ← arena.heap.modify tailBlock fun b => { b with rightOffset := rightOffset + size }
  some (⟨tailBlock, rightOffset⟩, { arena with heap, size := sizeWrap (arena.size + size) })

def lfDeallocArenaBlock (arena : Arena β) (block : BlockPtr) : Option (Arena β) := do
  let b ← arena.heap.block block
  let heap ← match b.prev with
    | some prevBlock => arena.heap.modify prevBlock fun p => { p with next := b.next }
    | none => some arena.heap
  let heap ← match b.next with
    | some nextBlock => heap.modify nextBlock fun n => { n with prev := b.prev }
    | none => some heap
  let heap ← heap.free block
  some
    { arena with
      blockCount := arena.blockCount - 1
      size := sizeSub arena.size b.size
      heap }

def lfDeallocArenaHeadBlock (arena : Arena β) : Option (Option BlockPtr × Arena β) := do
  if arena.blockCount ≤ 1 then
    some (arena.headBlock, arena)
  else
    let headBlock ← arena.headBlock
    let nextBlock ← (← arena.heap.block headBlock).next
    let arena ← lfDeallocArenaBlock arena headBlock
    some (some nextBlock, { arena with headBlock := some nextBlock })

def lfDeallocArenaTailBlock (arena : Arena β) : Option (Option BlockPtr × Arena β) := do
  if arena.blockCount ≤ 1 then
    some (arena.tailBlock, arena)
  else
    let tailBlock ← arena.tailBlock
    let prevBlock ← (← arena.heap.block tailBlock).prev
    let arena ← lfDeallocArenaBlock arena tailBlock
    some (some prevBlock, { arena with tailBlock := some prevBlock })

/-- The loop of `lf_reset_arena` from a block on. The blocks of a chain are
distinct, so `serial` bounds their number. -/
def resetBlocks (arena : Arena β) : ℕ → Option BlockPtr → Heap β → Option (Heap β)
  | _, none, heap => some heap
  | 0, some _, _ => none
  | fuel + 1, some curBlock, heap => do
      let b ← heap.block curBlock
      let heap ← heap.modify curBlock (lfSetBlockOffset arena)
      resetBlocks arena fuel b.next heap

def lfResetArena (arena : Arena β) : Option (Arena β) := do
  let heap ← resetBlocks arena arena.heap.serial arena.headBlock arena.heap
  some { arena with heap, size := 0 }

def lfIsBlockEmpty (block : MemBlock β) : Bool :=
  block.leftOffset = block.rightOffset

end LowFlow
