import LowFlow.Memory.Lifo
import Mathlib.Data.List.Pairwise

/-!
# Lists

The functions of `core/memory/list.c`. A list grows at the tail of its arena.
To find the block that an element lies in, the lookups compare addresses, from
the cursor block when the element lies in it and else from the head block on.
-/

set_option autoImplicit false

namespace LowFlow

open Library

variable {β : Type}

/-- `LF_List`. -/
structure LFList (β : Type) where
  arena : Arena β
  elemQttInBlock : ℕ
  elemSize : ℕ
  elemAlignment : ℕ
  elemPaddedSize : ℕ
  elemCount : ℕ

/-- A list as it is declared. -/
def LFList.declared (malloc : Allocator β) (elemQttInBlock elemSize elemAlignment : ℕ) : LFList β :=
  { arena := Arena.declared malloc 0 .middle, elemQttInBlock, elemSize, elemAlignment,
    elemPaddedSize := 0, elemCount := 0 }

def lfInitList (list : LFList β) : Option (LFList β) := do
  if list.elemSize = 0 ∨ list.elemQttInBlock = 0 then none
  let elemPaddedSize ← paddedSize list.elemSize list.elemAlignment
  let arena ← lfInitArena
    { list.arena with
      blockSize := sizeWrap (list.elemQttInBlock * elemPaddedSize)
      blockOffset := .middle }
  some { list with elemCount := 0, elemPaddedSize, arena }

def lfAllocListElems (list : LFList β) (qtt : ℕ) : Option (Ptr × LFList β) := do
  if qtt = 0 then none
  let totalSize := sizeWrap (qtt * list.elemPaddedSize)
  let (elem, arena) ← lfArenaAllocAtTail list.arena totalSize
  some (elem, { list with arena, elemCount := list.elemCount + qtt })

def lfAllocListElem (list : LFList β) : Option (Ptr × LFList β) :=
  lfAllocListElems list 1

def lfResetList (list : LFList β) : Option (LFList β) := do
  some { list with arena := ← lfResetArena list.arena }

/-- What initializing a list did. -/
theorem lfInitList_eq_some {list start : LFList β} (init : lfInitList list = some start) :
    0 < list.elemSize ∧ 0 < list.elemQttInBlock ∧ ∃ padded arena,
      paddedSize list.elemSize list.elemAlignment = some padded ∧
      lfInitArena
        { list.arena with
          blockSize := sizeWrap (list.elemQttInBlock * padded), blockOffset := .middle } =
        some arena ∧
      start = { list with elemCount := 0, elemPaddedSize := padded, arena } := by
  simp only [lfInitList, Option.bind_eq_bind] at init
  split at init
  · cases init
  · obtain ⟨padded, width, init⟩ := Option.bind_eq_some_iff.mp init
    obtain ⟨arena, initArena, same⟩ := Option.bind_eq_some_iff.mp init
    cases same
    exact ⟨by omega, by omega, padded, arena, width, initArena, rfl⟩

/-- What an allocation of elements that was made did. -/
theorem lfAllocListElems_eq_some {list list' : LFList β} {qtt : ℕ} {elem : Ptr}
    (alloc : lfAllocListElems list qtt = some (elem, list')) :
    0 < qtt ∧ ∃ arena,
      lfArenaAllocAtTail list.arena (sizeWrap (qtt * list.elemPaddedSize)) = some (elem, arena) ∧
      list' = { list with arena, elemCount := list.elemCount + qtt } := by
  simp only [lfAllocListElems, Option.bind_eq_bind] at alloc
  split at alloc
  · cases alloc
  · rename_i some_elems
    obtain ⟨⟨ptr, arena⟩, allocated, same⟩ := Option.bind_eq_some_iff.mp alloc
    cases same
    exact ⟨Nat.pos_of_ne_zero some_elems, arena, allocated, rfl⟩

/-- A list with its cursor moved. -/
def LFList.withCursor (list : LFList β) (cursorBlock : Option BlockPtr) : LFList β :=
  { list with arena := { list.arena with cursorBlock } }

@[simp] theorem withCursor_heap (list : LFList β) (cursorBlock : Option BlockPtr) :
    (list.withCursor cursorBlock).arena.heap = list.arena.heap := rfl

@[simp] theorem withCursor_elemPaddedSize (list : LFList β) (cursorBlock : Option BlockPtr) :
    (list.withCursor cursorBlock).elemPaddedSize = list.elemPaddedSize := rfl

@[simp] theorem withCursor_elemSize (list : LFList β) (cursorBlock : Option BlockPtr) :
    (list.withCursor cursorBlock).elemSize = list.elemSize := rfl

/-- Moving the cursor plays no part in what the arena represents. -/
theorem Represents.withCursor {list : LFList β} {deck : Deck β}
    (rep : Represents list.arena deck) (cursorBlock : Option BlockPtr) :
    Represents (list.withCursor cursorBlock).arena deck :=
  ⟨rep.chain, rep.distinct, rep.tail, rep.count, rep.nonempty, rep.positive, rep.sized, rep.extent,
    rep.known, rep.owned, rep.apart⟩

/-- Whether the address is that of a slot in the block's used range. -/
def Slab.Spans (b : Slab β) (width : ℕ) (address : ℤ) : Prop :=
  (b.data.base + b.leftOffset : ℤ) ≤ address ∧
    address ≤ (b.data.base + b.rightOffset : ℤ) - width

instance (b : Slab β) (width : ℕ) (address : ℤ) : Decidable (b.Spans width address) :=
  inferInstanceAs (Decidable (_ ∧ _))

/-- The loop of the lookups: at most as many blocks as the arena counts are
passed over. The block after them is the result, whether the address is in it or not. -/
def findBlock (heap : Heap β) (width : ℕ) (address : ℤ) :
    ℕ → Option BlockPtr → Option (Option BlockPtr)
  | 0, curBlock => some curBlock
  | fuel + 1, curBlock => do
      let block ← heap.block (← curBlock)
      if block.Spans width address then some curBlock
      else findBlock heap width address fuel block.next

/-- The block from which the lookups start. -/
def startBlock (list : LFList β) (address : ℤ) : Option (Option BlockPtr) := do
  let cursor ← list.arena.heap.block (← list.arena.cursorBlock)
  let isElemInCursorBlock : Prop :=
    (cursor.data.base + cursor.leftOffset : ℤ) ≤ address ∧
      address < (cursor.data.base + cursor.rightOffset : ℤ)
  some (if isElemInCursorBlock then list.arena.cursorBlock else list.arena.headBlock)

def lfGetNextListElem (list : LFList β) (elem : Ptr) : Option (Option Ptr × LFList β) := do
  let address ← list.arena.heap.address elem
  let curBlock ← findBlock list.arena.heap list.elemPaddedSize address list.arena.blockCount
    (← startBlock list address)
  match curBlock with
  | none => some (none, list)
  | some p =>
      let block ← list.arena.heap.block p
      let list := list.withCursor (some p)
      if address ≠ (block.data.base + block.rightOffset : ℤ) - list.elemPaddedSize then
        some (some ⟨elem.block, elem.offset + list.elemPaddedSize⟩, list)
      else
        match block.next with
        | none => some (none, list)
        | some nextBlock =>
            let _ ← list.arena.heap.block nextBlock
            some (some ⟨nextBlock, 0⟩, list.withCursor (some nextBlock))

def lfGetPrevListElem (list : LFList β) (elem : Ptr) : Option (Option Ptr × LFList β) := do
  let address ← list.arena.heap.address elem
  let curBlock ← findBlock list.arena.heap list.elemPaddedSize address list.arena.blockCount
    (← startBlock list address)
  match curBlock with
  | none => some (none, list)
  | some p =>
      let block ← list.arena.heap.block p
      let list := list.withCursor (some p)
      -- an element is taken to be the first when it starts where the block's data starts
      if address ≠ block.data.base then
        some (some ⟨elem.block, elem.offset - list.elemPaddedSize⟩, list)
      else
        match block.prev with
        | none => some (none, list)
        | some prevBlock =>
            let prev ← list.arena.heap.block prevBlock
            some (some ⟨prevBlock, (prev.rightOffset : ℤ) - list.elemPaddedSize⟩,
              list.withCursor (some prevBlock))

def lfGetFirstListElem (list : LFList β) : Option (Option Ptr × LFList β) := do
  if list.elemCount = 0 then some (none, list)
  else
    let headBlock ← list.arena.headBlock
    let block ← list.arena.heap.block headBlock
    some (some ⟨headBlock, block.leftOffset⟩, list.withCursor (some headBlock))

def lfGetLastListElem (list : LFList β) : Option (Option Ptr × LFList β) := do
  if list.elemCount = 0 then some (none, list)
  else
    let tailBlock ← list.arena.tailBlock
    let block ← list.arena.heap.block tailBlock
    some (some ⟨tailBlock, (block.rightOffset : ℤ) - list.elemPaddedSize⟩,
      list.withCursor (some tailBlock))

/-- The element that so many steps from the first one lead to. -/
def nthElem (list : LFList β) : ℕ → Option (Option Ptr × LFList β)
  | 0 => lfGetFirstListElem list
  | k + 1 => do
      let (elem, list) ← nthElem list k
      lfGetNextListElem list (← elem)

/-! ## Initializing -/

theorem lfInitList_spec (list : LFList β) {elemPaddedSize : ℕ} (positive : 0 < list.elemSize)
    (some_in_block : 0 < list.elemQttInBlock)
    (padded : paddedSize list.elemSize list.elemAlignment = some elemPaddedSize)
    (blocks : 0 < sizeWrap (list.elemQttInBlock * elemPaddedSize)) :
    ∃ list' p b, lfInitList list = some list' ∧ Represents list'.arena [(p, b)] ∧
      list'.arena.blockSize = sizeWrap (list.elemQttInBlock * elemPaddedSize) ∧
      list'.arena.blockOffset = .middle ∧ list'.arena.cursorBlock = some p ∧
      b.leftOffset = startOffset .middle list'.arena.blockSize ∧
      b.rightOffset = startOffset .middle list'.arena.blockSize ∧
      list'.elemQttInBlock = list.elemQttInBlock ∧ list'.elemSize = list.elemSize ∧
      list'.elemAlignment = list.elemAlignment ∧ list'.elemPaddedSize = elemPaddedSize ∧
      list'.elemCount = 0 := by
  obtain ⟨arena, init, rep, size, offset, cursor, -⟩ := lfInitArena_spec
    { list.arena with
      blockSize := sizeWrap (list.elemQttInBlock * elemPaddedSize)
      blockOffset := .middle } blocks
  have accepted : ¬ (list.elemSize = 0 ∨ list.elemQttInBlock = 0) := by omega
  refine ⟨{ list with elemCount := 0, elemPaddedSize, arena }, _, _,
    by simp [lfInitList, accepted, padded, init], rep, size, offset, cursor, ?_, ?_, rfl, rfl, rfl,
    rfl, rfl⟩
  · exact congrArg (startOffset .middle) size.symm
  · exact congrArg (startOffset .middle) size.symm

/-! ## The elements of a list -/

/-- The list has these elements, first to last, in these blocks. The elements
tile the blocks, and only the head block can be empty or start elsewhere than at
its left end. The link that leaves the last block is left open. -/
structure LFList.Lists (list : LFList β) (after : Option BlockPtr) (deck : Deck β)
    (elems : List Ptr) : Prop where
  chain : Segment (blockView β) list.arena.heap.block after none list.arena.headBlock deck
  distinct : (ptrs deck).Nodup
  tail : list.arena.tailBlock = (ptrs deck).getLast?
  blocks : list.arena.blockCount = deck.length
  cursor : ∃ p ∈ ptrs deck, list.arena.cursorBlock = some p
  count : list.elemCount = elems.length
  positive : 0 < list.elemPaddedSize
  bounded : ∀ entry ∈ deck, entry.2.rightOffset ≤ entry.2.data.extent
  apart : deck.Pairwise fun one two => Area.Apart one.2.data.place two.2.data.place
  later : ∀ entry ∈ deck.tail, entry.2.leftOffset = 0 ∧ 0 < entry.2.rightOffset
  tiles : TilesDeck deck (elems.map (cell list.elemPaddedSize))

/-- An address inside the areas of two blocks is in one block. -/
theorem Deck.block_of_address {deck : Deck β}
    (apart : deck.Pairwise fun one two => Area.Apart one.2.data.place two.2.data.place)
    {one two : BlockPtr × Slab β} (inDeck : one ∈ deck) (inDeck' : two ∈ deck) {address : ℤ}
    (inside : one.2.data.base ≤ address ∧ address < one.2.data.base + one.2.data.extent)
    (inside' : two.2.data.base ≤ address ∧ address < two.2.data.base + two.2.data.extent) :
    one = two := by
  by_contra different
  have symmetric : Std.Symm fun one two : BlockPtr × Slab β =>
      Area.Apart one.2.data.place two.2.data.place := ⟨fun _ _ apart => apart.symm⟩
  rcases apart.forall inDeck inDeck' different with before | before <;>
    simp only [Area.place] at before <;> omega

namespace LFList.Lists

variable {list : LFList β} {after : Option BlockPtr} {deck : Deck β} {elems : List Ptr}

/-- Moving the cursor to another block changes nothing else. -/
theorem withCursor (lists : list.Lists after deck elems) {p : BlockPtr} (member : p ∈ ptrs deck) :
    (list.withCursor (some p)).Lists after deck elems where
  chain := lists.chain
  distinct := lists.distinct
  tail := lists.tail
  blocks := lists.blocks
  cursor := ⟨p, member, rfl⟩
  count := lists.count
  positive := lists.positive
  bounded := lists.bounded
  apart := lists.apart
  later := lists.later
  tiles := lists.tiles

/-- An address inside the areas of two blocks is in one block. -/
theorem same_block (lists : list.Lists after deck elems) {one two : BlockPtr × Slab β}
    (inDeck : one ∈ deck) (inDeck' : two ∈ deck) {address : ℤ}
    (inside : one.2.data.base ≤ address ∧ address < one.2.data.base + one.2.data.extent)
    (inside' : two.2.data.base ≤ address ∧ address < two.2.data.base + two.2.data.extent) :
    one = two :=
  Deck.block_of_address lists.apart inDeck inDeck' inside inside'

end LFList.Lists

/-! ## Finding the block of an element -/

theorem findBlock_here {heap : Heap β} {width : ℕ} {address : ℤ} {p : BlockPtr} {b : MemBlock β}
    (found : heap.block p = some b) (spans : b.Spans width address) {fuel : ℕ} (enough : 0 < fuel) :
    findBlock heap width address fuel (some p) = some (some p) := by
  obtain ⟨fuel, rfl⟩ : ∃ n, fuel = n + 1 := ⟨fuel - 1, by omega⟩
  simp [findBlock, found, spans]

/-- The search passes over the blocks that do not have the address. -/
theorem findBlock_chain {heap : Heap β} {width : ℕ} {address : ℤ}
    {after before first : Option BlockPtr}
    {front back : Deck β} {p : BlockPtr} {b : Slab β}
    (chain : Segment (blockView β) heap.block after before first (front ++ (p, b) :: back))
    (others : ∀ entry ∈ front, ¬ entry.2.Spans width address) (spans : b.Spans width address)
    {fuel : ℕ} (enough : front.length < fuel) :
    findBlock heap width address fuel first = some (some p) := by
  induction front generalizing before first fuel with
  | nil =>
      obtain ⟨rfl, node, found, rfl, -⟩ := chain
      exact findBlock_here found spans enough
  | cons entry front ih =>
      obtain ⟨rfl, node, found, carried, -, onward⟩ := chain
      obtain ⟨notHere, others⟩ := List.forall_mem_cons.mp others
      obtain ⟨fuel, rfl⟩ : ∃ n, fuel = n + 1 := ⟨fuel - 1, by omega⟩
      have passed : ¬ node.Spans width address := by
        rw [← show node.toSlab = entry.2 from carried] at notHere
        exact notHere
      simp only [findBlock, Option.bind_eq_bind, Option.bind_some, found, passed, ↓reduceIte]
      exact ih onward others (by simpa using enough)

/-- Where the region after a region is: next to it in its block, or first in the
blocks that follow. -/
theorem TilesDeck.consecutive {deck : Deck β} {front back : List Region} {r : Region}
    (tiles : TilesDeck deck (front ++ r :: back)) :
    ∃ before p b later, deck = before ++ (p, b) :: later ∧ r.ptr.block = p ∧
      (b.leftOffset : ℤ) ≤ r.ptr.offset ∧ r.ptr.offset + r.size ≤ b.rightOffset ∧
      ((∃ next rest, back = next :: rest ∧ next.ptr = ⟨p, r.ptr.offset + r.size⟩ ∧
          r.ptr.offset + r.size < b.rightOffset) ∨
        (r.ptr.offset + r.size = b.rightOffset ∧ TilesDeck later back)) := by
  induction deck generalizing front with
  | nil =>
      have none : front ++ r :: back = [] := tiles
      simp at none
  | cons entry rest ih =>
      obtain ⟨p, b⟩ := entry
      obtain ⟨here, there, split, first, onward⟩ := tiles
      rcases List.append_eq_append_iff.mp split with ⟨inHere, rfl, behind⟩ | ⟨inFront, rfl, rfl⟩
      · cases inHere with
        | nil =>
            obtain rfl : r :: back = there := behind
            obtain ⟨before, q, c, later, rfl, place⟩ := @ih [] onward
            exact ⟨(p, b) :: before, q, c, later, rfl, place⟩
        | cons s inHere =>
            obtain ⟨rfl, rfl⟩ := List.cons.inj behind
            obtain ⟨mid, left, start, positive, right⟩ := Tiles.append.mp first
            have low := left.le
            have high := right.le
            have offset : r.ptr.offset = mid := by rw [start]
            refine ⟨[], p, b, rest, rfl, by rw [start], by omega, by omega, ?_⟩
            cases inHere with
            | nil =>
                obtain full : mid + r.size = b.rightOffset := right
                exact .inr ⟨by omega, onward⟩
            | cons next inHere =>
                obtain ⟨startNext, positiveNext, beyond⟩ := right
                have room := beyond.le
                refine .inl ⟨next, inHere ++ there, rfl, ?_, by omega⟩
                rw [startNext, offset]
                simp
      · obtain ⟨before, q, c, later, rfl, place⟩ := ih onward
        exact ⟨(p, b) :: before, q, c, later, rfl, place⟩

/-- What comes after an element once its block is found. -/
theorem lfGetNextListElem_of_find {list : LFList β} {elem : Ptr} {address : ℤ}
    {start : Option BlockPtr} {p : BlockPtr} {node : MemBlock β}
    (placed : list.arena.heap.address elem = some address)
    (started : startBlock list address = some start)
    (found : findBlock list.arena.heap list.elemPaddedSize address list.arena.blockCount start =
      some (some p)) (foundNode : list.arena.heap.block p = some node) :
    lfGetNextListElem list elem =
      if address ≠ (node.data.base + node.rightOffset : ℤ) - list.elemPaddedSize then
        some (some ⟨elem.block, elem.offset + list.elemPaddedSize⟩, list.withCursor (some p))
      else
        match node.next with
        | none => some (none, list.withCursor (some p))
        | some nextBlock =>
            (list.arena.heap.block nextBlock).bind fun _ =>
              some (some ⟨nextBlock, 0⟩, list.withCursor (some nextBlock)) := by
  simp only [lfGetNextListElem, placed, started, found, foundNode, Option.bind_eq_bind,
    Option.bind_some]
  rfl

namespace LFList.Lists

variable {list : LFList β} {after : Option BlockPtr} {deck : Deck β} {elems : List Ptr}

/-- The lookups find the block of an element, wherever the cursor is. -/
theorem find (lists : list.Lists after deck elems) {before later : Deck β} {p : BlockPtr}
    {b : Slab β}
    (split : deck = before ++ (p, b) :: later) {offset : ℤ} (low : (b.leftOffset : ℤ) ≤ offset)
    (high : offset + list.elemPaddedSize ≤ b.rightOffset) :
    ∃ start, startBlock list (b.data.base + offset) = some start ∧
      findBlock list.arena.heap list.elemPaddedSize (b.data.base + offset) list.arena.blockCount
        start = some (some p) := by
  have inDeck : (p, b) ∈ deck := by simp [split]
  have room : b.rightOffset ≤ b.data.extent := lists.bounded _ inDeck
  have positive := lists.positive
  have spans : b.Spans list.elemPaddedSize (b.data.base + offset) := ⟨by omega, by omega⟩
  have inside : (b.data.base : ℤ) ≤ b.data.base + offset ∧
      (b.data.base : ℤ) + offset < b.data.base + b.data.extent := ⟨by omega, by omega⟩
  obtain ⟨cursor, inChain, atCursor⟩ := lists.cursor
  obtain ⟨⟨q, c⟩, inDeck', rfl⟩ := List.mem_map.mp inChain
  obtain ⟨node, found, carried⟩ := lists.chain.lookup inDeck'
  cases (show node.toSlab = c from carried)
  have room' : node.rightOffset ≤ node.data.extent := lists.bounded _ inDeck'
  by_cases inCursor : (node.data.base + node.leftOffset : ℤ) ≤ b.data.base + offset ∧
      (b.data.base : ℤ) + offset < node.data.base + node.rightOffset
  · have same := lists.same_block inDeck inDeck' inside
      ⟨by dsimp only; omega, by dsimp only; omega⟩
    cases same
    refine ⟨some p, by simp [startBlock, atCursor, found, inCursor], findBlock_here found spans ?_⟩
    rw [lists.blocks]
    exact List.length_pos_of_mem inDeck
  · refine ⟨list.arena.headBlock, by simp [startBlock, atCursor, found, inCursor], ?_⟩
    have chain := lists.chain
    rw [split] at chain
    refine findBlock_chain chain (?_) spans
      (by simp [lists.blocks, split])
    intro entry member spans'
    have inDeck'' : entry ∈ deck := by simp [split, member]
    have room'' := lists.bounded _ inDeck''
    have same := lists.same_block inDeck inDeck'' inside
      ⟨by have := spans'.1; omega, by have := spans'.2; omega⟩
    subst same
    have distinct := lists.distinct
    rw [split, ptrs, List.map_append, List.map_cons] at distinct
    exact List.disjoint_of_nodup_append distinct (List.mem_map_of_mem member) (by simp)

/-- Where an element is, and what its block's links are. -/
theorem locate {front behind : List Ptr} {e : Ptr}
    (lists : list.Lists after deck (front ++ e :: behind)) :
    ∃ before p node later start, deck = before ++ (p, node.toSlab) :: later ∧ e.block = p ∧
      list.arena.heap.block p = some node ∧ node.prev = lastPtr none before ∧
      (node.leftOffset : ℤ) ≤ e.offset ∧
      list.arena.heap.address e = some (node.data.base + e.offset) ∧
      startBlock list (node.data.base + e.offset) = some start ∧
      findBlock list.arena.heap list.elemPaddedSize (node.data.base + e.offset)
        list.arena.blockCount start = some (some p) ∧
      Segment (blockView β) list.arena.heap.block after (some p) node.next later ∧
      ((∃ e' rest, behind = e' :: rest ∧ e' = ⟨e.block, e.offset + list.elemPaddedSize⟩ ∧
          e.offset + list.elemPaddedSize < node.rightOffset) ∨
        (e.offset + list.elemPaddedSize = node.rightOffset ∧
          TilesDeck later (behind.map (cell list.elemPaddedSize)))) := by
  have tiles := lists.tiles
  rw [List.map_append, List.map_cons] at tiles
  obtain ⟨before, p, b, later, split, block, low, high, place⟩ := tiles.consecutive
  obtain ⟨start, started, found⟩ := lists.find split low high
  have chain := lists.chain
  rw [split] at chain
  obtain ⟨-, -, -, node, foundNode, carried, back, onward⟩ := segment_append.mp chain
  cases (show node.toSlab = b from carried)
  replace block : e.block = p := block
  refine ⟨before, p, node, later, start, split, block, foundNode, back, low, ?_, started, found,
    onward, ?_⟩
  · simp [Heap.address, block, foundNode]
  · rcases place with ⟨next, rest, same, start', room⟩ | last
    · cases behind with
      | nil => cases same
      | cons e' behind =>
          obtain ⟨rfl, -⟩ := List.cons.inj same
          exact .inl ⟨e', behind, rfl, by rw [block]; exact start', room⟩
    · exact .inr last

/-- The element after an element. -/
theorem next {front back : List Ptr} {e e' : Ptr}
    (lists : list.Lists after deck (front ++ e :: e' :: back)) :
    ∃ p ∈ ptrs deck, lfGetNextListElem list e = some (some e', list.withCursor (some p)) := by
  obtain ⟨before, p, node, later, start, split, block, foundNode, -, -, placed, started, found,
    onward, place⟩ := lists.locate
  have lookup := lfGetNextListElem_of_find placed started found foundNode
  rcases place with ⟨first, rest, same, start', room⟩ | ⟨full, tilesLater⟩
  · -- the next element is in the same block
    obtain ⟨rfl, -⟩ := List.cons.inj same
    refine ⟨p, by simp [split], ?_⟩
    rw [lookup, if_pos (by omega), start']
  · -- the next element is the first of the next block
    cases later with
    | nil => cases tilesLater
    | cons entry later =>
        obtain ⟨q, c⟩ := entry
        have inTail : (q, c) ∈ deck.tail := by
          cases before <;> simp [split]
        have left : c.leftOffset = 0 := (lists.later _ inTail).1
        have right : 0 < c.rightOffset := (lists.later _ inTail).2
        obtain ⟨startNext, -, -⟩ := tilesLater.takeFirst (by omega)
        obtain ⟨next, nodeNext, foundNext, -⟩ := onward
        have moved : e' = ⟨q, 0⟩ := by
          rw [show e' = ⟨q, c.leftOffset⟩ from startNext, left]
          rfl
        refine ⟨q, by simp [split], ?_⟩
        rw [lookup, if_neg (by omega), next]
        simp [foundNext, moved]

/-- The last element is followed by what the last block links to. -/
theorem after_last {front : List Ptr} {e : Ptr} (lists : list.Lists after deck (front ++ [e])) :
    ∃ p ∈ ptrs deck, lfGetNextListElem list e =
      match after with
      | none => some (none, list.withCursor (some p))
      | some nextBlock =>
          (list.arena.heap.block nextBlock).bind fun _ =>
            some (some ⟨nextBlock, 0⟩, list.withCursor (some nextBlock)) := by
  obtain ⟨before, p, node, later, start, split, block, foundNode, -, -, placed, started, found,
    onward, place⟩ := lists.locate
  have lookup := lfGetNextListElem_of_find placed started found foundNode
  rcases place with ⟨first, rest, none, -⟩ | ⟨full, tilesLater⟩
  · cases none
  · refine ⟨p, by simp [split], ?_⟩
    cases later with
    | nil =>
        have next : node.next = after := onward
        rw [lookup, if_neg (by omega), next]
        cases after <;> rfl
    | cons entry later =>
        -- a block behind the last element would hold another
        have inTail : entry ∈ deck.tail := by
          cases before <;> simp [split]
        obtain ⟨left, right⟩ := lists.later _ inTail
        obtain ⟨here, there, nothing, tiles, -⟩ := tilesLater
        obtain ⟨rfl, -⟩ := List.append_eq_nil_iff.mp nothing.symm
        have empty : entry.2.leftOffset = entry.2.rightOffset := tiles
        omega

/-- After the last element comes nothing when the last block has no next one. -/
theorem next_last {front : List Ptr} {e : Ptr} (lists : list.Lists none deck (front ++ [e])) :
    ∃ p ∈ ptrs deck, lfGetNextListElem list e = some (none, list.withCursor (some p)) :=
  lists.after_last

/-- The lookup after the last element fails when the last block links to no block. -/
theorem next_dangling {front : List Ptr} {e : Ptr} {dangling : BlockPtr}
    (lists : list.Lists (some dangling) deck (front ++ [e]))
    (missing : list.arena.heap.block dangling = none) : lfGetNextListElem list e = none := by
  obtain ⟨p, -, found⟩ := lists.after_last
  rw [found]
  simp [missing]

/-- The first element is where the used range of the head block starts. -/
theorem first {e : Ptr} {rest : List Ptr} (lists : list.Lists after deck (e :: rest))
    {p : BlockPtr} {b : Slab β} {later : Deck β} (split : deck = (p, b) :: later)
    (nonempty : b.leftOffset ≠ b.rightOffset) :
    lfGetFirstListElem list = some (some e, list.withCursor (some p)) := by
  have chain := lists.chain
  rw [split] at chain
  obtain ⟨head, node, found, carried, -, -⟩ := chain
  cases (show node.toSlab = b from carried)
  have tiles := lists.tiles
  rw [split, List.map_cons] at tiles
  obtain ⟨start, -, -⟩ := tiles.takeFirst nonempty
  have counted : list.elemCount ≠ 0 := by simp [lists.count]
  simp [lfGetFirstListElem, counted, head, found, show e = _ from start]

/-- The last element ends where the used range of the tail block ends. -/
theorem last {front : List Ptr} {e : Ptr} (lists : list.Lists after deck (front ++ [e]))
    {p : BlockPtr} {b : Slab β} {earlier : Deck β} (split : deck = earlier ++ [(p, b)])
    (nonempty : b.leftOffset ≠ b.rightOffset) :
    lfGetLastListElem list = some (some e, list.withCursor (some p)) := by
  have inDeck : (p, b) ∈ deck := by simp [split]
  obtain ⟨node, found, carried⟩ := lists.chain.lookup inDeck
  cases (show node.toSlab = b from carried)
  have tail : list.arena.tailBlock = some p := by simp [lists.tail, split]
  have tiles := lists.tiles
  rw [split, List.map_append, List.map_cons, List.map_nil] at tiles
  obtain ⟨offset, start, -, full⟩ := tiles.takeLast nonempty
  have counted : list.elemCount ≠ 0 := by simp [lists.count]
  have place : (node.rightOffset : ℤ) - list.elemPaddedSize = offset := by
    simp only [cell] at full
    omega
  simp [lfGetLastListElem, counted, tail, found, show e = _ from start, place]

/-- The last block of a list is not empty when the first one is not. -/
theorem last_nonempty (lists : list.Lists after deck elems) {p : BlockPtr} {b : Slab β}
    {later : Deck β} (split : deck = (p, b) :: later) (nonempty : b.leftOffset ≠ b.rightOffset) :
    ∃ earlier q c, deck = earlier ++ [(q, c)] ∧ c.leftOffset ≠ c.rightOffset := by
  rcases List.eq_nil_or_concat' later with rfl | ⟨earlier, ⟨q, c⟩, rfl⟩
  · exact ⟨[], p, b, split, nonempty⟩
  · refine ⟨(p, b) :: earlier, q, c, by simp [split], ?_⟩
    have place : c.leftOffset = 0 ∧ 0 < c.rightOffset := lists.later (q, c) (by simp [split])
    omega

/-- What stands at an element can be loaded. -/
theorem load (lists : list.Lists after deck elems) {ptr : Ptr} (member : ptr ∈ elems)
    {bytes : List β} (reads : deck.Reads ptr bytes) (fits : bytes.length ≤ list.elemPaddedSize) :
    list.arena.heap.load ptr bytes.length = some bytes := by
  obtain ⟨b, inDeck, low, same⟩ := reads
  obtain ⟨node, found, carried⟩ := lists.chain.lookup inDeck
  cases (show node.toSlab = b from carried)
  obtain ⟨⟨p, c⟩, inDeck', block, -, high⟩ := lists.tiles.inside (List.mem_map_of_mem member)
  replace block : ptr.block = p := block
  subst block
  obtain rfl : node.toSlab = c :=
    congrArg Prod.snd (List.inj_on_of_nodup_map lists.distinct inDeck inDeck' rfl)
  have room : node.rightOffset ≤ node.data.extent := lists.bounded _ inDeck
  have inArea : Heap.InArea node.data ptr.offset bytes.length := by
    simp only [cell] at high
    exact ⟨low, by omega⟩
  simp [Heap.load, found, inArea, same]

/-- Stepping from the first element on passes the elements in order. -/
theorem nth (lists : list.Lists after deck elems) {p : BlockPtr} {b : Slab β} {later : Deck β}
    (split : deck = (p, b) :: later) (nonempty : b.leftOffset ≠ b.rightOffset) {k : ℕ}
    (inRange : k < elems.length) :
    ∃ q ∈ ptrs deck, nthElem list k = some (some elems[k], list.withCursor (some q)) := by
  induction k with
  | zero =>
      cases elems with
      | nil => cases inRange
      | cons e rest => exact ⟨p, by simp [split], lists.first split nonempty⟩
  | succ k ih =>
      obtain ⟨q, member, reached⟩ := ih (by omega)
      have splitElems : elems = elems.take k ++ elems[k] :: elems[k + 1] :: elems.drop (k + 2) := by
        simp
      have moved := lists.withCursor member
      rw [splitElems] at moved
      obtain ⟨r, member', next⟩ := moved.next
      refine ⟨r, member', ?_⟩
      simp only [nthElem, reached, Option.bind_eq_bind, Option.bind_some]
      exact next

/-- No element is allocated twice. -/
theorem nodup (lists : list.Lists after deck elems) : elems.Nodup := by
  have apart := List.pairwise_map.mp (lists.tiles.pairwise lists.distinct)
  refine apart.imp fun {one two} disjoint same => ?_
  have positive := lists.positive
  subst same
  rcases disjoint with other | before | before
  · exact other rfl
  · simp only [cell] at before
    omega
  · simp only [cell] at before
    omega

/-- An empty list has no first and no last element. -/
theorem nothing (lists : list.Lists after deck []) :
    lfGetFirstListElem list = some (none, list) ∧ lfGetLastListElem list = some (none, list) := by
  have count : list.elemCount = 0 := lists.count
  simp [lfGetFirstListElem, lfGetLastListElem, count]

end LFList.Lists

/-! ## Where the cursor is -/

/-- The blocks of the list are a chain, and the cursor is at one of them. -/
structure LFList.Points (list : LFList β) (deck : Deck β) (p : BlockPtr) : Prop where
  rep : Represents list.arena deck
  cursor : list.arena.cursorBlock = some p
  member : p ∈ ptrs deck

/-- Where the loop of the lookups stops: at a block of the chain, or behind it. -/
theorem findBlock_mem {heap : Heap β} {width : ℕ} {address : ℤ} {before first : Option BlockPtr}
    {blocks : Deck β} {fuel : ℕ} {result : Option BlockPtr}
    (chain : Segment (blockView β) heap.block none before first blocks)
    (found : findBlock heap width address fuel first = some result) {p : BlockPtr}
    (stops : result = some p) : p ∈ ptrs blocks := by
  induction fuel generalizing before first blocks with
  | zero =>
      obtain rfl : first = result := Option.some.inj found
      subst stops
      exact List.mem_of_head? (by simpa using chain.first_eq.symm)
  | succ fuel ih =>
      cases blocks with
      | nil =>
          obtain rfl : first = none := chain
          simp [findBlock] at found
      | cons entry blocks =>
          obtain ⟨rfl, node, foundNode, -, -, onward⟩ := chain
          simp only [findBlock, Option.bind_eq_bind, Option.bind_some, foundNode] at found
          split at found
          · obtain rfl := Option.some.inj found
            cases stops
            exact List.mem_cons_self ..
          · exact List.mem_cons_of_mem _ (ih onward found)

/-- The links of a block of the chain lead to blocks of the chain. -/
theorem Represents.links_mem {arena : Arena β} {deck : Deck β} (rep : Represents arena deck)
    {p : BlockPtr} (member : p ∈ ptrs deck) {node : MemBlock β}
    (found : arena.heap.block p = some node) :
    (∀ q, node.next = some q → q ∈ ptrs deck) ∧ ∀ q, node.prev = some q → q ∈ ptrs deck := by
  obtain ⟨⟨p, b⟩, inDeck, rfl⟩ := List.mem_map.mp member
  obtain ⟨front, back, rfl⟩ := List.append_of_mem inDeck
  obtain ⟨-, -, -, node', found', -, prev, onward⟩ := segment_append.mp rep.chain
  obtain rfl := Option.some.inj (found.symm.trans found')
  constructor
  · intro q next
    have first := onward.first_eq
    rw [show (blockView β).next node = some q from next, Option.or_none] at first
    have inBack := List.mem_of_head? first.symm
    simp only [ptrs, List.map_append, List.map_cons, List.mem_append, List.mem_cons]
    exact .inr (.inr inBack)
  · intro q back
    rw [show (blockView β).prev node = some q from back, lastPtr, Option.or_none] at prev
    have inFront := List.mem_of_getLast? prev.symm
    simp only [ptrs, List.map_append, List.mem_append]
    exact .inl inFront

namespace LFList.Points

variable {list list' : LFList β} {deck : Deck β} {p : BlockPtr} {answer : Option Ptr}

theorem withCursor (points : list.Points deck p) {q : BlockPtr} (member : q ∈ ptrs deck) :
    (list.withCursor (some q)).Points deck q :=
  ⟨points.rep.withCursor (some q), rfl, member⟩

/-- A change of the chain that keeps the block of the cursor. -/
theorem arena (points : list.Points deck p) {arena : Arena β} {deck' : Deck β}
    (rep : Represents arena deck') (keeps : list.arena.Keeps arena) (kept : p ∈ ptrs deck') :
    ({ list with arena } : LFList β).Points deck' p :=
  ⟨rep, keeps.cursor.trans points.cursor, kept⟩

/-- The block that a lookup finds is in the chain. -/
theorem found_mem (points : list.Points deck p) {address : ℤ} {fuel : ℕ}
    {start result : Option BlockPtr} (started : startBlock list address = some start)
    (found : findBlock list.arena.heap list.elemPaddedSize address fuel start = some result)
    {q : BlockPtr} (stops : result = some q) : q ∈ ptrs deck := by
  obtain ⟨⟨p, b⟩, inDeck, rfl⟩ := List.mem_map.mp points.member
  obtain ⟨front, back, rfl⟩ := List.append_of_mem inDeck
  obtain ⟨middle, -, onward⟩ := segment_append.mp points.rep.chain
  have atCursor : middle = some p := onward.1
  simp only [startBlock, points.cursor, Option.bind_eq_bind, Option.bind_some,
    Option.bind_eq_some_iff, Option.some.injEq] at started
  obtain ⟨node, -, same⟩ := started
  split at same
  · rw [← same, ← atCursor] at found
    have inBack := findBlock_mem onward found stops
    rw [ptrs, List.map_append]
    exact List.mem_append_right _ inBack
  · rw [← same] at found
    exact findBlock_mem points.rep.chain found stops

/-- Going on to the next element leaves the cursor in the chain. -/
theorem getNext (points : list.Points deck p) {elem : Ptr}
    (taken : lfGetNextListElem list elem = some (answer, list')) : ∃ q, list'.Points deck q := by
  simp only [lfGetNextListElem, Option.bind_eq_bind, Option.bind_eq_some_iff] at taken
  obtain ⟨address, -, start, started, curBlock, found, taken⟩ := taken
  cases curBlock with
  | none =>
      obtain ⟨-, rfl⟩ := Prod.mk.inj (Option.some.inj taken)
      exact ⟨p, points⟩
  | some q =>
      have member := points.found_mem started found rfl
      simp only [Option.bind_eq_some_iff] at taken
      obtain ⟨node, foundNode, taken⟩ := taken
      have moved := points.withCursor member
      split at taken
      · obtain ⟨-, rfl⟩ := Prod.mk.inj (Option.some.inj taken)
        exact ⟨q, moved⟩
      · cases next : node.next with
        | none =>
            rw [next] at taken
            obtain ⟨-, rfl⟩ := Prod.mk.inj (Option.some.inj taken)
            exact ⟨q, moved⟩
        | some r =>
            rw [next] at taken
            simp only [Option.bind_eq_some_iff, Option.some.injEq, Prod.mk.injEq] at taken
            obtain ⟨-, -, -, rfl⟩ := taken
            exact ⟨r, moved.withCursor ((points.rep.links_mem member foundNode).1 r next)⟩

/-- So does going back to the one before. -/
theorem getPrev (points : list.Points deck p) {elem : Ptr}
    (taken : lfGetPrevListElem list elem = some (answer, list')) : ∃ q, list'.Points deck q := by
  simp only [lfGetPrevListElem, Option.bind_eq_bind, Option.bind_eq_some_iff] at taken
  obtain ⟨address, -, start, started, curBlock, found, taken⟩ := taken
  cases curBlock with
  | none =>
      obtain ⟨-, rfl⟩ := Prod.mk.inj (Option.some.inj taken)
      exact ⟨p, points⟩
  | some q =>
      have member := points.found_mem started found rfl
      simp only [Option.bind_eq_some_iff] at taken
      obtain ⟨node, foundNode, taken⟩ := taken
      have moved := points.withCursor member
      split at taken
      · obtain ⟨-, rfl⟩ := Prod.mk.inj (Option.some.inj taken)
        exact ⟨q, moved⟩
      · cases prev : node.prev with
        | none =>
            rw [prev] at taken
            obtain ⟨-, rfl⟩ := Prod.mk.inj (Option.some.inj taken)
            exact ⟨q, moved⟩
        | some r =>
            rw [prev] at taken
            simp only [Option.bind_eq_some_iff, Option.some.injEq, Prod.mk.injEq] at taken
            obtain ⟨-, -, -, rfl⟩ := taken
            exact ⟨r, moved.withCursor ((points.rep.links_mem member foundNode).2 r prev)⟩

end LFList.Points

end LowFlow
