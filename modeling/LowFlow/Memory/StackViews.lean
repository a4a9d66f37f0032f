import LowFlow.Memory.ElemSearch
import LowFlow.Memory.StackRuns

/-!
# Looking at a stack

`lf_debug_stack` hands every slot of a stack to a function, block after block
from the head on, and ends a line behind each block that is not empty.
`lf_get_stack_elem_by_content` goes through the cursor block first. After any
pushes and pops the first shows the elements as they would be popped
(`debug_shows_elements`). The cursor block is then the bottom one, so the second
finds an element among those that were pushed first before it goes on from the
top (`search_looks_at_bottom_first`).
-/

set_option autoImplicit false

namespace LowFlow

open Library

variable {β : Type}

/-! ## Showing the slots -/

/-- The inner loop: the slots that are handed to the function, from an offset
on. The offset is a `size_t`. -/
def debugSlots (curBlock : BlockPtr) (elemPaddedSize last : ℕ) : ℕ → ℕ → Option (List Ptr)
  | 0, _ => none
  | fuel + 1, i => do
      if i ≤ last then
        some (⟨curBlock, i⟩ ::
          (← debugSlots curBlock elemPaddedSize last fuel (sizeWrap (i + elemPaddedSize))))
      else some []

/-- The loop over the blocks. Each line has the slots of a block. -/
def debugBlocks (heap : Heap β) (elemPaddedSize slots : ℕ) :
    ℕ → Option BlockPtr → Option (List (List Ptr))
  | _, none => some []
  | 0, some _ => none
  | fuel + 1, some curBlock => do
      let b ← heap.block curBlock
      let usedSize := sizeSub b.rightOffset b.leftOffset
      let isEmpty := usedSize = 0
      if isEmpty then debugBlocks heap elemPaddedSize slots fuel b.next
      else
        let line ← debugSlots curBlock elemPaddedSize (sizeSub b.rightOffset elemPaddedSize) slots
          b.leftOffset
        some (line :: (← debugBlocks heap elemPaddedSize slots fuel b.next))

/-- `lf_debug_stack`, for at most `fuel` rounds of each of its loops: the slots
that `debug_fn` is called with, line by line. -/
def lfDebugStack (fuel : ℕ) (stack : Stack β) : Option (List (List Ptr)) :=
  debugBlocks stack.arena.heap stack.elemPaddedSize fuel fuel stack.arena.headBlock

/-- More rounds show the same. -/
theorem debugSlots_mono {curBlock : BlockPtr} {elemPaddedSize last fuel more i : ℕ}
    {line : List Ptr} (shown : debugSlots curBlock elemPaddedSize last fuel i = some line)
    (atLeast : fuel ≤ more) : debugSlots curBlock elemPaddedSize last more i = some line := by
  induction fuel generalizing more i line with
  | zero => cases shown
  | succ fuel ih =>
      obtain ⟨more, rfl⟩ :=
        Nat.exists_eq_add_one_of_ne_zero (Nat.ne_of_gt (Nat.zero_lt_of_lt atLeast))
      rw [debugSlots] at shown ⊢
      by_cases here : i ≤ last
      · simp only [here, ↓reduceIte, Option.bind_eq_bind, Option.bind_eq_some_iff] at shown ⊢
        obtain ⟨others, behind, same⟩ := shown
        exact ⟨others, ih behind (Nat.le_of_succ_le_succ atLeast), same⟩
      · simpa only [here, ↓reduceIte] using shown

theorem debugBlocks_mono {heap : Heap β} {elemPaddedSize slots slots' fuel more : ℕ}
    (moreSlots : slots ≤ slots') {curBlock : Option BlockPtr} {lines : List (List Ptr)}
    (shown : debugBlocks heap elemPaddedSize slots fuel curBlock = some lines)
    (atLeast : fuel ≤ more) :
    debugBlocks heap elemPaddedSize slots' more curBlock = some lines := by
  induction fuel generalizing more curBlock lines with
  | zero =>
      cases curBlock with
      | none => cases more <;> exact shown
      | some p => cases shown
  | succ fuel ih =>
      obtain ⟨more, rfl⟩ :=
        Nat.exists_eq_add_one_of_ne_zero (Nat.ne_of_gt (Nat.zero_lt_of_lt atLeast))
      have fewer := Nat.le_of_succ_le_succ atLeast
      cases curBlock with
      | none => exact shown
      | some p =>
          simp only [debugBlocks, Option.bind_eq_bind, Option.bind_eq_some_iff] at shown ⊢
          obtain ⟨b, found, shown⟩ := shown
          refine ⟨b, found, ?_⟩
          by_cases isEmpty : sizeSub b.rightOffset b.leftOffset = 0
          · simp only [isEmpty, ↓reduceIte] at shown ⊢
            exact ih shown fewer
          · simp only [isEmpty, ↓reduceIte, Option.bind_eq_some_iff] at shown ⊢
            obtain ⟨line, here, others, behind, same⟩ := shown
            exact ⟨line, debugSlots_mono here moreSlots, others, ih behind fewer, same⟩

/-- What is shown does not depend on the number of rounds that were enough. -/
theorem lfDebugStack_unique {stack : Stack β} {fuel fuel' : ℕ} {lines lines' : List (List Ptr)}
    (one : lfDebugStack fuel stack = some lines) (two : lfDebugStack fuel' stack = some lines') :
    lines = lines' := by
  have first : lfDebugStack (max fuel fuel') stack = some lines :=
    debugBlocks_mono (Nat.le_max_left ..) one (Nat.le_max_left ..)
  have second : lfDebugStack (max fuel fuel') stack = some lines' :=
    debugBlocks_mono (Nat.le_max_right ..) two (Nat.le_max_right ..)
  exact Option.some.inj (first.symm.trans second)

/-! ## Elements of one width -/

/-- Elements that tile a range are at the places of their width. -/
theorem Tiles.places {p : BlockPtr} {lo hi width : ℕ} {live : List (Element β)}
    (tiles : Tiles p lo (live.map slot) hi) (sized : ∀ e ∈ live, e.2.length = width) :
    placesFrom width ⟨p, lo⟩ live.length = live.map Prod.fst := by
  induction live generalizing lo with
  | nil => rfl
  | cons e live ih =>
      obtain ⟨start, -, onward⟩ := tiles
      obtain ⟨first, sized⟩ := List.forall_mem_cons.mp sized
      have others := ih onward sized
      simp only [slot, first, Int.natCast_add] at start others
      rw [List.length_cons, placesFrom, others, List.map_cons, start]

/-- How far the elements of a range reach. -/
theorem Tiles.width_eq {p : BlockPtr} {lo hi width : ℕ} {live : List (Element β)}
    (tiles : Tiles p lo (live.map slot) hi) (sized : ∀ e ∈ live, e.2.length = width) :
    hi = lo + width * live.length := by
  have reach : hi = lo + width * (live.map slot).length :=
    tiles.length_eq (List.forall_mem_map.mpr sized)
  rwa [List.length_map] at reach

/-- The elements of a deck, block by block. -/
theorem TilesDeck.split_elements {entry : BlockPtr × Slab β} {rest : Deck β}
    {live : List (Element β)} (tiles : TilesDeck (entry :: rest) (live.map slot)) :
    ∃ here there, live = here ++ there ∧
      Tiles entry.1 entry.2.leftOffset (here.map slot) entry.2.rightOffset ∧
      TilesDeck rest (there.map slot) := by
  obtain ⟨regions, others, split, first, onward⟩ := tiles
  obtain ⟨here, there, rfl, rfl, rfl⟩ := List.map_eq_append_iff.mp split
  exact ⟨here, there, rfl, first, onward⟩

/-! ## What is shown -/

/-- The inner loop shows the slots of a block that is not empty. The induction is
on the slots that are left. -/
theorem debugSlots_spec {p : BlockPtr} {width right : ℕ} (positive : 0 < width)
    (wide : width ≤ right) (small : right < sizeModulus) {n fuel i : ℕ} (enough : n < fuel)
    (slots : i + width * n = right) :
    debugSlots p width (sizeSub right width) fuel i = some (placesFrom width ⟨p, i⟩ n) := by
  rw [sizeSub_of_le wide]
  induction n generalizing fuel i with
  | zero =>
      obtain ⟨fuel, rfl⟩ := Nat.exists_eq_succ_of_ne_zero (Nat.ne_of_gt enough)
      have past : ¬ i ≤ right - width := by omega
      simp [debugSlots, past, placesFrom]
  | succ n ih =>
      obtain ⟨fuel, rfl⟩ := Nat.exists_eq_succ_of_ne_zero (Nat.ne_of_gt (Nat.zero_lt_of_lt enough))
      rw [Nat.mul_succ] at slots
      have here : i ≤ right - width := by omega
      have next : sizeWrap (i + width) = i + width := sizeWrap_of_lt (by omega)
      have onward := @ih fuel (i + width) (by omega) (by omega)
      rw [Int.natCast_add] at onward
      simp only [debugSlots, here, ↓reduceIte, next, onward, Option.bind_eq_bind, Option.bind_some,
        placesFrom]

/-- The slots of each block that is not empty. -/
def Deck.lines (deck : Deck β) (width : ℕ) : List (List Ptr) :=
  (deck.map fun entry => placesFrom width ⟨entry.1, entry.2.leftOffset⟩
    ((entry.2.rightOffset - entry.2.leftOffset) / width)).filter (· ≠ [])

theorem Deck.lines_cons {entry : BlockPtr × Slab β} {rest : Deck β} {width n : ℕ}
    (positive : 0 < width) (reach : entry.2.rightOffset = entry.2.leftOffset + width * n) :
    Deck.lines (entry :: rest) width =
      if n = 0 then rest.lines width
      else placesFrom width ⟨entry.1, entry.2.leftOffset⟩ n :: rest.lines width := by
  have count : (entry.2.rightOffset - entry.2.leftOffset) / width = n := by
    rw [reach, Nat.add_sub_cancel_left, Nat.mul_div_cancel_left _ positive]
  cases n with
  | zero => simp [Deck.lines, count, placesFrom]
  | succ n => simp [Deck.lines, count, placesFrom]

/-- One after the other, the lines are the slots of the elements. -/
theorem TilesDeck.flatten_lines {width : ℕ} (positive : 0 < width) {deck : Deck β}
    {live : List (Element β)} (tiles : TilesDeck deck (live.map slot))
    (sized : ∀ e ∈ live, e.2.length = width) :
    (deck.lines width).flatten = live.map Prod.fst := by
  induction deck generalizing live with
  | nil =>
      obtain rfl : live = [] := List.map_eq_nil_iff.mp tiles
      rfl
  | cons entry rest ih =>
      obtain ⟨here, there, rfl, inBlock, behind⟩ := tiles.split_elements
      obtain ⟨sizedHere, sizedThere⟩ := List.forall_mem_append.mp sized
      have others := ih behind sizedThere
      have places := inBlock.places sizedHere
      rw [Deck.lines_cons positive (inBlock.width_eq sizedHere), List.map_append, ← others]
      split
      · rename_i none
        simp [List.eq_nil_of_length_eq_zero none]
      · rw [List.flatten_cons, places]

theorem debugBlocks_spec {heap : Heap β} {width slots : ℕ} (positive : 0 < width)
    {deck : Deck β} {before first : Option BlockPtr}
    (chain : Segment (blockView β) heap.block none before first deck) {live : List (Element β)}
    (tiles : TilesDeck deck (live.map slot)) (sized : ∀ e ∈ live, e.2.length = width)
    (small : ∀ entry ∈ deck, entry.2.rightOffset < sizeModulus)
    (room : ∀ entry ∈ deck, entry.2.rightOffset < slots) {fuel : ℕ} (enough : deck.length ≤ fuel) :
    debugBlocks heap width slots fuel first = some (deck.lines width) := by
  induction deck generalizing before first live fuel with
  | nil =>
      cases (show first = none from chain)
      cases fuel <;> rfl
  | cons entry rest ih =>
      obtain ⟨fuel, rfl⟩ := Nat.exists_eq_succ_of_ne_zero
        (Nat.ne_of_gt (Nat.lt_of_lt_of_le (Nat.succ_pos rest.length) enough))
      obtain ⟨p, b⟩ := entry
      obtain ⟨rfl, node, found, rfl, -, onward⟩ := chain
      obtain ⟨here, there, rfl, inBlock, behind⟩ := tiles.split_elements
      obtain ⟨sizedHere, sizedThere⟩ := List.forall_mem_append.mp sized
      obtain ⟨smallHere, smallThere⟩ := List.forall_mem_cons.mp small
      obtain ⟨roomHere, roomThere⟩ := List.forall_mem_cons.mp room
      have shown : debugBlocks heap width slots fuel node.next = some (Deck.lines rest width) :=
        ih onward behind sizedThere smallThere roomThere (Nat.le_of_succ_le_succ enough)
      have reach : node.rightOffset = node.leftOffset + width * here.length :=
        inBlock.width_eq sizedHere
      have used : sizeSub node.rightOffset node.leftOffset = width * here.length := by
        rw [sizeSub_of_le (by omega), reach, Nat.add_sub_cancel_left]
      rw [Deck.lines_cons positive reach]
      by_cases none : here.length = 0
      · simp [debugBlocks, found, used, none, shown]
      · have wide := Nat.le_mul_of_pos_right width (Nat.pos_of_ne_zero none)
        have long := Nat.le_mul_of_pos_left here.length positive
        have nonempty : ¬ sizeSub node.rightOffset node.leftOffset = 0 := by omega
        have fewer : here.length ≤ node.rightOffset := by omega
        have line := debugSlots_spec (p := p) positive (show width ≤ node.rightOffset by omega)
          smallHere (Nat.lt_of_le_of_lt fewer roomHere) reach.symm
        simp only [debugBlocks, found, Option.bind_eq_bind, Option.bind_some, nonempty, none,
          ↓reduceIte, line, shown]
        rfl

/-- The blocks of a stack are shown line by line. -/
theorem Stack.Holds.shows {stack : Stack β} {used : Deck β} {live : List (Element β)}
    (holds : stack.Holds used [] live) (small : stack.arena.blockSize < sizeModulus) :
    ∃ fuel, lfDebugStack fuel stack = some (used.lines stack.elemSize) := by
  have chain := holds.rep.chain
  rw [List.append_nil] at chain
  have right : ∀ entry ∈ used, entry.2.rightOffset = stack.arena.blockSize := fun entry member =>
    holds.right entry (List.mem_append_left _ member)
  have room : ∀ entry ∈ used, entry.2.rightOffset < used.length + stack.arena.blockSize + 1 := by
    intro entry member
    rw [right entry member]
    omega
  have enough : used.length ≤ used.length + stack.arena.blockSize + 1 := by omega
  refine ⟨used.length + stack.arena.blockSize + 1, ?_⟩
  rw [lfDebugStack, holds.padded]
  exact debugBlocks_spec holds.positive chain holds.tiles holds.sized
    (fun entry member => by rw [right entry member]; exact small) room enough

/-- The lines behind the first one are as long as there are elements in a block. -/
theorem Stack.Holds.lines_tail {stack : Stack β} {used : Deck β} {live : List (Element β)}
    (holds : stack.Holds used [] live) {count : ℕ}
    (blocks : stack.arena.blockSize = count * stack.elemSize) :
    (∀ line ∈ used.lines stack.elemSize, line ≠ [] ∧ line.length ≤ count) ∧
      ∀ line ∈ (used.lines stack.elemSize).tail, line.length = count := by
  have positive := holds.positive
  have width : ∀ entry ∈ used, (entry.2.rightOffset - entry.2.leftOffset) / stack.elemSize ≤
      count := by
    intro entry member
    rw [holds.right entry (List.mem_append_left _ member), blocks]
    refine Nat.le_trans (Nat.div_le_div_right (Nat.sub_le ..)) ?_
    exact le_of_eq (Nat.mul_div_cancel _ positive)
  have behind : ∀ line ∈ Deck.lines used.tail stack.elemSize, line.length = count := by
    intro line member
    obtain ⟨inBlocks, -⟩ := List.mem_filter.mp member
    obtain ⟨entry, inTail, rfl⟩ := List.mem_map.mp inBlocks
    obtain ⟨left, right⟩ := holds.filled_behind (blocks ▸ Nat.dvd_mul_left ..) inTail
    rw [length_placesFrom, left, right, blocks, Nat.sub_zero, Nat.mul_div_cancel _ positive]
  refine ⟨?_, fun line member => behind line ?_⟩
  · intro line member
    obtain ⟨inBlocks, nonempty⟩ := List.mem_filter.mp member
    obtain ⟨entry, inUse, rfl⟩ := List.mem_map.mp inBlocks
    refine ⟨of_decide_eq_true nonempty, ?_⟩
    rw [length_placesFrom]
    exact width entry inUse
  · obtain ⟨first, rest, rfl⟩ := List.exists_cons_of_ne_nil holds.nonempty
    simp only [Deck.lines, List.map_cons, List.filter_cons] at member
    split at member
    · exact member
    · exact List.mem_of_mem_tail member

/-! ## The order of the search -/

/-- What stays as it is when an arena grows and shrinks at the head. -/
structure Arena.SameBottom (arena arena' : Arena β) : Prop where
  tail : arena'.tailBlock = arena.tailBlock
  cursor : arena'.cursorBlock = arena.cursorBlock

theorem lfAllocArenaHeadBlock_sameBottom {arena arena' : Arena β} {p : BlockPtr}
    (alloc : lfAllocArenaHeadBlock arena = some (p, arena')) : arena.SameBottom arena' := by
  by_cases zero : arena.blockSize = 0
  · simp [lfAllocArenaHeadBlock, zero] at alloc
  · cases head : arena.headBlock with
    | none =>
        simp only [lfAllocArenaHeadBlock, zero, head, ↓reduceIte, Option.bind_eq_bind,
          Option.bind_some, Option.bind_eq_some_iff, Option.some.injEq, Prod.mk.injEq] at alloc
        obtain ⟨-, -, -, rfl⟩ := alloc
        exact ⟨rfl, rfl⟩
    | some old =>
        simp only [lfAllocArenaHeadBlock, zero, head, ↓reduceIte, Option.bind_eq_bind,
          Option.bind_eq_some_iff, Option.some.injEq, Prod.mk.injEq] at alloc
        obtain ⟨-, -, -, -, -, rfl⟩ := alloc
        exact ⟨rfl, rfl⟩

theorem lfArenaAllocAtHead_sameBottom {arena arena' : Arena β} {size : ℕ} {ptr : Ptr}
    (alloc : lfArenaAllocAtHead arena size = some (ptr, arena')) : arena.SameBottom arena' := by
  by_cases refused : size = 0 ∨ arena.blockSize < size
  · simp [lfArenaAllocAtHead, refused] at alloc
  · simp only [lfArenaAllocAtHead, refused, ↓reduceIte, Option.bind_eq_bind] at alloc
    obtain ⟨head, -, alloc⟩ := Option.bind_eq_some_iff.mp alloc
    obtain ⟨node, -, alloc⟩ := Option.bind_eq_some_iff.mp alloc
    by_cases full : node.leftOffset < size
    · simp only [full, ↓reduceIte, Option.bind_eq_some_iff, Option.some.injEq, Prod.mk.injEq]
        at alloc
      obtain ⟨opened, isOpened, -, -, -, -, -, rfl⟩ := alloc
      have same := lfAllocArenaHeadBlock_sameBottom isOpened
      exact ⟨same.tail, same.cursor⟩
    · simp only [full, ↓reduceIte, Option.bind_some, Option.bind_eq_some_iff, Option.some.injEq,
        Prod.mk.injEq] at alloc
      obtain ⟨-, -, -, -, -, rfl⟩ := alloc
      exact ⟨rfl, rfl⟩

theorem lfDeallocArenaHeadBlock_sameBottom {arena arena' : Arena β} {p : Option BlockPtr}
    (dealloc : lfDeallocArenaHeadBlock arena = some (p, arena')) : arena.SameBottom arena' := by
  by_cases single : arena.blockCount ≤ 1
  · simp only [lfDeallocArenaHeadBlock, single, ↓reduceIte, Option.some.injEq,
      Prod.mk.injEq] at dealloc
    obtain ⟨-, rfl⟩ := dealloc
    exact ⟨rfl, rfl⟩
  · simp only [lfDeallocArenaHeadBlock, single, ↓reduceIte, Option.bind_eq_bind,
      Option.bind_eq_some_iff, Option.some.injEq, Prod.mk.injEq] at dealloc
    obtain ⟨head, -, -, -, -, -, freed, dealloc, -, rfl⟩ := dealloc
    simp only [lfDeallocArenaBlock, Option.bind_eq_bind] at dealloc
    obtain ⟨b, -, dealloc⟩ := Option.bind_eq_some_iff.mp dealloc
    cases before : b.prev <;> cases after : b.next <;>
      simp only [before, after, Option.bind_some, Option.bind_eq_some_iff,
        Option.some.injEq] at dealloc <;>
      grind [Arena.SameBottom]

theorem lfPopFromStack_sameBottom {stack stack' : Stack β} {answer : Option Ptr}
    (popped : lfPopFromStack stack = some (answer, stack')) :
    stack.arena.SameBottom stack'.arena := by
  by_cases empty : stack.elemCount = 0
  · rw [lfPopFromStack_empty empty] at popped
    cases popped
    exact ⟨rfl, rfl⟩
  · simp only [lfPopFromStack, empty, ↓reduceIte, Option.bind_eq_bind] at popped
    obtain ⟨head, -, popped⟩ := Option.bind_eq_some_iff.mp popped
    obtain ⟨node, -, popped⟩ := Option.bind_eq_some_iff.mp popped
    by_cases isEmpty : lfIsBlockEmpty node = true
    · simp only [isEmpty, ↓reduceIte, Option.bind_eq_some_iff, Option.some.injEq, Prod.mk.injEq]
        at popped
      obtain ⟨dropped, dealloc, -, -, -, -, -, -, -, rfl⟩ := popped
      have same := lfDeallocArenaHeadBlock_sameBottom dealloc
      exact ⟨same.tail, same.cursor⟩
    · simp only [isEmpty, Bool.false_eq_true, ↓reduceIte, Option.bind_some,
        Option.bind_eq_some_iff, Option.some.injEq, Prod.mk.injEq] at popped
      obtain ⟨-, -, -, -, -, rfl⟩ := popped
      exact ⟨rfl, rfl⟩

/-- The first block of a stack is its bottom one all along, and the cursor stays
there. -/
theorem stackStep_cursor {op : StackOp β} {t t' : Pushed β} {answer : Option (List β)}
    (bottom : t.stack.arena.cursorBlock = t.stack.arena.tailBlock)
    (taken : stackStep op t = some (answer, t')) :
    t'.stack.arena.cursorBlock = t'.stack.arena.tailBlock := by
  suffices same : t.stack.arena.SameBottom t'.stack.arena by
    rw [same.cursor, same.tail, bottom]
  cases op with
  | push bytes =>
      simp only [stackStep, Stack.push, lfAllocStackElem, Stack.store, Option.bind_eq_bind,
        Option.bind_eq_some_iff, Option.some.injEq, Prod.mk.injEq, Prod.exists] at taken
      obtain ⟨ptr, stack, ⟨_, _, ⟨_, arena, alloc, rfl, rfl⟩, _, ⟨heap, -, rfl⟩, -, rfl⟩, -, rfl⟩ :=
        taken
      have same := lfArenaAllocAtHead_sameBottom alloc
      exact ⟨same.tail, same.cursor⟩
  | pop =>
      simp only [stackStep, Option.bind_eq_bind] at taken
      obtain ⟨⟨slot, stack⟩, popped, taken⟩ := Option.bind_eq_some_iff.mp taken
      have same := lfPopFromStack_sameBottom popped
      cases slot with
      | none =>
          cases taken
          exact same
      | some ptr =>
          obtain ⟨bytes, -, taken⟩ := Option.bind_eq_some_iff.mp taken
          cases taken
          exact same

theorem lfInitStack_cursor {stack start : Stack β} (init : lfInitStack stack = some start) :
    start.arena.cursorBlock = start.arena.tailBlock := by
  by_cases refused : stack.elemSize = 0 ∨ stack.elemQttInBlock = 0
  · simp [lfInitStack, refused] at init
  · simp only [lfInitStack, lfInitArena, refused, ↓reduceIte, Option.bind_eq_bind,
      Option.bind_eq_some_iff, Option.some.injEq] at init
    obtain ⟨-, -, -, ⟨-, -, -, -, rfl⟩, rfl⟩ := init
    rfl

/-! ## What the search finds -/

/-- What stands in the first block. -/
theorem Deck.Reads.inFirst {entry : BlockPtr × Slab β} {rest : Deck β} {ptr : Ptr}
    {bytes : List β} (reads : Deck.Reads (entry :: rest) ptr bytes) (missing : entry.1 ∉ ptrs rest)
    (block : ptr.block = entry.1) :
    entry.2.data.read ptr.offset.toNat bytes.length = bytes := by
  obtain ⟨b, member, -, same⟩ := reads
  rcases List.mem_cons.mp member with rfl | later
  · exact same
  · refine absurd (List.mem_map_of_mem (f := Prod.fst) later) ?_
    rw [block]
    exact missing

/-- The first member that two predicates pick, when they agree on the members. -/
theorem find?_congr {α : Type} {l : List α} {one two : α → Bool}
    (agree : ∀ a ∈ l, one a = two a) : l.find? one = l.find? two := by
  induction l with
  | nil => rfl
  | cons a l ih =>
      obtain ⟨here, there⟩ := List.forall_mem_cons.mp agree
      rw [List.find?_cons, List.find?_cons, here, ih there]

/-- In a block the first of its elements with the content is found. -/
theorem slotWith_elements {entry : BlockPtr × Slab UInt8} {here : List (Element UInt8)}
    {content : List UInt8} (positive : 0 < content.length)
    (tiles : Tiles entry.1 entry.2.leftOffset (here.map slot) entry.2.rightOffset)
    (sized : ∀ e ∈ here, e.2.length = content.length)
    (reads : ∀ e ∈ here, entry.2.data.read e.1.offset.toNat content.length = e.2) :
    slotWith content content.length entry =
      (here.find? fun e => e.2 = content).map Prod.fst := by
  have reach := tiles.width_eq sized
  have count : (entry.2.rightOffset - entry.2.leftOffset) / content.length = here.length := by
    rw [reach, Nat.add_sub_cancel_left, Nat.mul_div_cancel_left _ positive]
  rw [slotWith, slotsOf, count, tiles.places sized, List.find?_map]
  refine congrArg (Option.map Prod.fst) (find?_congr fun e member => ?_)
  rw [Function.comp_apply, reads e member]

/-- Block after block the first of the elements with the content is found. -/
theorem findSome_slotWith {deck : Deck UInt8} {live : List (Element UInt8)} {content : List UInt8}
    (positive : 0 < content.length) (distinct : (ptrs deck).Nodup)
    (tiles : TilesDeck deck (live.map slot)) (sized : ∀ e ∈ live, e.2.length = content.length)
    (reads : ∀ e ∈ live, deck.Reads e.1 e.2) :
    deck.findSome? (slotWith content content.length) =
      (live.find? fun e => e.2 = content).map Prod.fst := by
  induction deck generalizing live with
  | nil =>
      obtain rfl : live = [] := List.map_eq_nil_iff.mp tiles
      rfl
  | cons entry rest ih =>
      obtain ⟨here, there, rfl, inBlock, behind⟩ := tiles.split_elements
      obtain ⟨sizedHere, sizedThere⟩ := List.forall_mem_append.mp sized
      obtain ⟨readsHere, readsThere⟩ := List.forall_mem_append.mp reads
      obtain ⟨missing, distinct⟩ := List.nodup_cons.mp distinct
      have found := slotWith_elements positive inBlock sizedHere (by
        intro e member
        rw [← sizedHere e member]
        exact (readsHere e member).inFirst missing (inBlock.inside (List.mem_map_of_mem member)).1)
      have others := ih distinct behind sizedThere (by
        intro e member
        refine (readsThere e member).of_cons fun same => missing ?_
        exact same ▸ behind.block_mem (List.mem_map_of_mem member))
      rw [List.findSome?_cons, found, List.find?_append, others]
      cases here.find? fun e => e.2 = content <;> rfl

/-- What is read does not depend on the order of the blocks. -/
theorem Deck.Reads.perm {deck deck' : Deck β} {ptr : Ptr} {bytes : List β}
    (reads : deck.Reads ptr bytes) (same : deck.Perm deck') : deck'.Reads ptr bytes := by
  obtain ⟨b, member, inside, read⟩ := reads
  exact ⟨b, same.subset member, inside, read⟩

/-- Used ranges that elements tile are whole slots. -/
theorem TilesDeck.whole {deck : Deck β} {live : List (Element β)} {width : ℕ}
    (tiles : TilesDeck deck (live.map slot)) (sized : ∀ e ∈ live, e.2.length = width)
    {entry : BlockPtr × Slab β} (member : entry ∈ deck) :
    entry.2.leftOffset ≤ entry.2.rightOffset ∧
      width ∣ entry.2.rightOffset - entry.2.leftOffset := by
  induction deck generalizing live with
  | nil => cases member
  | cons first rest ih =>
      obtain ⟨here, there, rfl, inBlock, behind⟩ := tiles.split_elements
      obtain ⟨sizedHere, sizedThere⟩ := List.forall_mem_append.mp sized
      rcases List.mem_cons.mp member with rfl | later
      · refine ⟨inBlock.le, here.length, ?_⟩
        rw [inBlock.width_eq sizedHere, Nat.add_sub_cancel_left]
      · exact ih behind sizedThere later

/-- The elements in the last block in use are those at the bottom. -/
theorem Stack.Holds.split_bottom {stack : Stack β} {front : Deck β} {last : BlockPtr × Slab β}
    {live : List (Element β)} (holds : stack.Holds (front ++ [last]) [] live) {count : ℕ}
    (blocks : stack.arena.blockSize = count * stack.elemSize) :
    TilesDeck [last] ((live.drop (live.length - count)).map slot) ∧
      TilesDeck front ((live.take (live.length - count)).map slot) := by
  obtain ⟨regions, others, split, above, below⟩ := tilesDeck_append.mp holds.tiles
  obtain ⟨top, bottom, rfl, rfl, rfl⟩ := List.map_eq_append_iff.mp split
  have inBlock := tilesDeck_singleton.mp below
  have sized := fun e member => holds.sized e (List.mem_append_right top member)
  have reach := inBlock.width_eq sized
  rw [holds.right last (by simp), blocks, Nat.mul_comm] at reach
  have taken : (top ++ bottom).length - count = top.length := by
    rw [List.length_append]
    cases front with
    | nil =>
        obtain rfl : top = [] := List.map_eq_nil_iff.mp above
        have bound : stack.elemSize * bottom.length ≤ stack.elemSize * count := by omega
        have fewer := Nat.le_of_mul_le_mul_left bound holds.positive
        rw [List.length_nil]
        omega
    | cons first front =>
        have inTail : last ∈ (first :: front ++ [last]).tail := by simp
        have behind := holds.filled_behind (blocks ▸ Nat.dvd_mul_left ..) inTail
        rw [behind.1, Nat.zero_add] at reach
        have filled := Nat.eq_of_mul_eq_mul_left holds.positive reach
        omega
  rw [taken, List.drop_left, List.take_left]
  exact ⟨below, above⟩

/-- A stack after a run of pushes and pops. -/
structure Stack.Reached (stack : Stack β) (t : Pushed β) (used : Deck β) : Prop where
  holds : t.stack.Holds used [] t.live
  size : t.stack.elemSize = stack.elemSize
  blocks : t.stack.arena.blockSize = stack.elemQttInBlock * stack.elemSize
  cursor : t.stack.arena.cursorBlock = t.stack.arena.tailBlock

theorem Stack.exists_reached (stack : Stack β) (positive : 0 < stack.elemSize)
    (some_in_block : 1 ≤ stack.elemQttInBlock) (aligned : stack.elemAlignment ∣ stack.elemSize)
    (small : stack.elemQttInBlock * stack.elemSize < sizeModulus) {ops : List (StackOp β)}
    (legal : ∀ op ∈ ops, op.Legal stack.elemSize) :
    ∃ start answers t used, lfInitStack stack = some start ∧
      run stackStep ops ⟨start, []⟩ = some (answers, t) ∧
      run lifoStep ops [] = some (answers, t.live.map Prod.snd) ∧ stack.Reached t used := by
  have width : stack.elemSize < sizeModulus :=
    lt_of_le_of_lt (Nat.le_mul_of_pos_left _ some_in_block) small
  have blocks := sizeWrap_of_lt small
  obtain ⟨start, used, init, holds, blockSize, -, size, -, count⟩ :=
    Stack.Holds.init positive some_in_block (paddedSize_of_dvd aligned positive width)
      (blocks.symm ▸ Nat.le_mul_of_pos_left _ some_in_block)
  obtain ⟨answers, t, used', runs, lifo, holds', -, keeps⟩ :=
    Stack.Holds.runs (t := ⟨start, []⟩) holds count (size.symm ▸ legal)
  have cursor := run_invariant (fun u : Pushed β =>
      u.stack.arena.cursorBlock = u.stack.arena.tailBlock)
    (fun _ _ _ _ bottom taken => stackStep_cursor bottom taken) (lfInitStack_cursor init) runs
  refine ⟨start, answers, t, used', init, runs, lifo, holds', keeps.size.trans size, ?_, cursor⟩
  rw [keeps.arena.blockSize, blockSize, blocks]

/-- **What `lf_debug_stack` shows.** After any pushes and pops it goes through the
slots of the elements that are left in the order in which they would be popped.
There are as many of them to a line as in a block, and only in the first line
there may be fewer. -/
theorem debug_shows_elements (stack : Stack β) (positive : 0 < stack.elemSize)
    (some_in_block : 1 ≤ stack.elemQttInBlock) (aligned : stack.elemAlignment ∣ stack.elemSize)
    (small : stack.elemQttInBlock * stack.elemSize < sizeModulus) (ops : List (StackOp β))
    (legal : ∀ op ∈ ops, op.Legal stack.elemSize) :
    ∃ start answers t elems lines, lfInitStack stack = some start ∧
      run stackStep ops ⟨start, []⟩ = some (answers, t) ∧
      run lifoStep ops [] = some (answers, elems) ∧
      (∃ fuel, lfDebugStack fuel t.stack = some lines) ∧
      lines.flatten = t.live.map Prod.fst ∧
      lines.flatten.map (t.stack.arena.heap.load · stack.elemSize) = elems.map some ∧
      (∀ line ∈ lines, line ≠ [] ∧ line.length ≤ stack.elemQttInBlock) ∧
      ∀ line ∈ lines.tail, line.length = stack.elemQttInBlock := by
  obtain ⟨start, answers, t, used, init, runs, lifo, reached⟩ :=
    stack.exists_reached positive some_in_block aligned small legal
  have holds := reached.holds
  have blocks : t.stack.arena.blockSize = stack.elemQttInBlock * t.stack.elemSize := by
    rw [reached.blocks, reached.size]
  obtain ⟨fuel, shown⟩ := holds.shows (by rw [reached.blocks]; exact small)
  obtain ⟨each, behind⟩ := holds.lines_tail blocks
  have inOrder := holds.tiles.flatten_lines holds.positive holds.sized
  refine ⟨start, answers, t, t.live.map Prod.snd, used.lines t.stack.elemSize, init, runs, lifo,
    ⟨fuel, shown⟩, inOrder, ?_, each, behind⟩
  rw [inOrder, List.map_map, List.map_map, ← reached.size]
  exact List.map_congr_left fun e member => holds.load member

theorem debug_shows_elements_pairs :
    ∃ start answers t elems lines,
      lfInitStack (Stack.declared (Allocator.bump (0 : UInt8)) 2 2 1) = some start ∧
      run stackStep [.push [1, 2], .push [3, 4], .push [5, 6]] ⟨start, []⟩ = some (answers, t) ∧
      run lifoStep [.push [1, 2], .push [3, 4], .push [5, 6]] [] = some (answers, elems) ∧
      (∃ fuel, lfDebugStack fuel t.stack = some lines) ∧
      lines.flatten = t.live.map Prod.fst ∧
      lines.flatten.map (t.stack.arena.heap.load · 2) = elems.map some ∧
      (∀ line ∈ lines, line ≠ [] ∧ line.length ≤ 2) ∧ ∀ line ∈ lines.tail, line.length = 2 :=
  debug_shows_elements (Stack.declared (Allocator.bump 0) 2 2 1) (by decide) (by decide)
    (by decide) (by decide) [.push [1, 2], .push [3, 4], .push [5, 6]]
    (by simp [StackOp.Legal, Stack.declared])

/-- **What `lf_get_stack_elem_by_content` finds.** After any pushes and pops it
answers `NULL` exactly when no element that is left has the content. Else it
answers with the first such element among those of the bottom block, top first,
and then among the others, top first. -/
theorem search_looks_at_bottom_first (stack : Stack UInt8) (positive : 0 < stack.elemSize)
    (some_in_block : 1 ≤ stack.elemQttInBlock) (aligned : stack.elemAlignment ∣ stack.elemSize)
    (small : stack.elemQttInBlock * stack.elemSize < sizeModulus) (ops : List (StackOp UInt8))
    (legal : ∀ op ∈ ops, op.Legal stack.elemSize) (content : List UInt8)
    (enough : stack.elemSize ≤ content.length) :
    ∃ start answers t elems answer, lfInitStack stack = some start ∧
      run stackStep ops ⟨start, []⟩ = some (answers, t) ∧
      run lifoStep ops [] = some (answers, elems) ∧
      (∃ fuel, lfGetStackElemByContent fuel t.stack content = some answer) ∧
      (answer = none ↔ content.take stack.elemSize ∉ elems) ∧
      answer = ((t.live.drop (t.live.length - stack.elemQttInBlock) ++
        t.live.take (t.live.length - stack.elemQttInBlock)).find? fun e =>
          e.2 = content.take stack.elemSize).map Prod.fst := by
  obtain ⟨start, answers, t, used, init, runs, lifo, reached⟩ :=
    stack.exists_reached positive some_in_block aligned small legal
  have holds := reached.holds
  obtain ⟨front, ⟨c, d⟩, rfl⟩ := List.eq_nil_or_concat' used |>.resolve_left holds.nonempty
  have rep := holds.rep
  rw [List.append_nil] at rep
  have cursor : t.stack.arena.cursorBlock = some c := reached.cursor.trans rep.tail_eq
  have walks := walks_start cursor rep.chain rep.distinct
  rw [List.append_nil] at walks
  have length : (content.take stack.elemSize).length = stack.elemSize :=
    List.length_take_of_le enough
  have sized : ∀ e ∈ t.live, e.2.length = (content.take stack.elemSize).length := by
    intro e member
    rw [length, ← reached.size]
    exact holds.sized e member
  have whole : ∀ entry ∈ front ++ [(c, d)], entry.2.IsWhole stack.elemSize := by
    intro entry member
    obtain ⟨ordered, slots⟩ := holds.tiles.whole holds.sized member
    have right := holds.right entry (List.mem_append_left _ member)
    exact ⟨ordered, le_of_eq (right.trans (rep.extent entry member).symm), reached.size ▸ slots⟩
  have order : (front ++ [(c, d)]).Perm ((c, d) :: front) := List.perm_append_singleton ..
  obtain ⟨returns, -⟩ :=
    @Walks.search t.stack.arena (content.take stack.elemSize) stack.elemSize _ _
    walks (le_of_eq length) fun entry member => whole entry (order.symm.subset member)
  obtain ⟨bottom, above⟩ := holds.split_bottom (by rw [reached.blocks, reached.size])
  have rejoined : (t.live.drop (t.live.length - stack.elemQttInBlock) ++
      t.live.take (t.live.length - stack.elemQttInBlock)).Perm t.live := by
    apply List.perm_append_comm.trans
    rw [List.take_append_drop]
  have found := findSome_slotWith (lt_of_lt_of_eq positive length.symm)
    ((order.map Prod.fst).nodup_iff.mp rep.distinct)
    (tilesDeck_append.mpr ⟨_, _, List.map_append, bottom, above⟩)
    (fun e member => sized e (rejoined.subset member))
    fun e member => by
      have reads := holds.reads e (rejoined.subset member)
      rw [List.append_nil] at reads
      exact reads.perm order
  rw [length] at returns found
  rw [found] at returns
  obtain ⟨fuel, ends⟩ := returns
  refine ⟨start, answers, t, t.live.map Prod.snd, _, init, runs, lifo, ⟨fuel, ?_⟩, ?_, rfl⟩
  · rw [lfGetStackElemByContent, lfGetArenaElemByContent, holds.padded, reached.size]
    simp only [Nat.not_lt.mpr enough, ↓reduceIte]
    exact ends
  · rw [Option.map_eq_none_iff, List.find?_eq_none]
    constructor
    · intro nowhere inLive
      obtain ⟨e, member, same⟩ := List.mem_map.mp inLive
      exact nowhere e (rejoined.symm.subset member) (decide_eq_true same)
    · intro missing e member same
      exact missing (List.mem_map.mpr ⟨e, rejoined.subset member, of_decide_eq_true same⟩)

/-- Of two equal elements the one in the bottom block is found. -/
theorem search_looks_at_bottom_first_pairs :
    ∃ start answers t elems answer,
      lfInitStack (Stack.declared (Allocator.bump (0 : UInt8)) 2 2 1) = some start ∧
      run stackStep [.push [1, 2], .push [3, 4], .push [1, 2]] ⟨start, []⟩ = some (answers, t) ∧
      run lifoStep [.push [1, 2], .push [3, 4], .push [1, 2]] [] = some (answers, elems) ∧
      (∃ fuel, lfGetStackElemByContent fuel t.stack [1, 2] = some answer) ∧
      (answer = none ↔ [1, 2] ∉ elems) ∧
      answer = ((t.live.drop (t.live.length - 2) ++ t.live.take (t.live.length - 2)).find? fun e =>
        e.2 = [1, 2]).map Prod.fst :=
  search_looks_at_bottom_first (Stack.declared (Allocator.bump 0) 2 2 1) (by decide) (by decide)
    (by decide) (by decide) [.push [1, 2], .push [3, 4], .push [1, 2]]
    (by simp [StackOp.Legal, Stack.declared]) [1, 2] (by decide)

end LowFlow
