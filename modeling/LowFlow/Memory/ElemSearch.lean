import LowFlow.Library.Loop
import LowFlow.Memory.Regions
import LowFlow.Memory.Stack

/-!
# Searching an arena for an element

`lf_get_arena_elem_by_content`. The search goes through the cursor block first
and then from the head block on, where the cursor block is passed over. In a
block it looks at slot after slot. On any chain whose used ranges are whole
slots, and wherever the cursor is, it goes through every block at most once and
finds an element that has the content when there is one
(`getArenaElemByContent_finds`).
-/

set_option autoImplicit false

namespace LowFlow

open Library

/-! ## The search -/

/-- `memcmp` of as many bytes as the first list has. -/
def memcmp : List UInt8 → List UInt8 → ℤ
  | a :: one, b :: two => if a = b then memcmp one two else (a.toNat : ℤ) - b.toNat
  | _, _ => 0

/-- The pointer that is stored in these bytes. -/
def pointerOf (bytes : List UInt8) : ℕ :=
  bytes.foldr (fun byte pointer => byte.toNat + 256 * pointer) 0

/-- Whether an element has the content. Elements of the size of a pointer are
compared as pointers. -/
def bytesMatch (elemSize : ℕ) (elem content : List UInt8) : Bool :=
  let isByteSized := elemSize = 8
  if isByteSized then pointerOf elem = pointerOf content else memcmp elem content = 0

/-- The inner loop: the slots of a block from an offset on, up to the last one. -/
def searchSlots (heap : Heap UInt8) (content : List UInt8) (elemSize elemPaddedSize : ℕ)
    (curBlock : BlockPtr) (lastElem : ℤ) : ℕ → ℕ → Option (Option Ptr)
  | 0, _ => none
  | fuel + 1, curChar => do
      if lastElem < curChar then some none
      else
        let elem ← heap.load ⟨curBlock, curChar⟩ elemSize
        if bytesMatch elemSize elem content then some (some ⟨curBlock, curChar⟩)
        else
          searchSlots heap content elemSize elemPaddedSize curBlock lastElem fuel
            (curChar + elemPaddedSize)

/-- The search in one block. A slot is not empty, so there are no more of them
than bytes. -/
def searchBlock (heap : Heap UInt8) (content : List UInt8) (elemSize elemPaddedSize : ℕ)
    (curBlock : BlockPtr) : Option (Option Ptr) := do
  let block ← heap.block curBlock
  if block.leftOffset = block.rightOffset then some none
  else
    let usedSize := sizeSub block.rightOffset block.leftOffset
    if usedSize < elemPaddedSize then some none
    else
      let lastElem : ℤ := (block.rightOffset : ℤ) - elemPaddedSize
      searchSlots heap content elemSize elemPaddedSize curBlock lastElem (block.rightOffset + 1)
        block.leftOffset

/-- The variables of the loop over the blocks. -/
structure BlockSearch where
  curBlock : Option BlockPtr
  nextBlock : Option BlockPtr

/-- `block ? block->next : NULL`. -/
def nextOf (heap : Heap UInt8) : Option BlockPtr → Option (Option BlockPtr)
  | some p => do some (← heap.block p).next
  | none => some none

/-- What is at the label `skip_block`. -/
def BlockSearch.skipBlock (arena : Arena UInt8) (s : BlockSearch) : Option BlockSearch := do
  let curBlock ←
    if s.nextBlock = arena.cursorBlock then do
      let cursor ← arena.heap.block (← arena.cursorBlock)
      some cursor.next
    else some s.nextBlock
  some ⟨curBlock, ← nextOf arena.heap curBlock⟩

/-- One round of the loop over the blocks. -/
def searchStep (arena : Arena UInt8) (content : List UInt8) (elemSize elemPaddedSize : ℕ)
    (s : BlockSearch) : Option (BlockSearch ⊕ Option Ptr) := do
  match s.curBlock with
  | none => some (.inr none)
  | some p =>
      match ← searchBlock arena.heap content elemSize elemPaddedSize p with
      | some elem => some (.inr (some elem))
      | none => some (.inl (← s.skipBlock arena))

/-- The variables before the first round. -/
def BlockSearch.start (arena : Arena UInt8) : BlockSearch :=
  ⟨arena.cursorBlock, arena.headBlock⟩

/-- `lf_get_arena_elem_by_content`, for at most `fuel` rounds of its loop. The
answer is `none` where the code returns `NULL`. -/
def lfGetArenaElemByContent (fuel : ℕ) (arena : Arena UInt8) (content : List UInt8)
    (elemSize elemPaddedSize : ℕ) : Option (Option Ptr) := do
  if content.length < elemSize then none
  iterate (searchStep arena (content.take elemSize) elemSize elemPaddedSize) fuel
    (BlockSearch.start arena)

def lfGetStackElemByContent (fuel : ℕ) (stack : Stack UInt8) (content : List UInt8) :
    Option (Option Ptr) :=
  lfGetArenaElemByContent fuel stack.arena content stack.elemSize stack.elemPaddedSize

/-! ## Comparing -/

theorem memcmp_eq_zero_iff {one two : List UInt8} (length : one.length = two.length) :
    memcmp one two = 0 ↔ one = two := by
  induction one generalizing two with
  | nil =>
      cases two with
      | nil => simp [memcmp]
      | cons => cases length
  | cons a one ih =>
      cases two with
      | nil => cases length
      | cons b two =>
          have rest := ih (Nat.succ.inj length)
          by_cases same : a = b
          · simp [memcmp, same, rest]
          · have apart : (a.toNat : ℤ) - b.toNat ≠ 0 := by
              intro zero
              exact same (UInt8.toNat_inj.mp (by omega))
            simp [memcmp, same, apart]

/-- Different bytes are different pointers. -/
theorem pointerOf_inj {one two : List UInt8} (length : one.length = two.length) :
    pointerOf one = pointerOf two ↔ one = two := by
  refine ⟨?_, congrArg _⟩
  intro same
  induction one generalizing two with
  | nil => exact (List.length_eq_zero_iff.mp length.symm).symm
  | cons a one ih =>
      cases two with
      | nil => cases length
      | cons b two =>
          have below := a.toNat_lt
          have below' := b.toNat_lt
          simp only [pointerOf, List.foldr_cons] at same
          have first : a = b := UInt8.toNat_inj.mp (by omega)
          have others := ih (Nat.succ.inj length) (by
            simp only [pointerOf]
            rw [first] at same
            omega)
          rw [first, others]

theorem bytesMatch_iff {elemSize : ℕ} {elem content : List UInt8}
    (length : elem.length = content.length) :
    bytesMatch elemSize elem content = true ↔ elem = content := by
  simp only [bytesMatch]
  split <;> simp [pointerOf_inj length, memcmp_eq_zero_iff length]

/-! ## The slots of a block -/

/-- The slots of a width that a used range has. -/
def slotsOf (width : ℕ) (entry : BlockPtr × Slab UInt8) : List Ptr :=
  placesFrom width ⟨entry.1, entry.2.leftOffset⟩
    ((entry.2.rightOffset - entry.2.leftOffset) / width)

/-- The slots of the blocks, from head to tail. -/
def Deck.slots (deck : Deck UInt8) (width : ℕ) : List Ptr :=
  deck.flatMap (slotsOf width)

/-- The first slot of the block that has the content. -/
def slotWith (content : List UInt8) (width : ℕ) (entry : BlockPtr × Slab UInt8) : Option Ptr :=
  (slotsOf width entry).find? fun ptr =>
    entry.2.data.read ptr.offset.toNat content.length = content

/-- The used range of the block is inside of it, and is whole slots. -/
def Slab.IsWhole (b : Slab UInt8) (width : ℕ) : Prop :=
  b.leftOffset ≤ b.rightOffset ∧ b.rightOffset ≤ b.data.extent ∧
    width ∣ b.rightOffset - b.leftOffset

section Block

variable {heap : Heap UInt8} {content : List UInt8} {elemPaddedSize : ℕ} {p : BlockPtr}
  {node : MemBlock UInt8}

/-- The inner loop finds the first slot with the content. The induction is on the
slots that are left. -/
theorem searchSlots_spec (found : heap.block p = some node)
    (fits : content.length ≤ elemPaddedSize) (positive : 0 < elemPaddedSize)
    (bound : node.rightOffset ≤ node.data.extent) {n fuel curChar : ℕ} (enough : n < fuel)
    (slots : curChar + n * elemPaddedSize = node.rightOffset) :
    searchSlots heap content content.length elemPaddedSize p
        ((node.rightOffset : ℤ) - elemPaddedSize) fuel curChar =
      some ((placesFrom elemPaddedSize ⟨p, curChar⟩ n).find? fun ptr =>
        node.data.read ptr.offset.toNat content.length = content) := by
  induction n generalizing fuel curChar with
  | zero =>
      obtain ⟨fuel, rfl⟩ := Nat.exists_eq_succ_of_ne_zero (Nat.ne_of_gt enough)
      have past : (node.rightOffset : ℤ) - elemPaddedSize < curChar := by omega
      simp [searchSlots, past, placesFrom]
  | succ n ih =>
      obtain ⟨fuel, rfl⟩ := Nat.exists_eq_succ_of_ne_zero (Nat.ne_of_gt (Nat.zero_lt_of_lt enough))
      rw [Nat.succ_mul] at slots
      have here : ¬ (node.rightOffset : ℤ) - elemPaddedSize < curChar := by omega
      have inside : Heap.InArea node.data curChar content.length := by
        refine ⟨Int.natCast_nonneg _, ?_⟩
        rw [Int.toNat_natCast]
        omega
      have loaded : heap.load ⟨p, curChar⟩ content.length =
          some (node.data.read curChar content.length) := by
        simp [Heap.load, found, inside]
      have onward := @ih fuel (curChar + elemPaddedSize) (by omega) (by omega)
      rw [Int.natCast_add] at onward
      rw [searchSlots, placesFrom, List.find?_cons]
      simp only [here, ↓reduceIte, loaded, Option.bind_eq_bind, Option.bind_some, Int.toNat_natCast]
      by_cases same : node.data.read curChar content.length = content
      · have matched := (@bytesMatch_iff content.length _ _
          (Area.length_read node.data curChar content.length)).mpr same
        rw [same] at matched
        simp only [same, matched, ↓reduceIte, decide_true]
      · have unmatched : bytesMatch content.length
            (node.data.read curChar content.length) content = false :=
          Bool.eq_false_iff.mpr fun matched => same ((bytesMatch_iff (by simp)).mp matched)
        simp only [unmatched, Bool.false_eq_true, ↓reduceIte, same, decide_false]
        exact onward

theorem searchBlock_spec (found : heap.block p = some node)
    (fits : content.length ≤ elemPaddedSize) (whole : node.IsWhole elemPaddedSize) :
    searchBlock heap content content.length elemPaddedSize p =
      some (slotWith content elemPaddedSize (p, node.toSlab)) := by
  obtain ⟨ordered, bound, n, slots⟩ := whole
  by_cases empty : node.leftOffset = node.rightOffset
  · simp [searchBlock, found, empty, slotWith, slotsOf, placesFrom]
  · have width : 0 < elemPaddedSize := by
      apply Nat.pos_of_ne_zero
      intro zero
      rw [zero, Nat.zero_mul] at slots
      omega
    have some_slot : 0 < n := by
      apply Nat.pos_of_ne_zero
      intro zero
      rw [zero, Nat.mul_zero] at slots
      omega
    have least := Nat.le_mul_of_pos_right elemPaddedSize some_slot
    have room : ¬ sizeSub node.rightOffset node.leftOffset < elemPaddedSize := by
      rw [sizeSub_of_le ordered]
      omega
    have count : (node.rightOffset - node.leftOffset) / elemPaddedSize = n := by
      rw [slots, Nat.mul_div_cancel_left _ width]
    have small : n ≤ elemPaddedSize * n := Nat.le_mul_of_pos_left n width
    have searched := searchSlots_spec found fits width bound
      (show n < node.rightOffset + 1 by omega)
      (show node.leftOffset + n * elemPaddedSize = node.rightOffset by
        rw [Nat.mul_comm]
        omega)
    simp only [searchBlock, found, Option.bind_eq_bind, Option.bind_some, empty, ↓reduceIte, room,
      searched, slotWith, slotsOf, count]

end Block

/-! ## The blocks that are gone through -/

/-- From this state of the loop on, these blocks are gone through as long as
nothing is found. -/
inductive Walks (arena : Arena UInt8) : Deck UInt8 → BlockSearch → Prop where
  | done (nextBlock : Option BlockPtr) : Walks arena [] ⟨none, nextBlock⟩
  | visit {p : BlockPtr} {b : Slab UInt8} {rest : Deck UInt8} {nextBlock : Option BlockPtr}
      {node : MemBlock UInt8} {s : BlockSearch} (found : arena.heap.block p = some node)
      (carried : node.toSlab = b) (skips : BlockSearch.skipBlock arena ⟨some p, nextBlock⟩ = some s)
      (onward : Walks arena rest s) : Walks arena ((p, b) :: rest) ⟨some p, nextBlock⟩

/-- The variables when these blocks of the chain are next. -/
def BlockSearch.visiting (blocks : Deck UInt8) : BlockSearch :=
  ⟨(ptrs blocks).head?, (ptrs blocks.tail).head?⟩

section Blocks

variable {arena : Arena UInt8} {before first : Option BlockPtr} {blocks : Deck UInt8} {c : BlockPtr}

/-- The link of the first of these blocks. -/
theorem nextOf_first (chain : Segment (blockView UInt8) arena.heap.block none before first blocks) :
    nextOf arena.heap first = some (ptrs blocks.tail).head? := by
  cases blocks with
  | nil =>
      obtain rfl : first = none := chain
      rfl
  | cons entry blocks =>
      obtain ⟨rfl, node, found, -, -, onward⟩ := chain
      have next : node.next = (ptrs blocks).head? := onward.first_eq.trans (Option.or_none ..)
      simp only [nextOf, found, Option.bind_eq_bind, Option.bind_some, next, List.tail_cons]

/-- The next block is gone to, when it is not the cursor block. -/
theorem skipBlock_on (chain : Segment (blockView UInt8) arena.heap.block none before first blocks)
    (other : first ≠ arena.cursorBlock) (curBlock : Option BlockPtr) :
    BlockSearch.skipBlock arena ⟨curBlock, first⟩ = some (.visiting blocks) := by
  have next := nextOf_first chain
  have head : first = (ptrs blocks).head? := chain.first_eq.trans (Option.or_none ..)
  simp only [BlockSearch.skipBlock, other, ↓reduceIte, Option.bind_eq_bind, Option.bind_some, next]
  rw [head, BlockSearch.visiting]

/-- The cursor block is passed over. -/
theorem skipBlock_over (cursor : arena.cursorBlock = some c) {d : Slab UInt8}
    (chain : Segment (blockView UInt8) arena.heap.block none before first ((c, d) :: blocks))
    (curBlock : Option BlockPtr) :
    BlockSearch.skipBlock arena ⟨curBlock, some c⟩ = some (.visiting blocks) := by
  obtain ⟨-, node, found, -, -, onward⟩ := chain
  have next : nextOf arena.heap node.next = some (ptrs blocks.tail).head? := nextOf_first onward
  have head : node.next = (ptrs blocks).head? := onward.first_eq.trans (Option.or_none ..)
  simp only [BlockSearch.skipBlock, cursor, ↓reduceIte, Option.bind_eq_bind, Option.bind_some,
    found, next]
  rw [head, BlockSearch.visiting]

/-- Behind the cursor block all blocks are gone through. -/
theorem walks_behind (cursor : arena.cursorBlock = some c)
    (chain : Segment (blockView UInt8) arena.heap.block none before first blocks)
    (missing : c ∉ ptrs blocks) : Walks arena blocks (.visiting blocks) := by
  induction blocks generalizing before first with
  | nil => exact .done none
  | cons entry blocks ih =>
      obtain ⟨rfl, node, found, carried, -, onward⟩ := chain
      rw [ptrs, List.map_cons, List.mem_cons, not_or] at missing
      have head : (blockView UInt8).next node = (ptrs blocks).head? :=
        onward.first_eq.trans (Option.or_none ..)
      have other : (blockView UInt8).next node ≠ arena.cursorBlock := by
        rw [head, cursor]
        exact fun same => missing.2 (List.mem_of_head? same)
      have skips := skipBlock_on onward other (some entry.1)
      rw [head] at skips
      exact .visit found carried skips (ih onward missing.2)

/-- In front of the cursor block it is passed over. -/
theorem walks_around (cursor : arena.cursorBlock = some c) {front back : Deck UInt8}
    {d : Slab UInt8}
    (chain : Segment (blockView UInt8) arena.heap.block none before first (front ++ (c, d) :: back))
    (distinct : (ptrs (front ++ (c, d) :: back)).Nodup) (nonempty : front ≠ []) :
    Walks arena (front ++ back) (.visiting (front ++ (c, d) :: back)) := by
  induction front generalizing before first with
  | nil => exact absurd rfl nonempty
  | cons entry front ih =>
      obtain ⟨rfl, node, found, carried, -, onward⟩ := chain
      obtain ⟨-, distinct⟩ := List.nodup_cons.mp distinct
      cases front with
      | nil =>
          have skips := skipBlock_over cursor onward (some entry.1)
          obtain ⟨-, tail, -, -, -, behind⟩ := onward
          exact .visit found carried skips
            (walks_behind cursor behind (List.nodup_cons.mp distinct).1)
      | cons next front =>
          have head : (blockView UInt8).next node = some next.1 := onward.1
          have other : (blockView UInt8).next node ≠ arena.cursorBlock := by
            rw [head, cursor]
            intro same
            refine (List.nodup_cons.mp distinct).1 ?_
            rw [Option.some.inj same]
            simp
          have skips := skipBlock_on onward other (some entry.1)
          rw [head] at skips
          exact .visit found carried skips (ih onward distinct (by simp))

/-- The cursor block is gone through first, and then the others from head to tail. -/
theorem walks_start (cursor : arena.cursorBlock = some c) {front back : Deck UInt8} {d : Slab UInt8}
    (chain : Segment (blockView UInt8) arena.heap.block none none arena.headBlock
      (front ++ (c, d) :: back))
    (distinct : (ptrs (front ++ (c, d) :: back)).Nodup) :
    Walks arena ((c, d) :: (front ++ back)) (.start arena) := by
  obtain ⟨node, found, carried⟩ := chain.lookup (p := c) (v := d) (by simp)
  rw [BlockSearch.start, cursor]
  cases front with
  | nil =>
      have skips := skipBlock_over cursor chain (some c)
      obtain ⟨head, _, _, _, _, behind⟩ := id chain
      rw [head]
      exact .visit found carried skips (walks_behind cursor behind (List.nodup_cons.mp distinct).1)
  | cons first front =>
      have head : arena.headBlock = some first.1 := chain.1
      have other : arena.headBlock ≠ arena.cursorBlock := by
        rw [head, cursor]
        intro same
        refine (List.nodup_cons.mp distinct).1 ?_
        rw [Option.some.inj same]
        simp
      exact .visit found carried (skipBlock_on chain other (some c))
        (walks_around cursor chain distinct (by simp))

/-- The loop returns what is found first, and goes through no other blocks. -/
theorem Walks.search {content : List UInt8} {elemPaddedSize : ℕ} {order : Deck UInt8}
    {s : BlockSearch} (walks : Walks arena order s) (fits : content.length ≤ elemPaddedSize)
    (whole : ∀ entry ∈ order, entry.2.IsWhole elemPaddedSize) :
    Returns (searchStep arena content content.length elemPaddedSize) s
        (order.findSome? (slotWith content elemPaddedSize)) ∧
      ∀ fuel, (states (searchStep arena content content.length elemPaddedSize) fuel s).filterMap
        BlockSearch.curBlock <+: ptrs order := by
  induction walks with
  | done nextBlock =>
      have step : searchStep arena content content.length elemPaddedSize ⟨none, nextBlock⟩ =
        some (.inr none) := rfl
      refine ⟨.of_done step, ?_⟩
      intro fuel
      cases fuel with
      | zero => exact List.nil_prefix
      | succ fuel => simp [states_done step]
  | @visit p b rest nextBlock node s found carried skips onward ih =>
      subst carried
      obtain ⟨here, whole⟩ := List.forall_mem_cons.mp whole
      have searched := searchBlock_spec found fits here
      cases slot : slotWith content elemPaddedSize (p, node.toSlab) with
      | some elem =>
          have step : searchStep arena content content.length elemPaddedSize ⟨some p, nextBlock⟩ =
              some (.inr (some elem)) := by
            simp [searchStep, searched, slot]
          refine ⟨?_, ?_⟩
          · rw [List.findSome?_cons_of_isSome (by simp [slot]), slot]
            exact .of_done step
          · intro fuel
            cases fuel with
            | zero => exact List.nil_prefix
            | succ fuel => simp [states_done step]
      | none =>
          have step : searchStep arena content content.length elemPaddedSize ⟨some p, nextBlock⟩ =
              some (.inl s) := by
            simp [searchStep, searched, slot, skips]
          obtain ⟨returns, passes⟩ := ih whole
          refine ⟨?_, ?_⟩
          · rw [List.findSome?_cons_of_isNone (by simp [slot])]
            exact .of_next step returns
          · intro fuel
            cases fuel with
            | zero => exact List.nil_prefix
            | succ fuel =>
                rw [states_next step]
                simpa using passes fuel

end Blocks

/-! ## What the search answers -/

/-- A slot that has the content, in one of the blocks. -/
theorem slotWith_reads {deck : Deck UInt8} {content : List UInt8} {width : ℕ}
    {entry : BlockPtr × Slab UInt8} (member : entry ∈ deck) {ptr : Ptr}
    (found : slotWith content width entry = some ptr) :
    ptr ∈ deck.slots width ∧ deck.Reads ptr content := by
  have inBlock := List.mem_of_find?_eq_some found
  have same := List.find?_some found
  obtain ⟨k, -, rfl⟩ := mem_placesFrom.mp inBlock
  refine ⟨List.mem_flatMap.mpr ⟨entry, member, inBlock⟩, entry.2, member, ?_,
    of_decide_eq_true same⟩
  exact Int.add_nonneg (Int.natCast_nonneg _)
    (Int.mul_nonneg (Int.natCast_nonneg _) (Int.natCast_nonneg _))

/-- A block in which nothing is found has no slot with the content. -/
theorem slotWith_none {deck : Deck UInt8} (distinct : (ptrs deck).Nodup) {content : List UInt8}
    {width : ℕ} (none : ∀ entry ∈ deck, slotWith content width entry = none) {ptr : Ptr}
    (slot : ptr ∈ deck.slots width) : ¬ deck.Reads ptr content := by
  rintro ⟨b, member, -, same⟩
  obtain ⟨⟨p, c⟩, inDeck, inBlock⟩ := List.mem_flatMap.mp slot
  obtain ⟨k, -, place⟩ := mem_placesFrom.mp inBlock
  have block : ptr.block = p := by rw [place]
  rw [block] at member
  obtain rfl : b = c := congrArg Prod.snd (List.inj_on_of_nodup_map distinct member inDeck rfl)
  have missing := List.find?_eq_none.mp (none (p, b) inDeck) ptr inBlock
  exact missing (decide_eq_true same)

/-- **The search for an element.** On every chain of blocks whose used ranges are
whole slots, and with the cursor at any of them, the search ends, goes through
every block at most once, answers `NULL` exactly when no slot has the content,
and else answers with a slot that has it. -/
theorem getArenaElemByContent_finds (arena : Arena UInt8) (deck : Deck UInt8)
    (chain : Segment (blockView UInt8) arena.heap.block none none arena.headBlock deck)
    (distinct : (ptrs deck).Nodup) (cursor : ∃ p ∈ ptrs deck, arena.cursorBlock = some p)
    (content : List UInt8) (elemSize elemPaddedSize : ℕ) (enough : elemSize ≤ content.length)
    (fits : elemSize ≤ elemPaddedSize)
    (whole : ∀ entry ∈ deck, entry.2.IsWhole elemPaddedSize) :
    ∃ answer,
      (∃ fuel, lfGetArenaElemByContent fuel arena content elemSize elemPaddedSize = some answer) ∧
      (∀ fuel, ((states (searchStep arena (content.take elemSize) elemSize elemPaddedSize) fuel
          (.start arena)).filterMap BlockSearch.curBlock).Nodup ∧
        (states (searchStep arena (content.take elemSize) elemSize elemPaddedSize) fuel
          (.start arena)).filterMap BlockSearch.curBlock ⊆ ptrs deck) ∧
      (answer ≠ none ↔
        ∃ ptr ∈ deck.slots elemPaddedSize, deck.Reads ptr (content.take elemSize)) ∧
      (∀ ptr, answer = some ptr →
        ptr ∈ deck.slots elemPaddedSize ∧ deck.Reads ptr (content.take elemSize)) ∧
      ∀ stack : Stack UInt8, stack.arena = arena → stack.elemSize = elemSize →
        stack.elemPaddedSize = elemPaddedSize → ∃ fuel,
          lfGetStackElemByContent fuel stack content = some answer := by
  obtain ⟨c, inChain, atCursor⟩ := cursor
  obtain ⟨⟨c, d⟩, inDeck, rfl⟩ := List.mem_map.mp inChain
  obtain ⟨front, back, rfl⟩ := List.append_of_mem inDeck
  have walks := walks_start atCursor chain distinct
  have length : (content.take elemSize).length = elemSize := List.length_take_of_le enough
  have order : ((c, d) :: (front ++ back)).Perm (front ++ (c, d) :: back) :=
    List.perm_middle.symm
  obtain ⟨returns, passes⟩ := @Walks.search arena (content.take elemSize) elemPaddedSize _ _ walks
    (le_of_eq_of_le length fits) fun entry member => whole entry (order.subset member)
  rw [length] at returns
  simp only [length] at passes
  have answers : ∃ fuel, lfGetArenaElemByContent fuel arena content elemSize elemPaddedSize =
      some (((c, d) :: (front ++ back)).findSome?
        (slotWith (content.take elemSize) elemPaddedSize)) := by
    obtain ⟨fuel, ends⟩ := returns
    exact ⟨fuel, by simp [lfGetArenaElemByContent, Nat.not_lt.mpr enough, ends]⟩
  have found : ∀ ptr, ((c, d) :: (front ++ back)).findSome?
        (slotWith (content.take elemSize) elemPaddedSize) = some ptr →
      ptr ∈ Deck.slots (front ++ (c, d) :: back) elemPaddedSize ∧
        Deck.Reads (front ++ (c, d) :: back) ptr (content.take elemSize) := by
    intro ptr answer
    obtain ⟨entry, member, slot⟩ := List.exists_of_findSome?_eq_some answer
    exact slotWith_reads (order.subset member) slot
  refine ⟨_, answers, fun fuel => ⟨?_, ?_⟩, ⟨?_, ?_⟩, found, ?_⟩
  · refine (passes fuel).sublist.nodup ?_
    exact ((order.map Prod.fst).nodup_iff).mpr distinct
  · exact fun p member => (order.map Prod.fst).subset ((passes fuel).subset member)
  · intro some_answer
    obtain ⟨ptr, answer⟩ := Option.ne_none_iff_exists'.mp some_answer
    exact ⟨ptr, found ptr answer⟩
  · rintro ⟨ptr, slot, reads⟩ none
    have nowhere := List.findSome?_eq_none_iff.mp none
    exact slotWith_none distinct (fun entry member => nowhere entry (order.symm.subset member)) slot
      reads
  · rintro stack rfl rfl rfl
    exact answers

/-- Three slots of two bytes in two blocks, with the cursor at the first one. -/
theorem getArenaElemByContent_finds_three :
    ∃ (arena : Arena UInt8) (deck : Deck UInt8) (answer : Option Ptr),
      deck.length = 2 ∧ Represents arena deck ∧
      (∃ fuel, lfGetArenaElemByContent fuel arena [0, 0] 2 2 = some answer) ∧
      (answer ≠ none ↔ ∃ ptr ∈ deck.slots 2, deck.Reads ptr [0, 0]) := by
  have ends : ((lfInitArena (Arena.declared (Allocator.bump (0 : UInt8)) 4 .left)).bind
      fun start => (run arenaStep [.allocAtTail 2, .allocAtTail 2, .allocAtTail 2]
        ⟨start, []⟩).bind fun reached => (blocksFrom reached.2.arena.heap
          reached.2.arena.blockCount reached.2.arena.headBlock).map fun deck =>
            (reached.2.arena.cursorBlock, deck.map fun entry => (entry.1,
              entry.2.leftOffset, entry.2.rightOffset, entry.2.data.extent))) =
      some (some 0, [(0, 0, 4, 4), (2, 0, 2, 4)]) := by decide +kernel
  obtain ⟨start, init, ends⟩ := Option.bind_eq_some_iff.mp ends
  obtain ⟨⟨answers, t⟩, runs, ends⟩ := Option.bind_eq_some_iff.mp ends
  obtain ⟨deck, found, ends⟩ := Option.map_eq_some_iff.mp ends
  obtain ⟨atCursor, blocks⟩ := Prod.mk.inj ends
  obtain ⟨deck', tiled⟩ := Traced.Tiled.of_run init runs
  obtain rfl := Option.some.inj (found.symm.trans tiled.rep.blocksFrom_eq)
  have cursor : ∃ p ∈ ptrs deck, t.arena.cursorBlock = some p := by
    refine ⟨0, ?_, atCursor⟩
    have inBlocks : (0, 0, 4, 4) ∈ deck.map fun entry => (entry.1,
        entry.2.leftOffset, entry.2.rightOffset, entry.2.data.extent) := by
      rw [blocks]
      exact List.mem_cons_self ..
    obtain ⟨entry, member, same⟩ := List.mem_map.mp inBlocks
    exact List.mem_map.mpr ⟨entry, member, congrArg Prod.fst same⟩
  have whole : ∀ entry ∈ deck, entry.2.IsWhole 2 := by
    intro entry member
    have inBlocks := List.mem_map_of_mem (f := fun entry : BlockPtr × Slab UInt8 => (entry.1,
      entry.2.leftOffset, entry.2.rightOffset, entry.2.data.extent)) member
    rw [blocks] at inBlocks
    simp only [List.mem_cons, Prod.mk.injEq, List.not_mem_nil, or_false] at inBlocks
    rcases inBlocks with ⟨-, left, right, extent⟩ | ⟨-, left, right, extent⟩ <;>
      simp [Slab.IsWhole, left, right, extent]
  obtain ⟨answer, ends, -, iff, -⟩ := getArenaElemByContent_finds t.arena deck tiled.rep.chain
    tiled.rep.distinct cursor [0, 0] 2 2 (by decide) (by decide) whole
  have length := congrArg List.length blocks
  exact ⟨t.arena, deck, answer, by simpa using length, tiled.rep, ends, iff⟩

end LowFlow
