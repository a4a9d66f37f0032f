import LowFlow.Memory.ListRuns

/-!
# Two lists side by side

A list that was reset and a new one get the same calls. Their blocks are paired:
paired blocks have the same used range, and the elements stand at the same
offsets of paired blocks. What a call answers is then the same, as long as the
blocks that only one of the lists has, which are empty, are not the ones in
which a first element could stand (`ListInUse.SideBySide`).

`Represents.getNext` says what `lf_get_next_list_elem` does for any address in
the area of a block, whether an element ends before the right offset or not.
-/

set_option autoImplicit false

namespace LowFlow

open Library

variable {β : Type}

/-! ## Looking up an address of a block -/

/-- Whether an address in its own area is that of a slot of the block. -/
theorem Slab.spans_iff (b : Slab β) (width offset : ℕ) :
    b.Spans width (b.data.base + offset) ↔
      b.leftOffset ≤ offset ∧ offset + width ≤ b.rightOffset := by
  simp only [Slab.Spans]
  omega

/-- When no block has the address, the search passes over all of them, and behind the last
one it needs its fuel to be used up. -/
theorem findBlock_missing {heap : Heap β} {width : ℕ} {address : ℤ}
    {before first : Option BlockPtr} {deck : Deck β}
    (chain : Segment (blockView β) heap.block none before first deck)
    (missing : ∀ entry ∈ deck, ¬ entry.2.Spans width address) {fuel : ℕ}
    (enough : deck.length ≤ fuel) :
    findBlock heap width address fuel first =
      if fuel = deck.length then some none else none := by
  induction deck generalizing before first fuel with
  | nil =>
      cases (show first = none from chain)
      cases fuel with
      | zero => rfl
      | succ fuel => rfl
  | cons entry rest ih =>
      obtain ⟨rfl, node, found, carried, -, onward⟩ := chain
      obtain ⟨notHere, others⟩ := List.forall_mem_cons.mp missing
      obtain ⟨fuel, rfl⟩ : ∃ n, fuel = n + 1 := ⟨fuel - 1, by simp at enough; omega⟩
      have passed : ¬ node.Spans width address := by
        rw [← show node.toSlab = entry.2 from carried] at notHere
        exact notHere
      simp only [findBlock, Option.bind_eq_bind, Option.bind_some, found, passed, ↓reduceIte]
      rw [show (node.next : Option BlockPtr) = (blockView β).next node from rfl,
        ih onward others (by simpa using enough)]
      simp

section Lookup

variable {list : LFList β} {before later : Deck β} {p : BlockPtr} {b : Slab β}

/-- Only the block in whose area an address is can have it. -/
theorem Represents.not_spans (rep : Represents list.arena (before ++ (p, b) :: later))
    (bounded : ∀ entry ∈ before ++ (p, b) :: later, entry.2.rightOffset ≤ list.arena.blockSize)
    (width : 0 < list.elemPaddedSize) {offset : ℕ} (inside : offset < list.arena.blockSize)
    {entry : BlockPtr × Slab β} (inDeck : entry ∈ before ++ (p, b) :: later)
    (other : entry ≠ (p, b)) :
    ¬ entry.2.Spans list.elemPaddedSize (b.data.base + offset) := by
  intro spans
  have here : (p, b) ∈ before ++ (p, b) :: later := by simp
  have extent : b.data.extent = list.arena.blockSize := rep.extent _ here
  have extent' := rep.extent _ inDeck
  have right := bounded _ inDeck
  have low := spans.1
  have high := spans.2
  exact other (@Deck.block_of_address _ _ rep.apart _ _ inDeck here (b.data.base + offset)
    ⟨by omega, by omega⟩ ⟨by dsimp only; omega, by dsimp only; omega⟩)

/-- The lookup starts at the cursor block when that is the block of the address, and the
address is in its used range. -/
theorem Represents.startBlock_eq (rep : Represents list.arena (before ++ (p, b) :: later))
    (bounded : ∀ entry ∈ before ++ (p, b) :: later, entry.2.rightOffset ≤ list.arena.blockSize)
    {cursor : BlockPtr} (atCursor : list.arena.cursorBlock = some cursor)
    (inDeck : cursor ∈ ptrs (before ++ (p, b) :: later)) {offset : ℕ}
    (inside : offset < list.arena.blockSize) :
    startBlock list (b.data.base + offset) =
      some (if cursor = p ∧ b.leftOffset ≤ offset ∧ offset < b.rightOffset then some p
        else list.arena.headBlock) := by
  have here : (p, b) ∈ before ++ (p, b) :: later := by simp
  obtain ⟨⟨q, c⟩, member, rfl⟩ := List.mem_map.mp inDeck
  obtain ⟨node, found, carried⟩ := rep.lookup member
  cases (show node.toSlab = c from carried)
  have extent : b.data.extent = list.arena.blockSize := rep.extent _ here
  have extent' : node.data.extent = list.arena.blockSize := rep.extent _ member
  have right : node.rightOffset ≤ list.arena.blockSize := bounded _ member
  by_cases inCursor : (node.data.base + node.leftOffset : ℤ) ≤ b.data.base + offset ∧
      (b.data.base : ℤ) + offset < node.data.base + node.rightOffset
  · have same := @Deck.block_of_address _ _ rep.apart _ _ member here (b.data.base + offset)
      ⟨by dsimp only; omega, by dsimp only; omega⟩ ⟨by dsimp only; omega, by dsimp only; omega⟩
    obtain ⟨rfl, rfl⟩ := Prod.mk.inj same
    have inRange : node.leftOffset ≤ offset ∧ offset < node.rightOffset := by omega
    simp [startBlock, atCursor, found, inCursor, inRange]
  · have outside : ¬ (q = p ∧ b.leftOffset ≤ offset ∧ offset < b.rightOffset) := by
      rintro ⟨rfl, low, high⟩
      obtain rfl := rep.same_block here member
      exact inCursor ⟨by omega, by omega⟩
    rw [if_neg outside]
    simp [startBlock, atCursor, found, inCursor]

/-- **What comes after an address in the area of a block.** Where no slot of the block is at
the address, the lookup finds nothing, and runs past the end of the chain when it started in
the middle of it. -/
theorem Represents.getNext (rep : Represents list.arena (before ++ (p, b) :: later))
    (bounded : ∀ entry ∈ before ++ (p, b) :: later, entry.2.rightOffset ≤ list.arena.blockSize)
    (width : 0 < list.elemPaddedSize) {cursor : BlockPtr}
    (atCursor : list.arena.cursorBlock = some cursor)
    (inDeck : cursor ∈ ptrs (before ++ (p, b) :: later)) {offset : ℕ}
    (inside : offset < list.arena.blockSize) :
    lfGetNextListElem list ⟨p, offset⟩ =
      if b.leftOffset ≤ offset ∧ offset + list.elemPaddedSize ≤ b.rightOffset then
        if offset + list.elemPaddedSize = b.rightOffset then
          match later with
          | [] => some (none, list.withCursor (some p))
          | entry :: _ => some (some ⟨entry.1, 0⟩, list.withCursor (some entry.1))
        else some (some ⟨p, offset + list.elemPaddedSize⟩, list.withCursor (some p))
      else if (cursor = p ∧ b.leftOffset ≤ offset ∧ offset < b.rightOffset) ∧ before ≠ [] then none
      else some (none, list) := by
  have here : (p, b) ∈ before ++ (p, b) :: later := by simp
  have started := rep.startBlock_eq bounded atCursor inDeck inside
  have distinct := rep.distinct
  rw [ptrs, List.map_append, List.map_cons] at distinct
  have notBefore : ∀ entry ∈ before, entry ≠ (p, b) := by
    rintro entry member rfl
    exact List.disjoint_of_nodup_append distinct (List.mem_map_of_mem member) (by simp)
  obtain ⟨first, -, chainHere⟩ := segment_append.mp rep.chain
  obtain ⟨rfl, node, found, carried, back, onward⟩ := id chainHere
  cases (show node.toSlab = b from carried)
  have placed : list.arena.heap.address ⟨p, offset⟩ = some (node.data.base + (offset : ℤ)) := by
    simp [Heap.address, found]
  have count : list.arena.blockCount = before.length + (later.length + 1) := by
    simp [rep.count]
  by_cases spans : node.leftOffset ≤ offset ∧ offset + list.elemPaddedSize ≤ node.rightOffset
  · have slot := (Slab.spans_iff node.toSlab list.elemPaddedSize offset).mpr spans
    have search : ∃ start, startBlock list (node.data.base + (offset : ℤ)) = some start ∧
        findBlock list.arena.heap list.elemPaddedSize (node.data.base + (offset : ℤ))
          list.arena.blockCount start = some (some p) := by
      refine ⟨_, started, ?_⟩
      split
      · exact findBlock_here found slot (by omega)
      · refine findBlock_chain rep.chain (?_) slot (by omega)
        intro entry member
        exact rep.not_spans bounded width inside (List.mem_append_left _ member)
          (notBefore entry member)
    obtain ⟨start, started, searched⟩ := search
    rw [if_pos spans, lfGetNextListElem_of_find placed started searched found]
    by_cases atEnd : offset + list.elemPaddedSize = node.rightOffset
    · rw [if_neg (by omega), if_pos atEnd]
      cases later with
      | nil =>
          have next : node.next = none := onward
          rw [next]
      | cons entry later =>
          obtain ⟨next, follower, foundNext, -⟩ := onward
          have next' : node.next = some entry.1 := next
          rw [next']
          simp [foundNext]
    · rw [if_pos (by omega), if_neg atEnd]
  · have nowhere : ∀ entry ∈ before ++ (p, node.toSlab) :: later,
        ¬ entry.2.Spans list.elemPaddedSize (node.data.base + (offset : ℤ)) := by
      intro entry member
      by_cases same : entry = (p, node.toSlab)
      · subst same
        exact mt (Slab.spans_iff node.toSlab list.elemPaddedSize offset).mp spans
      · exact rep.not_spans bounded width inside member same
    rw [if_neg spans]
    simp only [lfGetNextListElem, placed, started, Option.bind_eq_bind, Option.bind_some]
    by_cases atCursorBlock : cursor = p ∧ node.leftOffset ≤ offset ∧ offset < node.rightOffset
    · have fromHere := findBlock_missing chainHere
        (fun entry member => nowhere entry (List.mem_append_right _ member))
        (show ((p, node.toSlab) :: later).length ≤ list.arena.blockCount by simp [count])
      rw [if_pos atCursorBlock, fromHere]
      cases before with
      | nil => simp [atCursorBlock, count]
      | cons entry before => simp [atCursorBlock, count]
    · have fromHead := findBlock_missing rep.chain nowhere
        (show (before ++ (p, node.toSlab) :: later).length ≤ list.arena.blockCount by simp [count])
      rw [if_neg atCursorBlock, fromHead, if_pos rep.count, if_neg fun both => atCursorBlock both.1]
      rfl

end Lookup

/-! ## Paired blocks -/

/-- A block of one list, and the block of another that is used like it. -/
abbrev BlockPair (β : Type) := (BlockPtr × Slab β) × (BlockPtr × Slab β)

/-- Elements at one offset of paired blocks, with the same value. -/
def Twin (elemSize blockSize : ℕ) (pairs : List (BlockPair β)) (one two : Ptr) : Prop :=
  ∃ pair ∈ pairs, ∃ offset : ℕ, one = ⟨pair.1.1, offset⟩ ∧ two = ⟨pair.2.1, offset⟩ ∧
    offset + elemSize ≤ blockSize ∧
    ∀ i, offset ≤ i → i < offset + elemSize → pair.1.2.data.byte i = pair.2.2.data.byte i

/-- Blocks with these pointers play the same part. -/
def SamePart (idle idle' : Deck β) (pairs : List (BlockPair β)) (p q : BlockPtr) : Prop :=
  p ∈ ptrs idle ∧ q ∈ ptrs idle' ∨ ∃ pair ∈ pairs, pair.1.1 = p ∧ pair.2.1 = q

/-- An element fits behind the middle of an empty block. -/
def LFList.MiddleFits (list : LFList β) : Prop :=
  startOffset .middle list.arena.blockSize + list.elemSize ≤ list.arena.blockSize ∧
    startOffset .middle list.arena.blockSize + list.elemPaddedSize ≤ list.arena.blockSize

/-- Two lists that cannot be told apart. Their blocks are paired, behind blocks
that are idle: empty, and without room for an element. -/
structure ListInUse.SideBySide (one two : ListInUse β) (idle idle' : Deck β)
    (pairs : List (BlockPair β)) : Prop where
  size : two.list.elemSize = one.list.elemSize
  padded : two.list.elemPaddedSize = one.list.elemPaddedSize
  blocks : two.list.arena.blockSize = one.list.arena.blockSize
  positive : 0 < one.list.elemSize
  width : 0 < one.list.elemPaddedSize
  small : one.list.elemPaddedSize < sizeModulus
  count : two.list.elemCount = one.list.elemCount
  rep : Represents one.list.arena (idle ++ pairs.map Prod.fst)
  rep' : Represents two.list.arena (idle' ++ pairs.map Prod.snd)
  left : ∀ pair ∈ pairs, pair.2.2.leftOffset = pair.1.2.leftOffset
  right : ∀ pair ∈ pairs, pair.2.2.rightOffset = pair.1.2.rightOffset
  bounded : ∀ pair ∈ pairs, pair.1.2.rightOffset ≤ one.list.arena.blockSize
  empty : ∀ entry ∈ idle ++ idle',
    entry.2.leftOffset = startOffset .middle one.list.arena.blockSize ∧
      entry.2.rightOffset = startOffset .middle one.list.arena.blockSize
  reserve : idle = [] ∧ idle' = [] ∨ idle ≠ [] ∧ idle' ≠ [] ∧ ¬ one.list.MiddleFits
  cursor : ∃ p q, one.list.arena.cursorBlock = some p ∧ two.list.arena.cursorBlock = some q ∧
    SamePart idle idle' pairs p q
  elems : List.Forall₂ (Twin one.list.elemSize one.list.arena.blockSize pairs) one.elems two.elems

/-- Pairs of blocks that were written to alike have the same elements. -/
theorem Twin.mono {elemSize blockSize : ℕ} {pairs pairs' : List (BlockPair β)} {one two : Ptr}
    (twin : Twin elemSize blockSize pairs one two)
    (kept : ∀ pair ∈ pairs, ∃ pair' ∈ pairs', pair'.1.1 = pair.1.1 ∧ pair'.2.1 = pair.2.1 ∧
      ∀ i, pair.1.2.data.byte i = pair.2.2.data.byte i →
        pair'.1.2.data.byte i = pair'.2.2.data.byte i) :
    Twin elemSize blockSize pairs' one two := by
  obtain ⟨pair, member, offset, rfl, rfl, inside, same⟩ := twin
  obtain ⟨pair', member', first, second, bytes⟩ := kept pair member
  refine ⟨pair', member', offset, by rw [first], by rw [second], inside, ?_⟩
  intro i low high
  exact bytes i (same i low high)

/-- The same bytes written to two areas at the same offset are the same there. -/
theorem Area.write_same {one two : Area β} {offset : ℕ} (bytes : List β) {i : ℕ}
    (same : offset ≤ i ∧ i < offset + bytes.length ∨ one.byte i = two.byte i) :
    (one.write offset bytes).byte i = (two.write offset bytes).byte i := by
  simp only [Area.write]
  by_cases low : offset ≤ i
  · rw [if_pos low, if_pos low]
    by_cases new : i - offset < bytes.length
    · simp [new]
    · rw [List.getD_eq_default _ _ (by omega), List.getD_eq_default _ _ (by omega)]
      exact same.resolve_left (by omega)
  · rw [if_neg low, if_neg low]
    exact same.resolve_left (by omega)

/-- Bytes that can be written to an element lie inside its block. -/
theorem storeElems_inside {width elemSize : ℕ} {values : List (List β)} {arena : Arena β}
    {deck : Deck β} (rep : Represents arena deck) {p : BlockPtr} (member : p ∈ ptrs deck)
    (sized : ∀ v ∈ values, v.length = elemSize) {offset : ℕ} {heap : Heap β}
    (stored : storeElems width arena.heap ⟨p, offset⟩ values = some heap) {i : ℕ}
    (inRange : i < values.length) : offset + i * width + elemSize ≤ arena.blockSize := by
  induction values generalizing arena deck offset i with
  | nil => cases inRange
  | cons value values ih =>
      obtain ⟨sizedHere, sized⟩ := List.forall_mem_cons.mp sized
      obtain ⟨⟨q, b⟩, inDeck, rfl⟩ := List.mem_map.mp member
      by_cases inside : offset + value.length ≤ arena.blockSize
      · obtain ⟨heap₁, first, rep₁, keeps₁⟩ := rep.store member inside
        simp only [storeElems, first, Option.bind_eq_bind, Option.bind_some] at stored
        cases i with
        | zero => omega
        | succ i =>
            have rest : offset + width + i * width + elemSize ≤ arena.blockSize :=
              ih rep₁ (by simpa using member) sized (by simpa using stored) (by simpa using inRange)
            rw [Nat.succ_mul]
            omega
      · have outside := rep.store_outside inDeck (Nat.not_le.mp inside)
        simp [storeElems, outside] at stored

/-- A push, once its room is there. -/
theorem LFList.push_eq (list : LFList β) {values : List (List β)} (some_values : values ≠ [])
    {ptr : Ptr} {arena : Arena β} (alloc : lfArenaAllocAtTail list.arena
      (sizeWrap (values.length * list.elemPaddedSize)) = some (ptr, arena)) :
    list.push values = (storeElems list.elemPaddedSize arena.heap ptr values).map fun heap =>
      (ptr, { list with
        arena := { arena with heap }, elemCount := list.elemCount + values.length }) := by
  simp only [LFList.push, lfAllocListElems, List.length_eq_zero_iff, some_values, ↓reduceIte, alloc,
    Option.bind_eq_bind, Option.bind_some, Option.map_eq_bind]
  rfl

namespace ListInUse.SideBySide

variable {one two : ListInUse β} {idle idle' : Deck β} {pairs : List (BlockPair β)}

/-! ### Which block is paired with which -/

theorem fst_unique (side : one.SideBySide two idle idle' pairs) {pair pair' : BlockPair β}
    (member : pair ∈ pairs) (member' : pair' ∈ pairs) (same : pair.1.1 = pair'.1.1) :
    pair = pair' := by
  have distinct := side.rep.distinct
  rw [ptrs, List.map_append, List.map_map] at distinct
  exact List.inj_on_of_nodup_map (List.nodup_append'.mp distinct).2.1 member member' same

theorem snd_unique (side : one.SideBySide two idle idle' pairs) {pair pair' : BlockPair β}
    (member : pair ∈ pairs) (member' : pair' ∈ pairs) (same : pair.2.1 = pair'.2.1) :
    pair = pair' := by
  have distinct := side.rep'.distinct
  rw [ptrs, List.map_append, List.map_map] at distinct
  exact List.inj_on_of_nodup_map (List.nodup_append'.mp distinct).2.1 member member' same

theorem fst_not_idle (side : one.SideBySide two idle idle' pairs) {pair : BlockPair β}
    (member : pair ∈ pairs) : pair.1.1 ∉ ptrs idle := by
  have distinct := side.rep.distinct
  rw [ptrs, List.map_append, List.map_map] at distinct
  intro inIdle
  exact (List.nodup_append'.mp distinct).2.2 inIdle
    (List.mem_map_of_mem (f := Prod.fst ∘ Prod.fst) member)

theorem snd_not_idle (side : one.SideBySide two idle idle' pairs) {pair : BlockPair β}
    (member : pair ∈ pairs) : pair.2.1 ∉ ptrs idle' := by
  have distinct := side.rep'.distinct
  rw [ptrs, List.map_append, List.map_map] at distinct
  intro inIdle
  exact (List.nodup_append'.mp distinct).2.2 inIdle
    (List.mem_map_of_mem (f := Prod.fst ∘ Prod.snd) member)

/-- Of two blocks that play the same part, one is the first of a pair when the other is the
second. -/
theorem part_iff (side : one.SideBySide two idle idle' pairs) {p q : BlockPtr}
    (part : SamePart idle idle' pairs p q) {pair : BlockPair β} (member : pair ∈ pairs) :
    p = pair.1.1 ↔ q = pair.2.1 := by
  rcases part with ⟨inIdle, inIdle'⟩ | ⟨other, inPairs, rfl, rfl⟩
  · constructor
    · rintro rfl
      exact absurd inIdle (side.fst_not_idle member)
    · rintro rfl
      exact absurd inIdle' (side.snd_not_idle member)
  · constructor
    · intro same
      rw [side.fst_unique inPairs member same]
    · intro same
      rw [side.snd_unique inPairs member same]

theorem part_mem {p q : BlockPtr} (part : SamePart idle idle' pairs p q) :
    p ∈ ptrs (idle ++ pairs.map Prod.fst) ∧ q ∈ ptrs (idle' ++ pairs.map Prod.snd) := by
  rcases part with ⟨inIdle, inIdle'⟩ | ⟨pair, member, rfl, rfl⟩
  · simp only [ptrs, List.map_append]
    exact ⟨List.mem_append_left _ inIdle, List.mem_append_left _ inIdle'⟩
  · exact ⟨List.mem_map_of_mem (List.mem_append_right _ (List.mem_map_of_mem member)),
      List.mem_map_of_mem (List.mem_append_right _ (List.mem_map_of_mem member))⟩

/-- Moving the cursors to blocks of the same part. -/
theorem withCursor (side : one.SideBySide two idle idle' pairs) {p q : BlockPtr}
    (part : SamePart idle idle' pairs p q) :
    ListInUse.SideBySide ⟨one.list.withCursor (some p), one.elems⟩
      ⟨two.list.withCursor (some q), two.elems⟩ idle idle' pairs :=
  { side with
    rep := side.rep.withCursor (some p)
    rep' := side.rep'.withCursor (some q)
    cursor := ⟨p, q, rfl, rfl, part⟩ }

/-! ### What pointers mean -/

/-- An element of the first list that stands in a paired block. -/
theorem twin_of_fst (side : one.SideBySide two idle idle' pairs) {pair : BlockPair β}
    (member : pair ∈ pairs) {offset : ℤ} (known : (⟨pair.1.1, offset⟩ : Ptr) ∈ one.elems) :
    (⟨pair.2.1, offset⟩ : Ptr) ∈ two.elems ∧
      Twin one.list.elemSize one.list.arena.blockSize [pair] ⟨pair.1.1, offset⟩
        ⟨pair.2.1, offset⟩ := by
  obtain ⟨i, inRange, here⟩ := List.getElem_of_mem known
  have inRange' : i < two.elems.length := side.elems.length_eq ▸ inRange
  obtain ⟨pair', member', o, first, second, inside, same⟩ := side.elems.get inRange inRange'
  simp only [List.get_eq_getElem, here, Ptr.mk.injEq] at first second
  obtain ⟨samePtr, rfl⟩ := first
  obtain rfl := side.fst_unique member member' samePtr
  exact ⟨second ▸ List.getElem_mem inRange', pair, by simp, o, rfl, rfl, inside, same⟩

theorem known_of_snd (side : one.SideBySide two idle idle' pairs) {pair : BlockPair β}
    (member : pair ∈ pairs) {offset : ℤ} (known : (⟨pair.2.1, offset⟩ : Ptr) ∈ two.elems) :
    (⟨pair.1.1, offset⟩ : Ptr) ∈ one.elems := by
  obtain ⟨i, inRange, here⟩ := List.getElem_of_mem known
  have inRange' : i < one.elems.length := side.elems.length_eq ▸ inRange
  obtain ⟨pair', member', o, first, second, -⟩ := side.elems.get inRange' inRange
  simp only [List.get_eq_getElem, here, Ptr.mk.injEq] at first second
  obtain ⟨samePtr, rfl⟩ := second
  obtain rfl := side.snd_unique member member' samePtr
  exact first ▸ List.getElem_mem inRange'

/-- Pointers to the same place of paired blocks mean the same. -/
theorem answer_pair (side : one.SideBySide two idle idle' pairs) {pair : BlockPair β}
    (member : pair ∈ pairs) (offset : ℤ) :
    one.answer (some ⟨pair.1.1, offset⟩) = two.answer (some ⟨pair.2.1, offset⟩) := by
  by_cases known : (⟨pair.1.1, offset⟩ : Ptr) ∈ one.elems
  · obtain ⟨known', pair', single, o, first, -, inside, same⟩ := side.twin_of_fst member known
    obtain rfl := List.mem_singleton.mp single
    obtain ⟨-, rfl⟩ := Ptr.mk.inj first
    have inDeck : pair'.1 ∈ idle ++ pairs.map Prod.fst :=
      List.mem_append_right _ (List.mem_map_of_mem member)
    have inDeck' : pair'.2 ∈ idle' ++ pairs.map Prod.snd :=
      List.mem_append_right _ (List.mem_map_of_mem member)
    have inside' : o + two.list.elemSize ≤ two.list.arena.blockSize := by
      rw [side.size, side.blocks]
      exact inside
    rw [ListInUse.answer, ListInUse.answer, if_pos known, if_pos known',
      side.rep.load inDeck inside, side.rep'.load inDeck' inside', side.size]
    refine congrArg (fun bytes => Answer.elem (some bytes))
      (List.map_congr_left ?_)
    intro i inRange
    have bound := List.mem_range.mp inRange
    exact same _ (Nat.le_add_right ..) (by omega)
  · have unknown : (⟨pair.2.1, offset⟩ : Ptr) ∉ two.elems := fun known' =>
      known (side.known_of_snd member known')
    rw [ListInUse.answer, ListInUse.answer, if_neg known, if_neg unknown]

/-- No element stands in an idle block. -/
theorem answer_idle (side : one.SideBySide two idle idle' pairs) {p q : BlockPtr}
    (inIdle : p ∈ ptrs idle) (inIdle' : q ∈ ptrs idle') (offset offset' : ℤ) :
    one.answer (some ⟨p, offset⟩) = .elem none ∧ two.answer (some ⟨q, offset'⟩) = .elem none := by
  have unknown : (⟨p, offset⟩ : Ptr) ∉ one.elems := by
    intro known
    obtain ⟨i, inRange, here⟩ := List.getElem_of_mem known
    obtain ⟨pair, member, o, first, -⟩ :=
      side.elems.get inRange (side.elems.length_eq ▸ inRange)
    simp only [List.get_eq_getElem, here, Ptr.mk.injEq] at first
    exact side.fst_not_idle member (first.1 ▸ inIdle)
  have unknown' : (⟨q, offset'⟩ : Ptr) ∉ two.elems := by
    intro known
    obtain ⟨i, inRange, here⟩ := List.getElem_of_mem known
    obtain ⟨pair, member, o, -, second, -⟩ :=
      side.elems.get (side.elems.length_eq ▸ inRange) inRange
    simp only [List.get_eq_getElem, here, Ptr.mk.injEq] at second
    exact side.snd_not_idle member (second.1 ▸ inIdle')
  rw [ListInUse.answer, ListInUse.answer, if_neg unknown, if_neg unknown']
  exact ⟨rfl, rfl⟩

/-! ### Writing and allocating -/

variable {front : List (BlockPair β)} {p q : BlockPtr} {b c : Slab β}

/-- A change of the last blocks that keeps their used ranges and the elements in them. -/
theorem changeLast (side : one.SideBySide two idle idle' (front ++ [((p, b), (q, c))]))
    {b' c' : Slab β} {heap heap' : Heap β} {added added' : List Ptr}
    (rep : Represents { one.list.arena with heap }
      (idle ++ (front ++ [((p, b'), (q, c'))]).map Prod.fst))
    (rep' : Represents { two.list.arena with heap := heap' }
      (idle' ++ (front ++ [((p, b'), (q, c'))]).map Prod.snd))
    (left : c'.leftOffset = b'.leftOffset) (right : c'.rightOffset = b'.rightOffset)
    (bounded : b'.rightOffset ≤ one.list.arena.blockSize)
    (bytes : ∀ i, b.data.byte i = c.data.byte i → b'.data.byte i = c'.data.byte i)
    (new : List.Forall₂ (Twin one.list.elemSize one.list.arena.blockSize
      (front ++ [((p, b'), (q, c'))])) added added') :
    ListInUse.SideBySide ⟨{ one.list with arena := { one.list.arena with heap } },
      one.elems ++ added⟩
      ⟨{ two.list with arena := { two.list.arena with heap := heap' } }, two.elems ++ added'⟩
      idle idle' (front ++ [((p, b'), (q, c'))]) := by
  have onFront {P : BlockPair β → Prop} (all : ∀ pair ∈ front ++ [((p, b), (q, c))], P pair)
      (last : P ((p, b'), (q, c'))) : ∀ pair ∈ front ++ [((p, b'), (q, c'))], P pair := by
    refine List.forall_mem_append.mpr ⟨(List.forall_mem_append.mp all).1, ?_⟩
    exact List.forall_mem_singleton.mpr last
  refine { side with
    rep := rep
    rep' := rep'
    left := onFront side.left left
    right := onFront side.right right
    bounded := onFront side.bounded bounded
    cursor := ?_
    elems := List.rel_append (side.elems.imp fun _ _ twin => twin.mono fun pair member => ?_) new }
  · obtain ⟨r, s, atOne, atTwo, part⟩ := side.cursor
    refine ⟨r, s, atOne, atTwo, part.imp id ?_⟩
    rintro ⟨pair, member, rfl, rfl⟩
    rcases List.mem_append.mp member with inFront | last
    · exact ⟨pair, List.mem_append_left _ inFront, rfl, rfl⟩
    · obtain rfl := List.mem_singleton.mp last
      exact ⟨((p, b'), (q, c')), by simp, rfl, rfl⟩
  · rcases List.mem_append.mp member with inFront | last
    · exact ⟨pair, List.mem_append_left _ inFront, rfl, rfl, fun _ same => same⟩
    · obtain rfl := List.mem_singleton.mp last
      exact ⟨((p, b'), (q, c')), by simp, rfl, rfl, bytes⟩

/-- Writing an element to the same place of the last blocks. -/
theorem store (side : one.SideBySide two idle idle' (front ++ [((p, b), (q, c))])) {offset : ℕ}
    {value : List β} (sized : value.length = one.list.elemSize)
    (inside : offset + value.length ≤ one.list.arena.blockSize) :
    ∃ heap heap', one.list.arena.heap.store ⟨p, offset⟩ value = some heap ∧
      two.list.arena.heap.store ⟨q, offset⟩ value = some heap' ∧
      ListInUse.SideBySide ⟨{ one.list with arena := { one.list.arena with heap } },
        one.elems ++ [⟨p, offset⟩]⟩
        ⟨{ two.list with arena := { two.list.arena with heap := heap' } },
          two.elems ++ [⟨q, offset⟩]⟩
        idle idle' (front ++ [((p, b.write offset value), (q, c.write offset value))]) := by
  have member : ((p, b), (q, c)) ∈ front ++ [((p, b), (q, c))] := by simp
  have rep := side.rep
  have rep' := side.rep'
  simp only [List.map_append, List.map_singleton, ← List.append_assoc] at rep rep'
  have missing : p ∉ ptrs (idle ++ front.map Prod.fst) := by
    have distinct := rep.distinct
    rw [ptrs, List.map_append] at distinct
    exact fun old => List.disjoint_of_nodup_append distinct old (by simp)
  have missing' : q ∉ ptrs (idle' ++ front.map Prod.snd) := by
    have distinct := rep'.distinct
    rw [ptrs, List.map_append] at distinct
    exact fun old => List.disjoint_of_nodup_append distinct old (by simp)
  obtain ⟨heap, stored, written, -⟩ := rep.store (p := p) (by simp) inside
  obtain ⟨heap', stored', written', -⟩ := rep'.store (p := q) (by simp) (side.blocks.symm ▸ inside)
  rw [modify_concat _ _ _ _ missing] at written
  rw [modify_concat _ _ _ _ missing'] at written'
  refine ⟨heap, heap', stored, stored', side.changeLast (by simpa using written)
    (by simpa using written') (side.left _ member) (side.right _ member) (side.bounded _ member)
    (fun i same => Area.write_same value (.inr same)) (.cons ?_ .nil)⟩
  refine ⟨((p, b.write offset value), (q, c.write offset value)), by simp, offset, rfl, rfl,
    by omega, ?_⟩
  intro i low high
  exact Area.write_same value (.inl ⟨low, by omega⟩)

/-- Writing elements to consecutive places of the last blocks. -/
theorem storeElems (side : one.SideBySide two idle idle' (front ++ [((p, b), (q, c))]))
    {values : List (List β)} (sized : ∀ v ∈ values, v.length = one.list.elemSize) (offset : ℕ) :
    LowFlow.storeElems one.list.elemPaddedSize one.list.arena.heap ⟨p, offset⟩ values = none ∧
      LowFlow.storeElems one.list.elemPaddedSize two.list.arena.heap ⟨q, offset⟩ values = none ∨
    ∃ heap heap' pairs',
      LowFlow.storeElems one.list.elemPaddedSize one.list.arena.heap ⟨p, offset⟩ values =
        some heap ∧
      LowFlow.storeElems one.list.elemPaddedSize two.list.arena.heap ⟨q, offset⟩ values =
        some heap' ∧
      ListInUse.SideBySide ⟨{ one.list with arena := { one.list.arena with heap } },
        one.elems ++ placesFrom one.list.elemPaddedSize ⟨p, offset⟩ values.length⟩
        ⟨{ two.list with arena := { two.list.arena with heap := heap' } },
          two.elems ++ placesFrom one.list.elemPaddedSize ⟨q, offset⟩ values.length⟩
        idle idle' pairs' := by
  induction values generalizing one two b c offset with
  | nil => exact .inr ⟨_, _, _, rfl, rfl, by simpa [placesFrom] using side⟩
  | cons value values ih =>
      obtain ⟨sizedHere, sized⟩ := List.forall_mem_cons.mp sized
      by_cases inside : offset + value.length ≤ one.list.arena.blockSize
      · obtain ⟨heap, heap', stored, stored', side₁⟩ := side.store sizedHere inside
        rcases ih side₁ sized (offset + one.list.elemPaddedSize) with
          ⟨fails, fails'⟩ | ⟨heap₂, heap₂', pairs', others, others', side₂⟩
        · exact .inl ⟨by simpa [LowFlow.storeElems, stored] using fails,
            by simpa [LowFlow.storeElems, stored'] using fails'⟩
        · refine .inr ⟨heap₂, heap₂', pairs', by simpa [LowFlow.storeElems, stored] using others,
            by simpa [LowFlow.storeElems, stored'] using others', ?_⟩
          simpa [placesFrom] using side₂
      · have inDeck : (p, b) ∈ idle ++ (front ++ [((p, b), (q, c))]).map Prod.fst := by simp
        have inDeck' : (q, c) ∈ idle' ++ (front ++ [((p, b), (q, c))]).map Prod.snd := by simp
        have outside := side.rep.store_outside inDeck (Nat.not_le.mp inside)
        have outside' := side.rep'.store_outside inDeck'
          (show two.list.arena.blockSize < offset + value.length by
            rw [side.blocks]
            exact Nat.not_le.mp inside)
        exact .inl ⟨by simp [LowFlow.storeElems, outside], by simp [LowFlow.storeElems, outside']⟩

/-- Arenas in which a pair of blocks was added, or the last pair has grown. -/
theorem withArenas (side : one.SideBySide two idle idle' pairs) {arena arena' : Arena β}
    {pairs' : List (BlockPair β)} (keeps : one.list.arena.Keeps arena)
    (keeps' : two.list.arena.Keeps arena')
    (kept : ∀ pair ∈ pairs, ∃ pair' ∈ pairs', pair'.1.1 = pair.1.1 ∧ pair'.2.1 = pair.2.1 ∧
      pair'.1.2.data = pair.1.2.data ∧ pair'.2.2.data = pair.2.2.data)
    (rep : Represents arena (idle ++ pairs'.map Prod.fst))
    (rep' : Represents arena' (idle' ++ pairs'.map Prod.snd))
    (left : ∀ pair ∈ pairs', pair.2.2.leftOffset = pair.1.2.leftOffset)
    (right : ∀ pair ∈ pairs', pair.2.2.rightOffset = pair.1.2.rightOffset)
    (bounded : ∀ pair ∈ pairs', pair.1.2.rightOffset ≤ one.list.arena.blockSize) :
    ListInUse.SideBySide ⟨{ one.list with arena }, one.elems⟩
      ⟨{ two.list with arena := arena' }, two.elems⟩ idle idle' pairs' := by
  have blocks : arena.blockSize = one.list.arena.blockSize := keeps.blockSize
  refine { side with
    blocks := keeps'.blockSize.trans (side.blocks.trans blocks.symm)
    rep := rep
    rep' := rep'
    left := left
    right := right
    bounded := by simpa only [blocks] using bounded
    empty := by simpa only [blocks] using side.empty
    reserve := ?_
    cursor := ?_
    elems := ?_ }
  · refine side.reserve.imp id fun ⟨some_idle, some_idle', noRoom⟩ => ⟨some_idle, some_idle', ?_⟩
    simpa only [LFList.MiddleFits, blocks] using noRoom
  · obtain ⟨r, s, atOne, atTwo, part⟩ := side.cursor
    refine ⟨r, s, keeps.cursor.trans atOne, keeps'.cursor.trans atTwo, part.imp id ?_⟩
    rintro ⟨pair, member, rfl, rfl⟩
    obtain ⟨pair', member', first, second, -⟩ := kept pair member
    exact ⟨pair', member', first, second⟩
  · simp only [blocks]
    refine side.elems.imp fun _ _ twin => twin.mono fun pair member => ?_
    obtain ⟨pair', member', first, second, data, data'⟩ := kept pair member
    exact ⟨pair', member', first, second, fun i same => by rw [data, data', same]⟩

/-- Opening a block on both sides. -/
theorem opened (side : one.SideBySide two idle idle' pairs) {arena arena' : Arena β} {size : ℕ}
    (bound : size ≤ one.list.arena.blockSize) (keeps : one.list.arena.Keeps arena)
    (keeps' : two.list.arena.Keeps arena') {p q : BlockPtr} {area area' : Area β} {n n' : ℕ}
    (rep : Represents arena (idle ++ pairs.map Prod.fst ++ [(p, ⟨area, size, 0, n⟩)]))
    (rep' : Represents arena' (idle' ++ pairs.map Prod.snd ++ [(q, ⟨area', size, 0, n'⟩)])) :
    ListInUse.SideBySide ⟨{ one.list with arena }, one.elems⟩
      ⟨{ two.list with arena := arena' }, two.elems⟩ idle idle'
      (pairs ++ [((p, ⟨area, size, 0, n⟩), (q, ⟨area', size, 0, n'⟩))]) := by
  refine side.withArenas keeps keeps' (?_) (by simpa using rep)
    (by simpa using rep') ?_ ?_ ?_
  · intro pair member
    exact ⟨pair, List.mem_append_left _ member, rfl, rfl, rfl, rfl⟩
  · exact List.forall_mem_append.mpr ⟨side.left, by simp⟩
  · exact List.forall_mem_append.mpr ⟨side.right, by simp⟩
  · exact List.forall_mem_append.mpr ⟨side.bounded, by simpa using bound⟩

/-- An allocation at the tails is made in paired blocks, or in idle ones, or on neither side. -/
theorem allocAtTail (side : one.SideBySide two idle idle' pairs) (size : ℕ) :
    lfArenaAllocAtTail one.list.arena size = none ∧
      lfArenaAllocAtTail two.list.arena size = none ∨
    ∃ p q offset arena arena',
      lfArenaAllocAtTail one.list.arena size = some (⟨p, (offset : ℕ)⟩, arena) ∧
      lfArenaAllocAtTail two.list.arena size = some (⟨q, (offset : ℕ)⟩, arena') ∧
      ((∃ front b c, ListInUse.SideBySide ⟨{ one.list with arena }, one.elems⟩
          ⟨{ two.list with arena := arena' }, two.elems⟩ idle idle' (front ++ [((p, b), (q, c))])) ∨
        ¬ one.list.MiddleFits ∧ offset = startOffset .middle one.list.arena.blockSize ∧
          offset + size ≤ one.list.arena.blockSize ∧
          arena.blockSize = one.list.arena.blockSize ∧
          arena'.blockSize = one.list.arena.blockSize ∧
          (∃ deck, Represents arena deck ∧ p ∈ ptrs deck) ∧
          ∃ deck, Represents arena' deck ∧ q ∈ ptrs deck) := by
  by_cases refused : size = 0 ∨ one.list.arena.blockSize < size
  · exact .inl ⟨by simp [lfArenaAllocAtTail, refused],
      by simp [lfArenaAllocAtTail, side.blocks, refused]⟩
  have bound : size ≤ one.list.arena.blockSize := by omega
  obtain ⟨ptr, arena, deck, alloc, change, rep, keeps, -⟩ :=
    side.rep.allocAtTail (show 0 < size by omega) bound
  obtain ⟨ptr', arena', deck', alloc', change', rep', keeps', -⟩ :=
    side.rep'.allocAtTail (show 0 < size by omega) (side.blocks.symm ▸ bound)
  refine .inr ?_
  rcases List.eq_nil_or_concat' pairs with rfl | ⟨front, ⟨⟨p, b⟩, ⟨q, c⟩⟩, rfl⟩
  · -- the last blocks are idle
    have someIdle : ∃ f p b f' q c, idle = f ++ [(p, b)] ∧ idle' = f' ++ [(q, c)] := by
      obtain ⟨f, ⟨p, b⟩, split⟩ := (List.eq_nil_or_concat' idle).resolve_left
        (by simpa using side.rep.nonempty)
      obtain ⟨f', ⟨q, c⟩, split'⟩ := (List.eq_nil_or_concat' idle').resolve_left
        (by simpa using side.rep'.nonempty)
      exact ⟨f, p, b, f', q, c, split, split'⟩
    obtain ⟨f, p, b, f', q, c, rfl, rfl⟩ := someIdle
    have noRoom : ¬ one.list.MiddleFits := by
      rcases side.reserve with ⟨none, -⟩ | ⟨-, -, noRoom⟩
      · simp at none
      · exact noRoom
    have right : b.rightOffset = startOffset .middle one.list.arena.blockSize :=
      (side.empty (p, b) (by simp)).2
    have right' : c.rightOffset = startOffset .middle one.list.arena.blockSize :=
      (side.empty (q, c) (by simp)).2
    have width : b.size = one.list.arena.blockSize := side.rep.sized (p, b) (by simp)
    have width' : c.size = one.list.arena.blockSize :=
      (side.rep'.sized (q, c) (by simp)).trans side.blocks
    have middle := startOffset_le .middle one.list.arena.blockSize
    simp only [List.map_nil, List.append_nil] at change change'
    rcases change.at_last with ⟨room, rfl, rfl⟩ | ⟨full, rfl, rfl⟩ <;>
      rcases change'.at_last with ⟨room', rfl, rfl⟩ | ⟨full', rfl, rfl⟩
    · rw [width, right, sizeSub_of_le middle] at room
      rw [right] at alloc
      rw [right'] at alloc'
      exact ⟨p, q, _, arena, arena', alloc, alloc', .inr ⟨noRoom, rfl, by omega, keeps.blockSize,
        keeps'.blockSize.trans side.blocks, ⟨_, rep, by simp⟩, _, rep', by simp⟩⟩
    · rw [width, right] at room
      rw [width', right'] at full'
      omega
    · rw [width, right] at full
      rw [width', right'] at room'
      omega
    · exact ⟨_, _, 0, arena, arena', alloc, alloc', .inl ⟨[], _, _,
        side.opened bound keeps keeps' (by simpa using rep) (by simpa using rep')⟩⟩
  · -- the last blocks are a pair
    have member : ((p, b), (q, c)) ∈ front ++ [((p, b), (q, c))] := by simp
    have right : c.rightOffset = b.rightOffset := side.right _ member
    have left : c.leftOffset = b.leftOffset := side.left _ member
    have inside : b.rightOffset ≤ one.list.arena.blockSize := side.bounded _ member
    have width : b.size = one.list.arena.blockSize := side.rep.sized (p, b) (by simp)
    have width' : c.size = one.list.arena.blockSize :=
      (side.rep'.sized (q, c) (by simp)).trans side.blocks
    simp only [List.map_append, List.map_singleton, ← List.append_assoc] at change change'
    rcases change.at_last with ⟨room, rfl, rfl⟩ | ⟨full, rfl, rfl⟩ <;>
      rcases change'.at_last with ⟨room', rfl, rfl⟩ | ⟨full', rfl, rfl⟩
    · rw [width, sizeSub_of_le inside] at room
      rw [right] at alloc'
      refine ⟨p, q, _, arena, arena', alloc, alloc', .inl ⟨front, _, _,
        side.withArenas keeps keeps' ?_ (by simpa using rep) (by simpa using rep') ?_ ?_ ?_⟩⟩
      · intro pair inPairs
        rcases List.mem_append.mp inPairs with inFront | last
        · exact ⟨pair, List.mem_append_left _ inFront, rfl, rfl, rfl, rfl⟩
        · obtain rfl := List.mem_singleton.mp last
          exact ⟨_, List.mem_append_right _ (List.mem_singleton_self _), rfl, rfl, rfl, rfl⟩
      · exact List.forall_mem_append.mpr ⟨(List.forall_mem_append.mp side.left).1,
          List.forall_mem_singleton.mpr left⟩
      · refine List.forall_mem_append.mpr ⟨(List.forall_mem_append.mp side.right).1,
          List.forall_mem_singleton.mpr ?_⟩
        exact congrArg (· + size) right
      · refine List.forall_mem_append.mpr ⟨(List.forall_mem_append.mp side.bounded).1,
          List.forall_mem_singleton.mpr ?_⟩
        change b.rightOffset + size ≤ one.list.arena.blockSize
        omega
    · rw [width] at room
      rw [width', right] at full'
      omega
    · rw [width] at full
      rw [width', right] at room'
      omega
    · exact ⟨_, _, 0, arena, arena', alloc, alloc', .inl ⟨_, _, _,
        side.opened bound keeps keeps' (by simpa using rep) (by simpa using rep')⟩⟩

/-- New elements that start at the middle of an empty block without room for an element cannot
be written to. -/
theorem storeElems_noRoom {list : LFList β} (noRoom : ¬ list.MiddleFits)
    (small : list.elemPaddedSize < sizeModulus) {values : List (List β)} (some_values : values ≠ [])
    (sized : ∀ v ∈ values, v.length = list.elemSize) {arena : Arena β} {deck : Deck β}
    (blocks : arena.blockSize = list.arena.blockSize) (rep : Represents arena deck) {p : BlockPtr}
    (member : p ∈ ptrs deck) {offset : ℕ}
    (middle : offset = startOffset .middle list.arena.blockSize)
    (room : offset + sizeWrap (values.length * list.elemPaddedSize) ≤ list.arena.blockSize) :
    LowFlow.storeElems list.elemPaddedSize arena.heap ⟨p, offset⟩ values = none := by
  by_contra stores
  obtain ⟨heap, stored⟩ := Option.ne_none_iff_exists'.mp stores
  have inside := fun i => storeElems_inside rep member sized stored (i := i)
  have length := List.length_pos_iff.mpr some_values
  have first := inside 0 length
  refine noRoom ⟨by omega, ?_⟩
  by_cases single : values.length = 1
  · rw [single, Nat.one_mul, sizeWrap_of_lt small] at room
    omega
  · have second := inside 1 (by omega)
    omega

/-- **New elements on both sides.** -/
theorem push (side : one.SideBySide two idle idle' pairs) {values : List (List β)}
    (sized : ∀ v ∈ values, v.length = one.list.elemSize) :
    one.list.push values = none ∧ two.list.push values = none ∨
    ∃ ptr ptr' list list' pairs', one.list.push values = some (ptr, list) ∧
      two.list.push values = some (ptr', list') ∧
      ListInUse.SideBySide
        ⟨list, one.elems ++ placesFrom list.elemPaddedSize ptr values.length⟩
        ⟨list', two.elems ++ placesFrom list'.elemPaddedSize ptr' values.length⟩
        idle idle' pairs' := by
  by_cases some_values : values = []
  · subst some_values
    exact .inl ⟨by simp [LFList.push, lfAllocListElems], by simp [LFList.push, lfAllocListElems]⟩
  rcases side.allocAtTail (sizeWrap (values.length * one.list.elemPaddedSize)) with
    ⟨fails, fails'⟩ | ⟨p, q, offset, arena, arena', alloc, alloc', paired | idles⟩
  · exact .inl ⟨by simp [LFList.push, lfAllocListElems, some_values, fails],
      by simp [LFList.push, lfAllocListElems, some_values, side.padded, fails']⟩
  · obtain ⟨front, b, c, side₁⟩ := paired
    rw [one.list.push_eq some_values alloc,
      two.list.push_eq some_values (by rw [side.padded]; exact alloc')]
    rcases side₁.storeElems sized offset with
      ⟨fails, fails'⟩ | ⟨heap, heap', pairs', stored, stored', side₂⟩
    · exact .inl ⟨Option.map_eq_none_iff.mpr fails,
        Option.map_eq_none_iff.mpr (by rw [side.padded]; exact fails')⟩
    · refine .inr ⟨_, _, _, _, pairs', Option.map_eq_some_iff.mpr ⟨heap, stored, rfl⟩,
        Option.map_eq_some_iff.mpr ⟨heap', by rw [side.padded]; exact stored', rfl⟩, ?_⟩
      have places : placesFrom two.list.elemPaddedSize ⟨q, offset⟩ values.length =
          placesFrom one.list.elemPaddedSize ⟨q, offset⟩ values.length := by rw [side.padded]
      dsimp only
      rw [places]
      exact { side₂ with count := congrArg (· + values.length) side.count }
  · obtain ⟨noRoom, middle, room, blocks, blocks', ⟨deck, rep, inDeck⟩, deck', rep', inDeck'⟩ :=
      idles
    have fails :=
      storeElems_noRoom noRoom side.small some_values sized blocks rep inDeck middle room
    have fails' := storeElems_noRoom noRoom side.small some_values sized blocks' rep' inDeck' middle
      room
    rw [one.list.push_eq some_values alloc,
      two.list.push_eq some_values (by rw [side.padded]; exact alloc'), side.padded, fails, fails']
    exact .inl ⟨rfl, rfl⟩

/-! ### Lookups -/

/-- The first element of both lists, or the empty place in an idle block. -/
theorem getFirst (side : one.SideBySide two idle idle' pairs) :
    ∃ answer one' two', listCall .getFirst one = some (answer, one') ∧
      listCall .getFirst two = some (answer, two') ∧ one'.SideBySide two' idle idle' pairs := by
  by_cases counted : one.list.elemCount = 0
  · have counted' : two.list.elemCount = 0 := side.count.trans counted
    exact ⟨.null, one, two, (listCall_nothing counted).1, (listCall_nothing counted').1, side⟩
  have counted' : two.list.elemCount ≠ 0 := side.count ▸ counted
  have heads : ∃ p b rest q c rest', idle ++ pairs.map Prod.fst = (p, b) :: rest ∧
      idle' ++ pairs.map Prod.snd = (q, c) :: rest' ∧ SamePart idle idle' pairs p q ∧
      one.answer (some ⟨p, b.leftOffset⟩) = two.answer (some ⟨q, c.leftOffset⟩) := by
    rcases side.reserve with ⟨rfl, rfl⟩ | ⟨some_idle, some_idle', -⟩
    · obtain ⟨⟨⟨p, b⟩, ⟨q, c⟩⟩, rest, rfl⟩ := List.exists_cons_of_ne_nil
        (show pairs ≠ [] by simpa using side.rep.nonempty)
      have member : ((p, b), (q, c)) ∈ ((p, b), (q, c)) :: rest := List.mem_cons_self ..
      have left : c.leftOffset = b.leftOffset := side.left _ member
      refine ⟨p, b, _, q, c, _, rfl, rfl, .inr ⟨_, member, rfl, rfl⟩, ?_⟩
      rw [left]
      exact side.answer_pair member _
    · obtain ⟨⟨p, b⟩, rest, rfl⟩ := List.exists_cons_of_ne_nil some_idle
      obtain ⟨⟨q, c⟩, rest', rfl⟩ := List.exists_cons_of_ne_nil some_idle'
      refine ⟨p, b, _, q, c, _, rfl, rfl, .inl ⟨by simp, by simp⟩, ?_⟩
      obtain ⟨first, second⟩ := side.answer_idle (p := p) (q := q) (by simp) (by simp)
        b.leftOffset c.leftOffset
      rw [first, second]
  obtain ⟨p, b, rest, q, c, rest', split, split', part, same⟩ := heads
  have rep := side.rep
  have rep' := side.rep'
  rw [split] at rep
  rw [split'] at rep'
  exact ⟨_, _, _, listCall_getFirst counted rep, same ▸ listCall_getFirst counted' rep',
    side.withCursor part⟩

/-- The last element of both lists. -/
theorem getLast (side : one.SideBySide two idle idle' pairs) :
    ∃ answer one' two', listCall .getLast one = some (answer, one') ∧
      listCall .getLast two = some (answer, two') ∧ one'.SideBySide two' idle idle' pairs := by
  by_cases counted : one.list.elemCount = 0
  · have counted' : two.list.elemCount = 0 := side.count.trans counted
    exact ⟨.null, one, two, (listCall_nothing counted).2, (listCall_nothing counted').2, side⟩
  have counted' : two.list.elemCount ≠ 0 := side.count ▸ counted
  have tails : ∃ front p b front' q c, idle ++ pairs.map Prod.fst = front ++ [(p, b)] ∧
      idle' ++ pairs.map Prod.snd = front' ++ [(q, c)] ∧ SamePart idle idle' pairs p q ∧
      one.answer (some ⟨p, (b.rightOffset : ℤ) - one.list.elemPaddedSize⟩) =
        two.answer (some ⟨q, (c.rightOffset : ℤ) - two.list.elemPaddedSize⟩) := by
    rcases List.eq_nil_or_concat' pairs with rfl | ⟨front, ⟨⟨p, b⟩, ⟨q, c⟩⟩, rfl⟩
    · obtain ⟨f, ⟨p, b⟩, rfl⟩ := (List.eq_nil_or_concat' idle).resolve_left
        (by simpa using side.rep.nonempty)
      obtain ⟨f', ⟨q, c⟩, rfl⟩ := (List.eq_nil_or_concat' idle').resolve_left
        (by simpa using side.rep'.nonempty)
      refine ⟨f, p, b, f', q, c, by simp, by simp, .inl ⟨by simp, by simp⟩, ?_⟩
      obtain ⟨first, second⟩ := side.answer_idle (p := p) (q := q) (by simp) (by simp)
        ((b.rightOffset : ℤ) - one.list.elemPaddedSize)
        ((c.rightOffset : ℤ) - two.list.elemPaddedSize)
      rw [first, second]
    · have member : ((p, b), (q, c)) ∈ front ++ [((p, b), (q, c))] := by simp
      have right : c.rightOffset = b.rightOffset := side.right _ member
      refine ⟨idle ++ front.map Prod.fst, p, b, idle' ++ front.map Prod.snd, q, c, by simp, by simp,
        .inr ⟨_, member, rfl, rfl⟩, ?_⟩
      rw [right, side.padded]
      exact side.answer_pair member _
  obtain ⟨front, p, b, front', q, c, split, split', part, same⟩ := tails
  have rep := side.rep
  have rep' := side.rep'
  rw [split] at rep
  rw [split'] at rep'
  exact ⟨_, _, _, listCall_getLast counted rep, same ▸ listCall_getLast counted' rep',
    side.withCursor part⟩

theorem bounded_left (side : one.SideBySide two idle idle' pairs) :
    ∀ entry ∈ idle ++ pairs.map Prod.fst, entry.2.rightOffset ≤ one.list.arena.blockSize := by
  refine List.forall_mem_append.mpr ⟨?_, List.forall_mem_map.mpr side.bounded⟩
  intro entry member
  rw [(side.empty entry (List.mem_append_left _ member)).2]
  exact startOffset_le ..

theorem bounded_right (side : one.SideBySide two idle idle' pairs) :
    ∀ entry ∈ idle' ++ pairs.map Prod.snd, entry.2.rightOffset ≤ two.list.arena.blockSize := by
  rw [side.blocks]
  refine List.forall_mem_append.mpr ⟨?_,
    List.forall_mem_map.mpr ?_⟩
  · intro entry member
    rw [(side.empty entry (List.mem_append_right _ member)).2]
    exact startOffset_le ..
  · intro pair member
    rw [side.right pair member]
    exact side.bounded pair member

/-- The lookup from the same place of paired blocks. -/
theorem lookup (side : one.SideBySide two idle idle' pairs) {pair : BlockPair β}
    (member : pair ∈ pairs) {offset : ℕ} (inside : offset < one.list.arena.blockSize) :
    lfGetNextListElem one.list ⟨pair.1.1, offset⟩ = none ∧
      lfGetNextListElem two.list ⟨pair.2.1, offset⟩ = none ∨
    ∃ answer answer' list list',
      lfGetNextListElem one.list ⟨pair.1.1, offset⟩ = some (answer, list) ∧
      lfGetNextListElem two.list ⟨pair.2.1, offset⟩ = some (answer', list') ∧
      one.answer answer = two.answer answer' ∧
      ListInUse.SideBySide ⟨list, one.elems⟩ ⟨list', two.elems⟩ idle idle' pairs := by
  obtain ⟨r, s, atOne, atTwo, part⟩ := side.cursor
  have cursors := part_mem part
  have samePart := side.part_iff part member
  have left := side.left pair member
  have right := side.right pair member
  have bounded := side.bounded_left
  have bounded' := side.bounded_right
  obtain ⟨front, back, split⟩ := List.append_of_mem member
  obtain ⟨⟨p, b⟩, ⟨q, c⟩⟩ := pair
  have rep := side.rep
  have rep' := side.rep'
  simp only [split, List.map_append, List.map_cons, ← List.append_assoc]
    at rep rep' bounded bounded'
  rw [split] at cursors
  have next := rep.getNext bounded side.width atOne (by simpa using cursors.1) inside
  have next' := rep'.getNext bounded' (side.padded.symm ▸ side.width) atTwo
    (by simpa using cursors.2) (side.blocks.symm ▸ inside)
  have reserve : idle ++ front.map Prod.fst ≠ [] ↔ idle' ++ front.map Prod.snd ≠ [] := by
    rcases side.reserve with ⟨rfl, rfl⟩ | ⟨some_idle, some_idle', -⟩
    · simp
    · simp [some_idle, some_idle']
  dsimp only at left right samePart
  rw [left, right, side.padded] at next'
  have here : SamePart idle idle' pairs p q := .inr ⟨_, member, rfl, rfl⟩
  by_cases spans : b.leftOffset ≤ offset ∧ offset + one.list.elemPaddedSize ≤ b.rightOffset
  · rw [if_pos spans] at next next'
    by_cases atEnd : offset + one.list.elemPaddedSize = b.rightOffset
    · rw [if_pos atEnd] at next next'
      cases back with
      | nil => exact .inr ⟨none, none, _, _, next, next', rfl, side.withCursor here⟩
      | cons other back =>
          have inPairs : other ∈ pairs := by simp [split]
          exact .inr ⟨_, _, _, _, next, next', side.answer_pair inPairs 0,
            side.withCursor (.inr ⟨other, inPairs, rfl, rfl⟩)⟩
    · rw [if_neg atEnd] at next next'
      exact .inr ⟨_, _, _, _, next, next', side.answer_pair member _, side.withCursor here⟩
  · rw [if_neg spans] at next next'
    by_cases past : (r = p ∧ b.leftOffset ≤ offset ∧ offset < b.rightOffset) ∧
        idle ++ front.map Prod.fst ≠ []
    · have past' : (s = q ∧ b.leftOffset ≤ offset ∧ offset < b.rightOffset) ∧
          idle' ++ front.map Prod.snd ≠ [] :=
        ⟨⟨samePart.mp past.1.1, past.1.2⟩, reserve.mp past.2⟩
      rw [if_pos past] at next
      rw [if_pos past'] at next'
      exact .inl ⟨next, next'⟩
    · have past' : ¬ ((s = q ∧ b.leftOffset ≤ offset ∧ offset < b.rightOffset) ∧
          idle' ++ front.map Prod.snd ≠ []) := fun there =>
        past ⟨⟨samePart.mpr there.1.1, there.1.2⟩, reserve.mpr there.2⟩
      rw [if_neg past] at next
      rw [if_neg past'] at next'
      exact .inr ⟨none, none, _, _, next, next', rfl, side⟩

/-- The element after an element of both lists. -/
theorem getNext (side : one.SideBySide two idle idle' pairs) (k : ℕ) :
    listCall (.getNext k) one = none ∧ listCall (.getNext k) two = none ∨
    ∃ answer one' two', listCall (.getNext k) one = some (answer, one') ∧
      listCall (.getNext k) two = some (answer, two') ∧ one'.SideBySide two' idle idle' pairs := by
  have length := side.elems.length_eq
  by_cases known : k < one.elems.length
  · obtain ⟨pair, member, offset, first, second, inside, -⟩ := side.elems.get known (length ▸ known)
    have here : one.elems[k]? = some ⟨pair.1.1, offset⟩ := by
      rw [List.getElem?_eq_getElem known]
      exact congrArg some first
    have here' : two.elems[k]? = some ⟨pair.2.1, offset⟩ := by
      rw [List.getElem?_eq_getElem (length ▸ known)]
      exact congrArg some second
    have positive := side.positive
    rcases side.lookup member (show offset < one.list.arena.blockSize by omega) with
      ⟨fails, fails'⟩ | ⟨answer, answer', list, list', found, found', same, side'⟩
    · exact .inl ⟨by simp [listCall, here, fails], by simp [listCall, here', fails']⟩
    · exact .inr ⟨one.answer answer, _, _, by simp [listCall, here, found],
        by simp [listCall, here', found', same], side'⟩
  · have beyond : one.elems[k]? = none := List.getElem?_eq_none (Nat.not_lt.mp known)
    have beyond' : two.elems[k]? = none := List.getElem?_eq_none (by omega)
    exact .inl ⟨by simp [listCall, beyond], by simp [listCall, beyond']⟩

end ListInUse.SideBySide

/-- Two lists that no call tells apart. -/
def ListInUse.Agrees (one two : ListInUse β) : Prop :=
  ∃ idle idle' pairs, one.SideBySide two idle idle' pairs

/-- **One call** answers alike on both lists, or fails on both. -/
theorem ListInUse.Agrees.call {one two : ListInUse β} (agrees : one.Agrees two)
    (op : ListCall β) :
    (listCall op one = none ∧ listCall op two = none) ∨
      ∃ answer one' two', listCall op one = some (answer, one') ∧
        listCall op two = some (answer, two') ∧ one'.Agrees two' := by
  obtain ⟨idle, idle', pairs, side⟩ := agrees
  cases op with
  | alloc values =>
      by_cases sized : ∀ v ∈ values, v.length = one.list.elemSize
      · have sized' : ∀ v ∈ values, v.length = two.list.elemSize := by rwa [side.size]
        rcases side.push sized with ⟨fails, fails'⟩ |
          ⟨ptr, ptr', list, list', pairs', pushed, pushed', side'⟩
        · exact .inl ⟨by simp [listCall, fails], by simp [listCall, fails']⟩
        · exact .inr ⟨.done, _, _, listCall_alloc sized pushed, listCall_alloc sized' pushed', idle,
            idle', pairs', { side' with count := congrArg sizeWrap side'.count }⟩
      · have sized' : ¬ ∀ v ∈ values, v.length = two.list.elemSize := by rwa [side.size]
        exact .inl ⟨by simp only [listCall, if_neg sized], by simp only [listCall, if_neg sized']⟩
  | elemCount =>
      refine .inr ⟨.count one.list.elemCount, one, two, rfl, ?_, idle, idle', pairs, side⟩
      simp [listCall, side.count]
  | getFirst =>
      obtain ⟨answer, one', two', called, called', side'⟩ := side.getFirst
      exact .inr ⟨answer, one', two', called, called', idle, idle', pairs, side'⟩
  | getLast =>
      obtain ⟨answer, one', two', called, called', side'⟩ := side.getLast
      exact .inr ⟨answer, one', two', called, called', idle, idle', pairs, side'⟩
  | getNext k =>
      rcases side.getNext k with fails | ⟨answer, one', two', called, called', side'⟩
      · exact .inl fails
      · exact .inr ⟨answer, one', two', called, called', idle, idle', pairs, side'⟩

end LowFlow
