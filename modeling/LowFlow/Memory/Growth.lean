import LowFlow.Memory.Slices

/-!
# Growing a slice over what is there

`lf_grow_arena_slice_tail` moves the tail border of a slice. It allocates
nothing: the characters behind the border are taken over, first up to the end of
the block and then from the start of the blocks behind it.
-/

set_option autoImplicit false

namespace LowFlow

open Library

variable {β : Type}

/-- The loop of `lf_grow_arena_slice_tail` over the blocks behind the tail
block. At the end of the chain the code asserts. -/
def growOver (heap : Heap β) (size : ℕ) :
    ℕ → Option BlockPtr → ℕ → ArenaSlice → Option (Bool × ArenaSlice)
  | fuel + 1, some curBlock, totalRemainder, slice => do
      let block ← heap.block curBlock
      if size ≤ totalRemainder then
        some (true,
          { slice with
            tailBlock := some curBlock
            tailOffset := totalRemainder
            size := sizeWrap (slice.size + size) })
      else
        growOver heap size fuel block.next (sizeSub totalRemainder block.size)
          { slice with size := sizeWrap (slice.size + block.size) }
  | _, _, _, _ => none

def lfGrowArenaSliceTail (heap : Heap β) (slice : ArenaSlice) (size : ℕ) :
    Option (Bool × ArenaSlice) := do
  let tail ← heap.block (← slice.tailBlock)
  let tailRemainder := sizeSub tail.size slice.tailOffset
  if size ≤ tailRemainder then
    some (true,
      { slice with
        tailOffset := slice.tailOffset + size
        size := sizeWrap (slice.size + size) })
  else growOver heap size heap.serial tail.next (sizeSub size tailRemainder) slice

/-- The slice has its borders around these positions of the deck, and counts them. -/
structure ArenaSlice.Covers (slice : ArenaSlice) (deck : Deck β)
    (chars : List Position) : Prop where
  lies : slice.LiesIn deck
  live : slice.live deck = chars
  first : ∃ x rest, chars = x :: rest ∧ slice.headBlock = some x.1 ∧ slice.headOffset = x.2
  last : ∃ front x, chars = front ++ [x] ∧ slice.tailBlock = some x.1 ∧ slice.tailOffset = x.2 + 1
  size : slice.size = chars.length

/-- A position is followed by another one in its block, or at the start of the
block behind it. -/
inductive Deck.Follows (deck : Deck β) (x : Position) : Position → Prop where
  | within {b : Slab β} (inDeck : (x.1, b) ∈ deck) (room : x.2 + 1 < b.rightOffset) :
      Follows deck x (x.1, x.2 + 1)
  | next {front back : Deck β} {q : BlockPtr} {b c : Slab β}
      (split : deck = front ++ (x.1, b) :: (q, c) :: back) (atEnd : x.2 + 1 = b.rightOffset)
      (start : c.leftOffset = 0) (room : 0 < c.rightOffset) : Follows deck x (q, 0)

/-- The blocks of a deck before and behind one of them. -/
theorem split_unique {before after front back : Deck β} {p : BlockPtr} {b c : Slab β}
    (distinct : (ptrs (before ++ (p, b) :: after)).Nodup)
    (split : before ++ (p, b) :: after = front ++ (p, c) :: back) :
    before = front ∧ b = c ∧ after = back := by
  have missing : ∀ {front back : Deck β} {c : Slab β}, (ptrs (front ++ (p, c) :: back)).Nodup →
      p ∉ ptrs front := by
    intro front back c distinct member
    rw [ptrs, List.map_append] at distinct
    exact (List.nodup_append'.mp distinct).2.2 member (by simp)
  have notBefore := missing distinct
  have notFront := missing (split ▸ distinct)
  induction before generalizing front with
  | nil =>
      cases front with
      | nil =>
          obtain ⟨same, rfl⟩ := List.cons.inj split
          exact ⟨rfl, congrArg Prod.snd same, rfl⟩
      | cons entry front =>
          obtain ⟨rfl, -⟩ := List.cons.inj split
          exact absurd (List.mem_cons_self ..) notFront
  | cons first before ih =>
      cases front with
      | nil =>
          obtain ⟨rfl, -⟩ := List.cons.inj split
          exact absurd (List.mem_cons_self ..) notBefore
      | cons entry front =>
          obtain ⟨rfl, onward⟩ := List.cons.inj split
          obtain ⟨rfl, same⟩ := ih (List.nodup_cons.mp distinct).2 onward
            (fun member => notBefore (List.mem_cons_of_mem _ member))
            (fun member => notFront (List.mem_cons_of_mem _ member))
          exact ⟨rfl, same⟩

namespace ArenaSlice.Covers

variable {slice : ArenaSlice} {deck : Deck β} {chars : List Position}

/-- A slice of one character. -/
theorem single {p : BlockPtr} {b : Slab β} {offset : ℕ} (distinct : (ptrs deck).Nodup)
    (inDeck : (p, b) ∈ deck) (low : b.leftOffset ≤ offset) (high : offset < b.rightOffset) :
    ArenaSlice.Covers ⟨some p, some p, offset, offset + 1, 1⟩ deck [(p, offset)] := by
  obtain ⟨before, after, rfl⟩ := List.append_of_mem inDeck
  have spans : ArenaSlice.Spans ⟨some p, some p, offset, offset + 1, 1⟩ [(p, b)] := by
    refine ⟨by simp, rfl, rfl, ?_, ?_, ?_⟩
    · exact List.forall_mem_singleton.mpr fun _ => low
    · exact List.forall_mem_singleton.mpr fun _ => high
    · exact List.forall_mem_singleton.mpr (by simp [trim])
  have split : before ++ (p, b) :: after = before ++ [(p, b)] ++ after := by simp
  refine ⟨⟨before, [(p, b)], after, split, spans⟩, ?_, ⟨_, _, rfl, rfl, rfl⟩,
    ⟨[], _, rfl, rfl, rfl⟩, rfl⟩
  rw [split, spans.live_eq (split ▸ distinct)]
  simp [trim, positionsFrom]

/-- The blocks of a slice, the last of which has the last covered position. -/
theorem blocks (covers : slice.Covers deck chars) (distinct : (ptrs deck).Nodup)
    {front : List Position} {x : Position} (split : chars = front ++ [x]) :
    slice.tailBlock = some x.1 ∧ slice.tailOffset = x.2 + 1 ∧ ∃ before others b after,
      deck = before ++ (others ++ [(x.1, b)]) ++ after ∧
      slice.Spans (others ++ [(x.1, b)]) ∧ (ptrs (others ++ [(x.1, b)])).Nodup ∧
      Deck.positions ((others ++ [(x.1, b)]).map slice.trim) = chars := by
  obtain ⟨⟨before, blocks, after, rfl, spans⟩, live, -, ⟨front', x', split', tail, tailOffset⟩,
    -⟩ :=
    covers
  obtain ⟨rfl, same⟩ := List.append_inj' (split.symm.trans split') rfl
  obtain rfl : x = x' := List.singleton_inj.mp same
  obtain ⟨others, ⟨q, b⟩, rfl⟩ := (List.eq_nil_or_concat' blocks).resolve_left spans.nonempty
  have atTail : slice.tailBlock = some q := by simp [spans.tail]
  obtain rfl : x.1 = q := Option.some.inj (tail.symm.trans atTail)
  rw [spans.live_eq distinct] at live
  refine ⟨tail, tailOffset, before, others, b, after, rfl, spans, ?_, live⟩
  rw [List.append_assoc, ptrs, List.map_append, List.map_append] at distinct
  exact (List.nodup_append'.mp (List.nodup_append'.mp distinct).2.1).1

/-- A slice with both borders in a block covers the positions between them. -/
theorem between (covers : slice.Covers deck chars) (distinct : (ptrs deck).Nodup) {p : BlockPtr}
    (head : slice.headBlock = some p) (tail : slice.tailBlock = some p) :
    ∃ before b after, deck = before ++ [(p, b)] ++ after ∧ slice.Spans [(p, b)] ∧
      positionsFrom p slice.headOffset (slice.tailOffset - slice.headOffset) = chars := by
  obtain ⟨front, last, split, -⟩ := covers.last
  obtain ⟨tailLast, -, before, others, b, after, rfl, spans, inBlocks, live⟩ :=
    covers.blocks distinct split
  obtain rfl : last.1 = p := Option.some.inj (tailLast.symm.trans tail)
  obtain rfl : others = [] := by
    cases others with
    | nil => rfl
    | cons other others =>
        have headOther : slice.headBlock = some other.1 := by simp [spans.head]
        have same : last.1 = other.1 := Option.some.inj (head.symm.trans headOther)
        exact absurd (by simp [same]) (List.nodup_cons.mp inBlocks).1
  exact ⟨before, b, after, rfl, spans, by simpa [trim, head, tail] using live⟩

/-- What a slice covers in one block are the positions from one border to the other. -/
theorem oneBlock (covers : slice.Covers deck chars) (distinct : (ptrs deck).Nodup) {p : BlockPtr}
    (same : ∀ x ∈ chars, x.1 = p) :
    ∃ b, (p, b) ∈ deck ∧ slice.headBlock = some p ∧ slice.tailBlock = some p ∧
      chars = positionsFrom p slice.headOffset slice.size ∧
      slice.headOffset + slice.size = slice.tailOffset ∧ slice.tailOffset ≤ b.rightOffset := by
  obtain ⟨front, last, split, tail, -⟩ := covers.last
  obtain ⟨first, rest, begins, head, -⟩ := covers.first
  rw [same last (by simp [split])] at tail
  rw [same first (by simp [begins])] at head
  obtain ⟨before, b, after, rfl, spans, range⟩ := covers.between distinct head tail
  have high := spans.high (p, b) (by simp) tail.symm
  have ordered : slice.headOffset ≤ slice.tailOffset := by
    simpa [trim, head, tail] using spans.ordered (p, b) (by simp)
  have counts := covers.size
  rw [← range, positionsFrom, List.length_map, List.length_range'] at counts
  refine ⟨b, by simp, head, tail, ?_, by omega, high⟩
  rw [counts, range]

/-- A slice of one block covers positions in one block. -/
theorem same_block (covers : slice.Covers deck chars) (distinct : (ptrs deck).Nodup)
    (one : slice.headBlock = slice.tailBlock) : ∀ x ∈ chars, ∀ y ∈ chars, x.1 = y.1 := by
  obtain ⟨front, last, -, tail, -⟩ := covers.last
  obtain ⟨-, -, -, -, -, range⟩ := covers.between distinct (one.trans tail) tail
  have inBlock : ∀ x ∈ chars, x.1 = last.1 := by
    rw [← range]
    intro x member
    obtain ⟨i, -, rfl⟩ := List.mem_map.mp member
    rfl
  intro x here y there
  rw [inBlock x here, inBlock y there]

/-- Borders and size of the slice when its tail border is moved by one. -/
theorem of_grown (covers : slice.Covers deck chars) {y : Position}
    (small : chars.length + 1 < sizeModulus) {offset : ℕ} (sameOffset : offset = y.2)
    (lies : (slice.grownTail ⟨y.1, offset⟩ 1).LiesIn deck)
    (live : (slice.grownTail ⟨y.1, offset⟩ 1).live deck = chars ++ [y]) :
    (slice.grownTail ⟨y.1, offset⟩ 1).Covers deck (chars ++ [y]) := by
  subst sameOffset
  obtain ⟨z, rest, begins, headEq, headOffset⟩ := covers.first
  refine ⟨lies, live, ⟨z, rest ++ [y], by rw [begins]; rfl, headEq, headOffset⟩,
    ⟨chars, y, rfl, rfl, rfl⟩, ?_⟩
  simp only [grownTail, covers.size, sizeWrap_of_lt small, List.length_append,
    List.length_singleton]

/-- Growing by a character in the block of the last one. -/
theorem growWithin (covers : slice.Covers deck chars) {arena : Arena β}
    (rep : Represents arena deck)
    (bounded : ∀ entry ∈ deck, entry.2.rightOffset ≤ arena.blockSize) {front : List Position}
    {x : Position} (split : chars = front ++ [x]) {b : Slab β} (inDeck : (x.1, b) ∈ deck)
    (room : x.2 + 1 < b.rightOffset) (small : chars.length + 1 < sizeModulus) :
    ∃ slice', lfGrowArenaSliceTail arena.heap slice 1 = some (true, slice') ∧
      slice'.Covers deck (chars ++ [(x.1, x.2 + 1)]) := by
  have distinct := rep.distinct
  obtain ⟨tail, tailOffset, before, others, c, after, rfl, spans, inBlocks, live⟩ :=
    covers.blocks distinct split
  obtain rfl : c = b := rep.same_block (by simp) inDeck
  obtain ⟨node, found, rfl⟩ := rep.lookup inDeck
  have width : node.size = arena.blockSize := rep.sized _ inDeck
  have bound : node.rightOffset ≤ arena.blockSize := bounded _ inDeck
  have enough : 1 ≤ sizeSub node.size slice.tailOffset := by
    rw [sizeSub_of_le (by omega)]
    omega
  have fits : slice.tailOffset + 1 ≤ node.rightOffset := by omega
  obtain ⟨spans', grown⟩ := spans.growWithin inBlocks fits
  refine ⟨slice.grownTail ⟨x.1, slice.tailOffset⟩ 1, ?_,
    covers.of_grown (y := (x.1, x.2 + 1)) small tailOffset ⟨before, _, after, rfl, spans'⟩ ?_⟩
  · simp [lfGrowArenaSliceTail, tail, found, enough, grownTail]
  · rw [spans'.live_eq distinct, grown, live]
    simp [Region.positions, positionsFrom, tailOffset]

/-- Growing into the next block, when the block of the last character is full. -/
theorem growNext (covers : slice.Covers deck chars) {arena : Arena β} (rep : Represents arena deck)
    {front : List Position} {x : Position} (split : chars = front ++ [x]) {before after : Deck β}
    {q : BlockPtr} {b c : Slab β} (inDeck : deck = before ++ (x.1, b) :: (q, c) :: after)
    (atEnd : x.2 + 1 = b.rightOffset) (start : c.leftOffset = 0) (room : 0 < c.rightOffset)
    (full : x.2 + 1 = arena.blockSize) (small : chars.length + 1 < sizeModulus) :
    ∃ slice', lfGrowArenaSliceTail arena.heap slice 1 = some (true, slice') ∧
      slice'.Covers deck (chars ++ [(q, 0)]) := by
  have distinct := rep.distinct
  obtain ⟨tail, tailOffset, before', others, b', after', split', spans, inBlocks, live⟩ :=
    covers.blocks distinct split
  have arranged : before' ++ others ++ (x.1, b') :: after' =
      before ++ (x.1, b) :: (q, c) :: after := by
    rw [← inDeck, split']
    simp
  obtain ⟨rfl, rfl, rfl⟩ := split_unique (by rw [arranged, ← inDeck]; exact distinct) arranged
  subst inDeck
  have chain := rep.chain
  obtain ⟨middle, -, chain⟩ := segment_append.mp chain
  obtain ⟨-, node, found, carried, -, onward⟩ := chain
  cases (show node.toSlab = b' from carried)
  have link : node.next = some q := onward.1
  obtain ⟨-, next, foundNext, -⟩ := onward
  have width : node.size = arena.blockSize :=
    rep.sized (x.1, node.toSlab) (List.mem_append_right _ (List.mem_cons_self ..))
  have noneLeft : sizeSub node.size slice.tailOffset = 0 := by
    rw [sizeSub_of_le (by omega)]
    omega
  have positive : 0 < arena.heap.serial := by
    have length := rep.length_le
    simp at length
    omega
  obtain ⟨fuel, serial⟩ := Nat.exists_eq_succ_of_ne_zero (Nat.ne_of_gt positive)
  have split₂ : before' ++ others ++ (x.1, node.toSlab) :: (q, c) :: after =
      before' ++ (others ++ [(x.1, node.toSlab)] ++ [(q, c)]) ++ after := by simp
  have inBlocks' : (ptrs (others ++ [(x.1, node.toSlab)] ++ [(q, c)])).Nodup := by
    rw [split₂, List.append_assoc, ptrs, List.map_append, List.map_append] at distinct
    exact (List.nodup_append'.mp (List.nodup_append'.mp distinct).2.1).1
  obtain ⟨spans', grown⟩ := spans.growInto inBlocks' (tailOffset.trans atEnd) start
    (show 1 ≤ c.rightOffset from room)
  refine ⟨slice.grownTail ⟨q, 0⟩ 1, ?_,
    covers.of_grown (y := (q, 0)) small rfl ⟨before', _, after, split₂, spans'⟩ ?_⟩
  · simp [lfGrowArenaSliceTail, tail, found, noneLeft, serial, growOver, link, foundNext,
      grownTail, show sizeSub 1 0 = 1 from rfl]
  · rw [split₂] at distinct ⊢
    refine (spans'.live_eq distinct).trans (grown.trans ?_)
    rw [live]
    simp [Region.positions, positionsFrom]

/-- What a slice covers is extended by the position behind it. -/
theorem grow (covers : slice.Covers deck chars) {arena : Arena β} (rep : Represents arena deck)
    (bounded : ∀ entry ∈ deck, entry.2.rightOffset ≤ arena.blockSize) {front : List Position}
    {x y : Position} (split : chars = front ++ [x]) (follows : deck.Follows x y)
    (full : x.1 ≠ y.1 → x.2 + 1 = arena.blockSize) (small : chars.length + 1 < sizeModulus) :
    ∃ slice', lfGrowArenaSliceTail arena.heap slice 1 = some (true, slice') ∧
      slice'.Covers deck (chars ++ [y]) := by
  cases follows with
  | within inDeck room => exact covers.growWithin rep bounded split inDeck room small
  | @next before after q b c inDeck atEnd start room =>
      have different : x.1 ≠ q := by
        intro same
        have distinct := rep.distinct
        rw [inDeck, ptrs, List.map_append] at distinct
        exact (List.nodup_cons.mp (List.nodup_append'.mp distinct).2.1).1 (by simp [same])
      exact covers.growNext rep split inDeck atEnd start room (full different) small

end ArenaSlice.Covers

end LowFlow
