import LowFlow.Memory.Contents
import LowFlow.Memory.Regions
import Mathlib.Data.List.DropRight

/-!
# Slices of an arena

The slice functions of `core/memory/adapters.c`. A slice is a pair of borders in
an arena: a block and an offset at its head, a block and an offset at its tail.
Its live range is what is used between the borders. A slice grows at an end of
the arena as long as its border there is the border of the arena; that is all
the two allocations test.
-/

set_option autoImplicit false

namespace LowFlow

open Library

variable {β : Type}

/-- `LF_ArenaSlice`. -/
structure ArenaSlice where
  headBlock : Option BlockPtr
  tailBlock : Option BlockPtr
  headOffset : ℕ
  tailOffset : ℕ
  size : ℕ
deriving DecidableEq, Repr

/-- The loop of `_lf_get_arena_slice_size` over the blocks between the borders.
The blocks of a chain are distinct, so `serial` bounds their number. -/
def middleSize (heap : Heap β) (tailBlock : Option BlockPtr) :
    ℕ → Option BlockPtr → ℕ → Option ℕ
  | fuel, some curBlock, size =>
      if some curBlock = tailBlock then some size
      else
        match fuel with
        | 0 => none
        | fuel + 1 => do
            let block ← heap.block curBlock
            let usedSize := sizeSub block.rightOffset block.leftOffset
            middleSize heap tailBlock fuel block.next (sizeWrap (size + usedSize))
  | _, none, size => some size

def lfGetArenaSliceSize (heap : Heap β) (slice : ArenaSlice) : Option ArenaSlice := do
  if slice.headBlock = slice.tailBlock then
    some { slice with size := sizeSub slice.tailOffset slice.headOffset }
  else
    let head ← heap.block (← slice.headBlock)
    let headBlockOwnedSize := sizeSub head.size slice.headOffset
    let size ← middleSize heap slice.tailBlock heap.serial head.next
      (sizeWrap (headBlockOwnedSize + slice.tailOffset))
    some { slice with size }

/-- A slice of an arena, or, without one, of the blocks that `dest` has already. -/
def lfInitArenaSlice (heap : Heap β) (dest : ArenaSlice) (src : Option (Arena β)) :
    Option ArenaSlice := do
  let dest ← match src with
    | none => some dest
    | some src => do
        let head ← src.heap.block (← src.headBlock)
        let tail ← src.heap.block (← src.tailBlock)
        some
          { dest with
            headBlock := src.headBlock
            tailBlock := src.tailBlock
            headOffset := head.leftOffset
            tailOffset := tail.rightOffset }
  if dest.headBlock = none ∨ dest.tailBlock = none then none
  lfGetArenaSliceSize heap dest

/-- The answer is `none` where the code returns `NULL`. -/
def lfArenaSliceAllocAtHead (slice : ArenaSlice) (arena : Arena β) (size : ℕ) :
    Option (Option Ptr × ArenaSlice × Arena β) := do
  if slice.headBlock ≠ arena.headBlock then some (none, slice, arena)
  else
    let head ← arena.heap.block (← arena.headBlock)
    if head.leftOffset < slice.headOffset then some (none, slice, arena)
    else
      let (ptr, arena) ← lfArenaAllocAtHead arena size
      let head ← arena.heap.block (← arena.headBlock)
      some (some ptr,
        { slice with
          headBlock := arena.headBlock
          headOffset := head.leftOffset
          size := sizeWrap (slice.size + size) },
        arena)

/-- The answer is `none` where the code returns `NULL`. -/
def lfArenaSliceAllocAtTail (slice : ArenaSlice) (arena : Arena β) (size : ℕ) :
    Option (Option Ptr × ArenaSlice × Arena β) := do
  if slice.tailBlock ≠ arena.tailBlock then some (none, slice, arena)
  else
    let tail ← arena.heap.block (← arena.tailBlock)
    if slice.tailOffset < tail.rightOffset then some (none, slice, arena)
    else
      let (ptr, arena) ← lfArenaAllocAtTail arena size
      let tail ← arena.heap.block (← arena.tailBlock)
      some (some ptr,
        { slice with
          tailBlock := arena.tailBlock
          tailOffset := tail.rightOffset
          size := sizeWrap (slice.size + size) },
        arena)

/-! ## The live range -/

/-- Where a byte is: its block and its offset there. -/
abbrev Position := BlockPtr × ℕ

/-- So many positions of a block from an offset on. -/
def positionsFrom (p : BlockPtr) (offset n : ℕ) : List Position :=
  (List.range' offset n).map (p, ·)

/-- The positions of the used ranges, from head to tail. -/
def Deck.positions (deck : Deck β) : List Position :=
  deck.flatMap fun entry =>
    positionsFrom entry.1 entry.2.leftOffset (entry.2.rightOffset - entry.2.leftOffset)

/-- The positions of the region that an allocation returned. -/
def Region.positions (r : Region) : List Position :=
  positionsFrom r.ptr.block r.ptr.offset.toNat r.size

namespace ArenaSlice

/-- A block with its used range cut at the borders of a slice. -/
def trim (slice : ArenaSlice) (entry : BlockPtr × Slab β) : BlockPtr × Slab β :=
  (entry.1,
    { entry.2 with
      leftOffset := if some entry.1 = slice.headBlock then slice.headOffset else entry.2.leftOffset
      rightOffset :=
        if some entry.1 = slice.tailBlock then slice.tailOffset else entry.2.rightOffset })

/-- The blocks from the head block of a slice to its tail block, cut at its borders. -/
def cut (slice : ArenaSlice) (deck : Deck β) : Deck β :=
  ((deck.dropWhile fun entry => some entry.1 ≠ slice.headBlock).rdropWhile
    fun entry => some entry.1 ≠ slice.tailBlock).map slice.trim

/-- The live range of a slice. -/
def live (slice : ArenaSlice) (deck : Deck β) : List Position :=
  (slice.cut deck).positions

end ArenaSlice

theorem positionsFrom_add (p : BlockPtr) (offset m n : ℕ) :
    positionsFrom p offset (m + n) =
      positionsFrom p offset m ++ positionsFrom p (offset + m) n := by
  have ranges := @List.range'_append_1 offset m n
  rw [positionsFrom, ← ranges, List.map_append]
  rfl

@[simp] theorem positions_nil : Deck.positions ([] : Deck β) = [] := rfl

@[simp] theorem positions_cons (entry : BlockPtr × Slab β) (rest : Deck β) :
    Deck.positions (entry :: rest) =
      positionsFrom entry.1 entry.2.leftOffset (entry.2.rightOffset - entry.2.leftOffset) ++
        rest.positions := rfl

@[simp] theorem positions_append (front back : Deck β) :
    Deck.positions (front ++ back) = front.positions ++ back.positions :=
  List.flatMap_append

/-! ## Where a slice lies -/

/-- The borders of the slice are in the first and in the last of these blocks,
inside their used ranges and in order. -/
structure ArenaSlice.Spans (slice : ArenaSlice) (blocks : Deck β) : Prop where
  nonempty : blocks ≠ []
  head : slice.headBlock = (ptrs blocks).head?
  tail : slice.tailBlock = (ptrs blocks).getLast?
  low : ∀ entry ∈ blocks, some entry.1 = slice.headBlock →
    entry.2.leftOffset ≤ slice.headOffset
  high : ∀ entry ∈ blocks, some entry.1 = slice.tailBlock →
    slice.tailOffset ≤ entry.2.rightOffset
  ordered : ∀ entry ∈ blocks, (slice.trim entry).2.leftOffset ≤ (slice.trim entry).2.rightOffset

/-- The slice lies in some consecutive blocks of the deck. -/
def ArenaSlice.LiesIn (slice : ArenaSlice) (deck : Deck β) : Prop :=
  ∃ before blocks after, deck = before ++ blocks ++ after ∧ slice.Spans blocks

namespace ArenaSlice

variable {slice : ArenaSlice} {deck before blocks after : Deck β}

theorem dropWhile_before (missing : ∀ entry ∈ before, some entry.1 ≠ slice.headBlock)
    {entry : BlockPtr × Slab β} (here : some entry.1 = slice.headBlock) (rest : Deck β) :
    (before ++ entry :: rest).dropWhile (fun entry => some entry.1 ≠ slice.headBlock) =
      entry :: rest := by
  induction before with
  | nil => simp [here]
  | cons first before ih =>
      obtain ⟨notFirst, missing⟩ := List.forall_mem_cons.mp missing
      simpa [notFirst] using ih missing

theorem rdropWhile_after (missing : ∀ entry ∈ after, some entry.1 ≠ slice.tailBlock)
    {entry : BlockPtr × Slab β} (here : some entry.1 = slice.tailBlock) (front : Deck β) :
    (front ++ [entry] ++ after).rdropWhile (fun entry => some entry.1 ≠ slice.tailBlock) =
      front ++ [entry] := by
  induction after using List.reverseRecOn with
  | nil => simp [here]
  | append_singleton after last ih =>
      have notLast : some last.1 ≠ slice.tailBlock := missing last (by simp)
      rw [← List.append_assoc, List.rdropWhile_concat_pos _ _ _ (by simpa using notLast)]
      exact ih fun entry member => missing entry (by simp [member])

/-- The blocks from border to border are the ones the slice spans. -/
theorem Spans.cut_eq (spans : slice.Spans blocks)
    (distinct : (ptrs (before ++ blocks ++ after)).Nodup) :
    slice.cut (before ++ blocks ++ after) = blocks.map slice.trim := by
  obtain ⟨first, rest, rfl⟩ := List.exists_cons_of_ne_nil spans.nonempty
  have head : some first.1 = slice.headBlock := by simp [spans.head]
  have split : ∃ front last, first :: rest = front ++ [last] :=
    (List.eq_nil_or_concat' (first :: rest)).resolve_left (by simp)
  obtain ⟨front, last, split⟩ := split
  have tail : some last.1 = slice.tailBlock := by simp [spans.tail, split]
  simp only [ptrs, List.map_append, List.nodup_append'] at distinct
  obtain ⟨⟨-, -, apartBefore⟩, -, apartAfter⟩ := distinct
  have notBefore : ∀ entry ∈ before, some entry.1 ≠ slice.headBlock := by
    intro entry member same
    rw [← head, Option.some.injEq] at same
    exact apartBefore (List.mem_map_of_mem member) (by simp [same])
  have notAfter : ∀ entry ∈ after, some entry.1 ≠ slice.tailBlock := by
    intro entry member same
    rw [← tail, Option.some.injEq] at same
    exact apartAfter (by simp [split, ← same]) (List.mem_map_of_mem member)
  rw [cut, List.append_assoc, List.cons_append, dropWhile_before notBefore head, ← List.cons_append,
    split, rdropWhile_after notAfter tail]

theorem Spans.live_eq (spans : slice.Spans blocks)
    (distinct : (ptrs (before ++ blocks ++ after)).Nodup) :
    slice.live (before ++ blocks ++ after) = Deck.positions (blocks.map slice.trim) := by
  rw [live, spans.cut_eq distinct]

/-! ## What others do -/

/-- Lowering the left offset of the first block does not touch the border in it. -/
theorem Spans.lowerFirst {p : BlockPtr} {b : Slab β} {rest : Deck β} {left : ℕ}
    (spans : slice.Spans ((p, b) :: rest)) (lower : left ≤ b.leftOffset) :
    slice.Spans ((p, { b with leftOffset := left }) :: rest) ∧
      slice.trim (p, { b with leftOffset := left }) = slice.trim (p, b) := by
  have head : some p = slice.headBlock := by simp [spans.head]
  have trimmed : slice.trim (p, { b with leftOffset := left }) = slice.trim (p, b) := by
    simp [trim, head]
  obtain ⟨low, lows⟩ := List.forall_mem_cons.mp spans.low
  obtain ⟨high, highs⟩ := List.forall_mem_cons.mp spans.high
  obtain ⟨ordered, ordereds⟩ := List.forall_mem_cons.mp spans.ordered
  refine ⟨⟨by simp, by simpa using spans.head, ?_, ?_, ?_, ?_⟩, trimmed⟩
  · have tail := spans.tail
    rwa [ptrs, List.map_cons] at tail ⊢
  · exact List.forall_mem_cons.mpr ⟨fun same => le_trans lower (low same), lows⟩
  · exact List.forall_mem_cons.mpr ⟨high, highs⟩
  · exact List.forall_mem_cons.mpr ⟨trimmed ▸ ordered, ordereds⟩

/-- Raising the right offset of the last block does not touch the border in it. -/
theorem Spans.raiseLast {p : BlockPtr} {b : Slab β} {front : Deck β} {right : ℕ}
    (spans : slice.Spans (front ++ [(p, b)])) (higher : b.rightOffset ≤ right) :
    slice.Spans (front ++ [(p, { b with rightOffset := right })]) ∧
      slice.trim (p, { b with rightOffset := right }) = slice.trim (p, b) := by
  have tail : some p = slice.tailBlock := by simp [spans.tail]
  have trimmed : slice.trim (p, { b with rightOffset := right }) = slice.trim (p, b) := by
    simp [trim, tail]
  obtain ⟨lows, low⟩ := List.forall_mem_append.mp spans.low
  obtain ⟨highs, high⟩ := List.forall_mem_append.mp spans.high
  obtain ⟨ordereds, ordered⟩ := List.forall_mem_append.mp spans.ordered
  refine ⟨⟨by simp, ?_, by simpa using spans.tail, ?_, ?_, ?_⟩, trimmed⟩
  · have head := spans.head
    rwa [ptrs, List.map_append] at head ⊢
  · refine List.forall_mem_append.mpr ⟨lows, List.forall_mem_singleton.mpr ?_⟩
    exact List.forall_mem_singleton.mp low
  · refine List.forall_mem_append.mpr ⟨highs, List.forall_mem_singleton.mpr ?_⟩
    intro same
    exact le_trans (List.forall_mem_singleton.mp high same) higher
  · refine List.forall_mem_append.mpr ⟨ordereds, List.forall_mem_singleton.mpr ?_⟩
    rw [trimmed]
    exact ordered _ (List.mem_singleton_self _)

/-- An allocation at the head leaves the live ranges of the slices. -/
theorem LiesIn.allocHead {arena : Arena β} {size : ℕ} {deck' : Deck β} {ptr : Ptr}
    (lies : slice.LiesIn deck) (distinct : (ptrs deck).Nodup) (distinct' : (ptrs deck').Nodup)
    (alloc : AllocHead arena size deck ptr deck') :
    slice.LiesIn deck' ∧ slice.live deck' = slice.live deck := by
  obtain ⟨before, blocks, after, split, spans⟩ := lies
  rw [split] at distinct ⊢
  cases alloc with
  | @fits p b rest room =>
      cases before with
      | cons first before =>
          obtain ⟨rfl, rfl⟩ := List.cons.inj split
          refine ⟨⟨_ :: before, blocks, after, rfl, spans⟩, ?_⟩
          rw [spans.live_eq distinct]
          exact @Spans.live_eq _ slice (_ :: before) blocks after spans distinct'
      | nil =>
          obtain ⟨first, others, rfl⟩ := List.exists_cons_of_ne_nil spans.nonempty
          obtain ⟨rfl, rfl⟩ := List.cons.inj split
          obtain ⟨spans', trimmed⟩ := spans.lowerFirst (Nat.sub_le b.leftOffset size)
          refine ⟨⟨[], _ :: others, after, rfl, spans'⟩, ?_⟩
          rw [spans.live_eq distinct]
          refine (@Spans.live_eq _ slice [] (_ :: others) after spans' distinct').trans ?_
          rw [List.map_cons, List.map_cons, trimmed]
  | @opens p b rest full =>
      refine ⟨⟨_ :: before, blocks, after, congrArg _ split, spans⟩, ?_⟩
      rw [spans.live_eq distinct]
      rw [split] at distinct' ⊢
      exact @Spans.live_eq _ slice (_ :: before) blocks after spans distinct'

/-- An allocation at the tail leaves the live ranges of the slices. -/
theorem LiesIn.allocTail {arena : Arena β} {size : ℕ} {deck' : Deck β} {ptr : Ptr}
    (lies : slice.LiesIn deck) (distinct : (ptrs deck).Nodup) (distinct' : (ptrs deck').Nodup)
    (alloc : AllocTail arena size deck ptr deck') :
    slice.LiesIn deck' ∧ slice.live deck' = slice.live deck := by
  obtain ⟨before, blocks, after, split, spans⟩ := lies
  cases alloc with
  | @fits p b front room =>
      rcases List.eq_nil_or_concat' after with rfl | ⟨after, last, rfl⟩
      · obtain ⟨others, last, rfl⟩ := (List.eq_nil_or_concat' blocks).resolve_left spans.nonempty
        rw [List.append_nil, ← List.append_assoc] at split
        obtain ⟨rfl, same⟩ := List.append_inj' split rfl
        cases same
        obtain ⟨spans', trimmed⟩ := spans.raiseLast (Nat.le_add_right b.rightOffset size)
        rw [List.append_assoc] at distinct distinct' ⊢
        have old := @Spans.live_eq _ slice before (others ++ [(p, b)]) [] spans
          (by simpa using distinct)
        have new := @Spans.live_eq _ slice before _ [] spans' (by simpa using distinct')
        rw [List.append_nil] at old new
        refine ⟨⟨before, _, [], (List.append_nil _).symm, spans'⟩, ?_⟩
        rw [List.append_assoc, new, old, List.map_append, List.map_append, List.map_singleton,
          List.map_singleton, trimmed]
      · rw [← List.append_assoc] at split
        obtain ⟨rfl, same⟩ := List.append_inj' split rfl
        cases same
        rw [List.append_assoc (before ++ blocks)] at distinct distinct' ⊢
        refine ⟨⟨before, blocks, _, rfl, spans⟩, ?_⟩
        rw [List.append_assoc (before ++ blocks), spans.live_eq distinct, spans.live_eq distinct']
  | @opens p b front full =>
      rw [split] at distinct distinct' ⊢
      rw [List.append_assoc (before ++ blocks)] at distinct' ⊢
      refine ⟨⟨before, blocks, _, rfl, spans⟩, ?_⟩
      rw [spans.live_eq distinct, spans.live_eq distinct']

/-! ## What the owner of an end does -/

/-- The border of the slice at this end is the border of the arena. -/
def Owns (slice : ArenaSlice) (deck : Deck β) : ArenaEnd → Prop
  | .head => ∃ p b rest, deck = (p, b) :: rest ∧ slice.headBlock = some p ∧
      slice.headOffset ≤ b.leftOffset
  | .tail => ∃ front p b, deck = front ++ [(p, b)] ∧ slice.tailBlock = some p ∧
      b.rightOffset ≤ slice.tailOffset

/-- The slice after it was given a region at its head. -/
def grownHead (slice : ArenaSlice) (ptr : Ptr) (size : ℕ) : ArenaSlice :=
  { slice with
    headBlock := some ptr.block
    headOffset := ptr.offset.toNat
    size := sizeWrap (slice.size + size) }

/-- The slice after it was given a region at its tail. -/
def grownTail (slice : ArenaSlice) (ptr : Ptr) (size : ℕ) : ArenaSlice :=
  { slice with
    tailBlock := some ptr.block
    tailOffset := ptr.offset.toNat + size
    size := sizeWrap (slice.size + size) }

/-- The owner of the head lies at the front of the deck. -/
theorem LiesIn.atHead {p : BlockPtr} {b : Slab β} {rest : Deck β}
    (lies : slice.LiesIn ((p, b) :: rest)) (distinct : (ptrs ((p, b) :: rest)).Nodup)
    (head : slice.headBlock = some p) :
    ∃ others after, rest = others ++ after ∧ slice.Spans ((p, b) :: others) := by
  obtain ⟨before, blocks, after, split, spans⟩ := lies
  obtain ⟨first, others, rfl⟩ := List.exists_cons_of_ne_nil spans.nonempty
  have same : p = first.1 := by simpa [head] using spans.head
  cases before with
  | nil =>
      obtain ⟨rfl, rfl⟩ := List.cons.inj split
      exact ⟨others, after, rfl, spans⟩
  | cons entry before =>
      obtain ⟨rfl, rfl⟩ := List.cons.inj split
      refine absurd ?_ (List.nodup_cons.mp distinct).1
      simp [same]

/-- The owner of the tail lies at the back of the deck. -/
theorem LiesIn.atTail {p : BlockPtr} {b : Slab β} {front : Deck β}
    (lies : slice.LiesIn (front ++ [(p, b)])) (distinct : (ptrs (front ++ [(p, b)])).Nodup)
    (tail : slice.tailBlock = some p) :
    ∃ before others, front = before ++ others ∧ slice.Spans (others ++ [(p, b)]) := by
  obtain ⟨before, blocks, after, split, spans⟩ := lies
  obtain ⟨others, last, rfl⟩ := (List.eq_nil_or_concat' blocks).resolve_left spans.nonempty
  have same : p = last.1 := by simpa [tail] using spans.tail
  rcases List.eq_nil_or_concat' after with rfl | ⟨after, entry, rfl⟩
  · rw [List.append_nil, ← List.append_assoc] at split
    obtain ⟨rfl, equal⟩ := List.append_inj' split rfl
    cases equal
    exact ⟨before, others, rfl, spans⟩
  · rw [← List.append_assoc] at split
    obtain ⟨rfl, equal⟩ := List.append_inj' split rfl
    cases equal
    simp only [ptrs, List.map_append, List.nodup_append', List.map_singleton] at distinct
    refine absurd (List.mem_singleton_self _) (distinct.2.2 ?_)
    simp [same]

theorem distinct_cons {entry : BlockPtr × Slab β} {others : Deck β}
    (distinct : (ptrs (entry :: others)).Nodup) {other : BlockPtr × Slab β}
    (member : other ∈ others) : other.1 ≠ entry.1 := by
  intro same
  exact (List.nodup_cons.mp distinct).1 (same ▸ List.mem_map_of_mem member)

theorem grownHead_trim_here (ptr : Ptr) (size : ℕ) (b : Slab β) :
    (slice.grownHead ptr size).trim (ptr.block, b) =
      (ptr.block, { (slice.trim (ptr.block, b)).2 with leftOffset := ptr.offset.toNat }) := by
  simp only [trim, grownHead, ↓reduceIte]
  rfl

/-- In the other blocks nothing is cut at the head that was not cut before. -/
theorem grownHead_trim_other {ptr : Ptr} {entry : BlockPtr × Slab β} (size : ℕ)
    (other : entry.1 ≠ ptr.block)
    (border : some entry.1 = slice.headBlock → slice.headOffset = entry.2.leftOffset) :
    (slice.grownHead ptr size).trim entry = slice.trim entry := by
  have notHere : some entry.1 ≠ some ptr.block := fun same => other (Option.some.inj same)
  simp only [trim, grownHead, notHere, ↓reduceIte]
  by_cases same : some entry.1 = slice.headBlock
  · rw [if_pos same, border same]
    rfl
  · rw [if_neg same]
    rfl

theorem grownTail_trim_here (ptr : Ptr) (size : ℕ) (b : Slab β) :
    (slice.grownTail ptr size).trim (ptr.block, b) =
      (ptr.block,
        { (slice.trim (ptr.block, b)).2 with rightOffset := ptr.offset.toNat + size }) := by
  simp only [trim, grownTail, ↓reduceIte]
  rfl

/-- In the other blocks nothing is cut at the tail that was not cut before. -/
theorem grownTail_trim_other {ptr : Ptr} {entry : BlockPtr × Slab β} (size : ℕ)
    (other : entry.1 ≠ ptr.block)
    (border : some entry.1 = slice.tailBlock → slice.tailOffset = entry.2.rightOffset) :
    (slice.grownTail ptr size).trim entry = slice.trim entry := by
  have notHere : some entry.1 ≠ some ptr.block := fun same => other (Option.some.inj same)
  simp only [trim, grownTail, notHere, ↓reduceIte]
  by_cases same : some entry.1 = slice.tailBlock
  · rw [if_pos same, border same]
    rfl
  · rw [if_neg same]
    rfl

/-- Growing at the head inside the first block. -/
theorem Spans.growFirst {p : BlockPtr} {b : Slab β} {others : Deck β} {size : ℕ}
    (spans : slice.Spans ((p, b) :: others)) (distinct : (ptrs ((p, b) :: others)).Nodup)
    (border : slice.headOffset = b.leftOffset) (room : size ≤ b.leftOffset) :
    (slice.grownHead ⟨p, (b.leftOffset - size : ℕ)⟩ size).Spans
        ((p, { b with leftOffset := b.leftOffset - size }) :: others) ∧
      Deck.positions (((p, { b with leftOffset := b.leftOffset - size }) :: others).map
          (slice.grownHead ⟨p, (b.leftOffset - size : ℕ)⟩ size).trim) =
        Region.positions ⟨⟨p, (b.leftOffset - size : ℕ)⟩, size⟩ ++
          Deck.positions (((p, b) :: others).map slice.trim) := by
  have head : slice.headBlock = some p := by simp [spans.head]
  have start : (slice.trim (p, b)).2.leftOffset = b.leftOffset := by simp [trim, head, border]
  obtain ⟨ordered, ordereds⟩ := List.forall_mem_cons.mp spans.ordered
  rw [start] at ordered
  have trimmed : ∀ entry ∈ others,
      (slice.grownHead ⟨p, (b.leftOffset - size : ℕ)⟩ size).trim entry = slice.trim entry := by
    intro entry member
    have other : entry.1 ≠ p := distinct_cons distinct member
    refine grownHead_trim_other size other ?_
    intro same
    rw [head, Option.some.injEq] at same
    exact absurd same other
  have first := @grownHead_trim_here _ slice ⟨p, (b.leftOffset - size : ℕ)⟩ size
    { b with leftOffset := b.leftOffset - size }
  refine ⟨⟨by simp, by simp [grownHead], ?_, ?_, ?_, ?_⟩, ?_⟩
  · have tail := spans.tail
    rwa [ptrs, List.map_cons] at tail ⊢
  · refine List.forall_mem_cons.mpr ⟨fun _ => le_rfl, ?_⟩
    intro entry member same
    exact absurd (Option.some.inj same) (distinct_cons distinct member)
  · exact List.forall_mem_cons.mpr (List.forall_mem_cons.mp spans.high)
  · refine List.forall_mem_cons.mpr ⟨?_, ?_⟩
    · rw [first]
      exact le_trans (Nat.sub_le ..) ordered
    · intro entry member
      rw [trimmed entry member]
      exact ordereds entry member
  · rw [List.map_cons, List.map_cons, first, List.map_congr_left trimmed, positions_cons,
      positions_cons, ← List.append_assoc, start]
    congr 1
    have split : (slice.trim (p, b)).2.rightOffset - (b.leftOffset - size) =
        size + ((slice.trim (p, b)).2.rightOffset - b.leftOffset) := by omega
    refine (congrArg (positionsFrom p _) split).trans ((positionsFrom_add ..).trans ?_)
    rw [Int.toNat_natCast, Nat.sub_add_cancel room]
    rfl

/-- Growing at the head into a new first block. -/
theorem Spans.openFirst {p q : BlockPtr} {b new : Slab β} {others : Deck β} {size : ℕ}
    (spans : slice.Spans ((p, b) :: others))
    (distinct : (ptrs ((q, new) :: (p, b) :: others)).Nodup)
    (border : slice.headOffset = b.leftOffset) (full : new.rightOffset = new.leftOffset + size) :
    (slice.grownHead ⟨q, new.leftOffset⟩ size).Spans ((q, new) :: (p, b) :: others) ∧
      Deck.positions (((q, new) :: (p, b) :: others).map
          (slice.grownHead ⟨q, new.leftOffset⟩ size).trim) =
        Region.positions ⟨⟨q, new.leftOffset⟩, size⟩ ++
          Deck.positions (((p, b) :: others).map slice.trim) := by
  have head : slice.headBlock = some p := by simp [spans.head]
  have trimmed : ∀ entry ∈ (p, b) :: others,
      (slice.grownHead ⟨q, new.leftOffset⟩ size).trim entry = slice.trim entry := by
    intro entry member
    refine grownHead_trim_other size (distinct_cons distinct member) ?_
    intro same
    rcases List.mem_cons.mp member with rfl | later
    · exact border
    · rw [head, Option.some.injEq] at same
      exact absurd same (distinct_cons (List.nodup_cons.mp distinct).2 later)
  have notTail : some q ≠ slice.tailBlock := by
    intro same
    have member := List.mem_of_mem_getLast? (spans.tail.symm.trans same.symm)
    exact (List.nodup_cons.mp distinct).1 member
  have first : (slice.grownHead ⟨q, new.leftOffset⟩ size).trim (q, new) = (q, new) := by
    refine (@grownHead_trim_here _ slice ⟨q, new.leftOffset⟩ size new).trans ?_
    simp [trim, notTail]
  refine ⟨⟨by simp, by simp [grownHead], ?_, ?_, ?_, ?_⟩, ?_⟩
  · have tail := spans.tail
    simpa [grownHead, List.getLast?_cons] using tail
  · refine List.forall_mem_cons.mpr ⟨fun _ => le_rfl, ?_⟩
    intro entry member same
    exact absurd (Option.some.inj same) (distinct_cons distinct member)
  · exact List.forall_mem_cons.mpr ⟨fun same => absurd same notTail, spans.high⟩
  · refine List.forall_mem_cons.mpr ⟨?_, ?_⟩
    · rw [first, full]
      exact Nat.le_add_right ..
    · intro entry member
      rw [trimmed entry member]
      exact spans.ordered entry member
  · rw [List.map_cons, first, List.map_congr_left trimmed, positions_cons, full,
      Nat.add_sub_cancel_left]
    rfl

/-- An allocation by the owner of the head puts its region in front of the live range. -/
theorem LiesIn.growHead {arena : Arena β} {size : ℕ} {deck' : Deck β} {ptr : Ptr}
    (lies : slice.LiesIn deck) (owns : slice.Owns deck .head) (distinct : (ptrs deck).Nodup)
    (distinct' : (ptrs deck').Nodup) (bound : size ≤ arena.blockSize)
    (alloc : AllocHead arena size deck ptr deck') :
    (slice.grownHead ptr size).LiesIn deck' ∧ (slice.grownHead ptr size).Owns deck' .head ∧
      (slice.grownHead ptr size).live deck' =
        Region.positions ⟨ptr, size⟩ ++ slice.live deck := by
  obtain ⟨p, b, rest, rfl, head, border⟩ := owns
  obtain ⟨others, after, rfl, spans⟩ := lies.atHead distinct head
  have same : slice.headOffset = b.leftOffset :=
    le_antisymm border (spans.low _ (List.mem_cons_self ..) head.symm)
  have old := @Spans.live_eq _ slice [] _ after spans distinct
  rw [List.nil_append, List.cons_append] at old
  rw [old]
  have kept : (ptrs ((p, b) :: others)).Sublist (ptrs ((p, b) :: (others ++ after))) :=
    (List.sublist_append_left ((p, b) :: others) after).map Prod.fst
  have inBlocks := distinct.sublist kept
  cases alloc with
  | fits room =>
      obtain ⟨spans', grown⟩ := spans.growFirst inBlocks same room
      refine ⟨⟨[], _, after, rfl, spans'⟩, ⟨p, _, _, rfl, rfl, le_rfl⟩, ?_⟩
      exact (@Spans.live_eq _ _ [] _ after spans' distinct').trans grown
  | opens full =>
      have inBlocks' := distinct'.sublist (kept.cons_cons arena.heap.serial)
      obtain ⟨spans', grown⟩ := @Spans.openFirst _ slice p arena.heap.serial b
        ⟨arena.heap.nextArea arena.blockSize, arena.blockSize, arena.blockSize - size,
          arena.blockSize⟩ others size spans inBlocks' same (Nat.sub_add_cancel bound).symm
      refine ⟨⟨[], _, after, rfl, spans'⟩, ⟨_, _, _, rfl, rfl, le_rfl⟩, ?_⟩
      exact (@Spans.live_eq _ _ [] _ after spans' distinct').trans grown

theorem distinct_concat {entry : BlockPtr × Slab β} {others : Deck β}
    (distinct : (ptrs (others ++ [entry])).Nodup) {other : BlockPtr × Slab β}
    (member : other ∈ others) : other.1 ≠ entry.1 := by
  intro same
  rw [ptrs, List.map_append] at distinct
  exact List.disjoint_of_nodup_append distinct (List.mem_map_of_mem member) (by simp [same])

/-- Growing at the tail inside the used range of the last block. -/
theorem Spans.growWithin {p : BlockPtr} {b : Slab β} {others : Deck β} {size : ℕ}
    (spans : slice.Spans (others ++ [(p, b)])) (distinct : (ptrs (others ++ [(p, b)])).Nodup)
    (room : slice.tailOffset + size ≤ b.rightOffset) :
    (slice.grownTail ⟨p, slice.tailOffset⟩ size).Spans (others ++ [(p, b)]) ∧
      Deck.positions ((others ++ [(p, b)]).map
          (slice.grownTail ⟨p, slice.tailOffset⟩ size).trim) =
        Deck.positions ((others ++ [(p, b)]).map slice.trim) ++
          Region.positions ⟨⟨p, slice.tailOffset⟩, size⟩ := by
  have tail : slice.tailBlock = some p := by simp [spans.tail]
  have stop : (slice.trim (p, b)).2.rightOffset = slice.tailOffset := by simp [trim, tail]
  obtain ⟨ordereds, ordered⟩ := List.forall_mem_append.mp spans.ordered
  replace ordered := ordered _ (List.mem_singleton_self _)
  rw [stop] at ordered
  have trimmed : ∀ entry ∈ others,
      (slice.grownTail ⟨p, slice.tailOffset⟩ size).trim entry = slice.trim entry := by
    intro entry member
    have other : entry.1 ≠ p := distinct_concat distinct member
    refine grownTail_trim_other size other ?_
    intro same
    rw [tail, Option.some.injEq] at same
    exact absurd same other
  have last := @grownTail_trim_here _ slice ⟨p, slice.tailOffset⟩ size b
  refine ⟨⟨by simp, spans.head, by simp [grownTail], spans.low, ?_, ?_⟩, ?_⟩
  · refine List.forall_mem_append.mpr ⟨?_, ?_⟩
    · intro entry member same
      exact absurd (Option.some.inj same) (distinct_concat distinct member)
    · exact List.forall_mem_singleton.mpr fun _ => room
  · refine List.forall_mem_append.mpr ⟨?_, List.forall_mem_singleton.mpr ?_⟩
    · intro entry member
      rw [trimmed entry member]
      exact ordereds entry member
    · rw [last]
      exact le_trans ordered (Nat.le_add_right ..)
  · rw [List.map_append, List.map_append, List.map_singleton, List.map_singleton, last,
      List.map_congr_left trimmed, positions_append, positions_append, List.append_assoc]
    congr 1
    have split : slice.tailOffset + size - (slice.trim (p, b)).2.leftOffset =
        slice.tailOffset - (slice.trim (p, b)).2.leftOffset + size := by omega
    have joined := positionsFrom_add p (slice.trim (p, b)).2.leftOffset
      (slice.tailOffset - (slice.trim (p, b)).2.leftOffset) size
    rw [Nat.add_sub_cancel' ordered, ← split] at joined
    rw [positions_cons, positions_cons, positions_nil, List.append_nil, List.append_nil, stop]
    exact joined

/-- Growing at the tail inside the last block, behind its used range. -/
theorem Spans.growLast {p : BlockPtr} {b : Slab β} {others : Deck β} {size : ℕ}
    (spans : slice.Spans (others ++ [(p, b)])) (distinct : (ptrs (others ++ [(p, b)])).Nodup)
    (border : slice.tailOffset = b.rightOffset) :
    (slice.grownTail ⟨p, b.rightOffset⟩ size).Spans
        (others ++ [(p, { b with rightOffset := b.rightOffset + size })]) ∧
      Deck.positions ((others ++ [(p, { b with rightOffset := b.rightOffset + size })]).map
          (slice.grownTail ⟨p, b.rightOffset⟩ size).trim) =
        Deck.positions ((others ++ [(p, b)]).map slice.trim) ++
          Region.positions ⟨⟨p, b.rightOffset⟩, size⟩ := by
  obtain ⟨raised, trimmed⟩ := spans.raiseLast (Nat.le_add_right b.rightOffset size)
  have same : (ptrs (others ++ [(p, { b with rightOffset := b.rightOffset + size })])).Nodup := by
    simpa using distinct
  obtain ⟨spans', grown⟩ := raised.growWithin same (le_of_eq (congrArg (· + size) border))
  rw [border] at spans' grown
  refine ⟨spans', grown.trans ?_⟩
  rw [List.map_append, List.map_append, List.map_singleton, List.map_singleton, trimmed]

/-- Growing at the tail into the block behind the last one. -/
theorem Spans.growInto {p q : BlockPtr} {b new : Slab β} {others : Deck β} {size : ℕ}
    (spans : slice.Spans (others ++ [(p, b)]))
    (distinct : (ptrs (others ++ [(p, b)] ++ [(q, new)])).Nodup)
    (border : slice.tailOffset = b.rightOffset) (start : new.leftOffset = 0)
    (room : size ≤ new.rightOffset) :
    (slice.grownTail ⟨q, 0⟩ size).Spans (others ++ [(p, b)] ++ [(q, new)]) ∧
      Deck.positions ((others ++ [(p, b)] ++ [(q, new)]).map
          (slice.grownTail ⟨q, 0⟩ size).trim) =
        Deck.positions ((others ++ [(p, b)]).map slice.trim) ++
          Region.positions ⟨⟨q, 0⟩, size⟩ := by
  have tail : slice.tailBlock = some p := by simp [spans.tail]
  have inOthers : (ptrs (others ++ [(p, b)])).Nodup :=
    distinct.sublist ((List.sublist_append_left _ _).map Prod.fst)
  have trimmed : ∀ entry ∈ others ++ [(p, b)],
      (slice.grownTail ⟨q, 0⟩ size).trim entry = slice.trim entry := by
    intro entry member
    refine grownTail_trim_other _ (distinct_concat distinct member) ?_
    intro same
    rcases List.mem_append.mp member with earlier | last
    · rw [tail, Option.some.injEq] at same
      exact absurd same (distinct_concat inOthers earlier)
    · rw [List.mem_singleton.mp last]
      exact border
  have notHead : some q ≠ slice.headBlock := by
    intro same
    have member : q ∈ ptrs (others ++ [(p, b)]) :=
      List.mem_of_mem_head? (spans.head.symm.trans same.symm)
    obtain ⟨entry, inBlocks, equal⟩ := List.mem_map.mp member
    exact distinct_concat distinct inBlocks equal
  have last : (slice.grownTail ⟨q, 0⟩ size).trim (q, new) =
      (q, { new with rightOffset := size }) := by
    refine (@grownTail_trim_here _ slice ⟨q, 0⟩ size new).trans ?_
    simp [trim, notHead]
  refine ⟨⟨by simp, ?_, by simp [grownTail], ?_, ?_, ?_⟩, ?_⟩
  · have head := spans.head
    obtain ⟨first, rest, split⟩ := List.exists_cons_of_ne_nil spans.nonempty
    rw [split] at head ⊢
    exact head
  · refine List.forall_mem_append.mpr ⟨spans.low, ?_⟩
    exact List.forall_mem_singleton.mpr fun same => absurd same notHead
  · refine List.forall_mem_append.mpr ⟨?_, ?_⟩
    · intro entry member same
      exact absurd (Option.some.inj same) (distinct_concat distinct member)
    · refine List.forall_mem_singleton.mpr ?_
      intro _
      simpa [grownTail] using room
  · refine List.forall_mem_append.mpr ⟨?_, List.forall_mem_singleton.mpr ?_⟩
    · intro entry member
      rw [trimmed entry member]
      exact spans.ordered entry member
    · rw [last, start]
      exact Nat.zero_le _
  · rw [List.map_append, List.map_singleton, last, List.map_congr_left trimmed, positions_append,
      positions_cons, positions_nil, List.append_nil, start]
    rfl

/-- An allocation by the owner of the tail puts its region behind the live range. -/
theorem LiesIn.growTail {arena : Arena β} {size : ℕ} {deck' : Deck β} {ptr : Ptr}
    (lies : slice.LiesIn deck) (owns : slice.Owns deck .tail) (distinct : (ptrs deck).Nodup)
    (distinct' : (ptrs deck').Nodup) (alloc : AllocTail arena size deck ptr deck') :
    (slice.grownTail ptr size).LiesIn deck' ∧ (slice.grownTail ptr size).Owns deck' .tail ∧
      (slice.grownTail ptr size).live deck' =
        slice.live deck ++ Region.positions ⟨ptr, size⟩ := by
  obtain ⟨front, p, b, rfl, tail, border⟩ := owns
  obtain ⟨before, others, rfl, spans⟩ := lies.atTail distinct tail
  have same : slice.tailOffset = b.rightOffset :=
    le_antisymm (spans.high (p, b) (by simp) tail.symm) border
  have old := @Spans.live_eq _ slice before _ [] spans (by simpa using distinct)
  rw [List.append_nil, ← List.append_assoc] at old
  rw [old]
  have kept : (ptrs (others ++ [(p, b)])).Sublist (ptrs (before ++ others ++ [(p, b)])) := by
    rw [List.append_assoc]
    exact (List.sublist_append_right _ _).map Prod.fst
  have inBlocks := distinct.sublist kept
  generalize split : before ++ others ++ [(p, b)] = deck at alloc
  cases alloc with
  | @fits q c front room =>
      obtain ⟨rfl, equal⟩ := List.append_inj' split rfl
      cases equal
      obtain ⟨spans', grown⟩ := @Spans.growLast _ slice p b others size spans inBlocks same
      have place := @Spans.live_eq _ _ before _ [] spans' (by simpa using distinct')
      rw [List.append_nil, ← List.append_assoc] at place
      refine ⟨⟨before, _, [], by simp, spans'⟩, ⟨_, p, _, rfl, rfl, ?_⟩, place.trans grown⟩
      simp [grownTail]
  | @opens q c front full =>
      rw [← split, List.append_assoc before] at distinct' ⊢
      have inBlocks' : (ptrs (others ++ [(p, b)] ++ [(arena.heap.serial,
          (⟨arena.heap.nextArea arena.blockSize, size, 0, arena.blockSize⟩ : Slab β))])).Nodup := by
        rw [List.append_assoc before] at distinct'
        exact distinct'.sublist ((List.sublist_append_right _ _).map Prod.fst)
      obtain ⟨spans', grown⟩ := spans.growInto inBlocks' same rfl le_rfl
      have place := @Spans.live_eq _ _ before _ [] spans' (by simpa using distinct')
      rw [List.append_nil, ← List.append_assoc] at place
      refine ⟨⟨before, _, [], by simp, spans'⟩, ⟨_, _, _, rfl, rfl, ?_⟩, place.trans grown⟩
      simp [grownTail]

end ArenaSlice

/-! ## The functions on a deck -/

namespace ArenaSlice

variable {slice : ArenaSlice} {arena : Arena β} {deck : Deck β}

/-- A slice that does not own the head is refused. -/
theorem allocAtHead_refused (rep : Represents arena deck) (lost : ¬ slice.Owns deck .head)
    (size : ℕ) : lfArenaSliceAllocAtHead slice arena size = some (none, slice, arena) := by
  obtain ⟨⟨p, b⟩, rest, rfl⟩ := List.exists_cons_of_ne_nil rep.nonempty
  obtain ⟨node, found, rfl⟩ := rep.lookup (p := p) (b := b) (by simp)
  by_cases lostHead : slice.headBlock = some p
  · have lostOffset : node.leftOffset < slice.headOffset := by
      by_contra kept
      exact lost ⟨p, node.toSlab, rest, rfl, lostHead, Nat.le_of_not_lt kept⟩
    simp [lfArenaSliceAllocAtHead, rep.head_eq, lostHead, found, lostOffset]
  · simp [lfArenaSliceAllocAtHead, rep.head_eq, lostHead]

/-- A slice that does not own the tail is refused. -/
theorem allocAtTail_refused (rep : Represents arena deck) (lost : ¬ slice.Owns deck .tail)
    (size : ℕ) : lfArenaSliceAllocAtTail slice arena size = some (none, slice, arena) := by
  obtain ⟨front, ⟨p, b⟩, rfl⟩ := (List.eq_nil_or_concat' deck).resolve_left rep.nonempty
  obtain ⟨node, found, rfl⟩ := rep.lookup (p := p) (b := b) (by simp)
  by_cases lostTail : slice.tailBlock = some p
  · have lostOffset : slice.tailOffset < node.rightOffset := by
      by_contra kept
      exact lost ⟨front, p, node.toSlab, rfl, lostTail, Nat.le_of_not_lt kept⟩
    simp [lfArenaSliceAllocAtTail, rep.tail_eq, lostTail, found, lostOffset]
  · simp [lfArenaSliceAllocAtTail, rep.tail_eq, lostTail]

/-- The owner of the head is given what the arena hands out. -/
theorem allocAtHead_granted (rep : Represents arena deck) (owns : slice.Owns deck .head)
    {size : ℕ} (positive : 0 < size) (bound : size ≤ arena.blockSize) :
    ∃ ptr arena' deck', lfArenaSliceAllocAtHead slice arena size =
        some (some ptr, slice.grownHead ptr size, arena') ∧
      AllocHead arena size deck ptr deck' ∧ Represents arena' deck' ∧ arena.Keeps arena' := by
  obtain ⟨p, b, rest, rfl, head, border⟩ := owns
  obtain ⟨node, found, rfl⟩ := rep.lookup (p := p) (b := b) (by simp)
  obtain ⟨ptr, arena', deck', alloc, change, rep', keeps, -⟩ := rep.allocAtHead positive bound
  obtain ⟨q, c, others, left, rfl, rfl, place⟩ := change.first
  obtain ⟨first, foundFirst, rfl⟩ := rep'.lookup (List.mem_cons_self ..)
  refine ⟨⟨q, left⟩, arena', _, ?_, change, rep', keeps⟩
  simp [lfArenaSliceAllocAtHead, rep.head_eq, head, found, Nat.not_lt.mpr border, alloc,
    rep'.head_eq, foundFirst, grownHead, place]

/-- The owner of the tail is given what the arena hands out. -/
theorem allocAtTail_granted (rep : Represents arena deck) (owns : slice.Owns deck .tail)
    {size : ℕ} (positive : 0 < size) (bound : size ≤ arena.blockSize) :
    ∃ ptr arena' deck', lfArenaSliceAllocAtTail slice arena size =
        some (some ptr, slice.grownTail ptr size, arena') ∧
      AllocTail arena size deck ptr deck' ∧ Represents arena' deck' ∧ arena.Keeps arena' := by
  obtain ⟨front, p, b, rfl, tail, border⟩ := owns
  obtain ⟨node, found, rfl⟩ := rep.lookup (p := p) (b := b) (by simp)
  obtain ⟨ptr, arena', deck', alloc, change, rep', keeps, -⟩ := rep.allocAtTail positive bound
  obtain ⟨others, q, c, offset, rfl, rfl, place⟩ := change.last
  obtain ⟨last, foundLast, rfl⟩ :=
    rep'.lookup (List.mem_append_right _ (List.mem_singleton_self _))
  refine ⟨⟨q, offset⟩, arena', _, ?_, change, rep', keeps⟩
  simp [lfArenaSliceAllocAtTail, rep.tail_eq, tail, found, Nat.not_lt.mpr border, alloc,
    rep'.tail_eq, foundLast, grownTail, place]

end ArenaSlice

/-- The used bytes of the blocks, as the loop of `_lf_get_arena_slice_size` sums them up. -/
def usedSize (size : ℕ) (blocks : Deck β) : ℕ :=
  blocks.foldl
    (fun size entry => sizeWrap (size + sizeSub entry.2.rightOffset entry.2.leftOffset)) size

theorem middleSize_spec {heap : Heap β} {after before first : Option BlockPtr}
    {blocks rest : Deck β}
    {q : BlockPtr} {c : Slab β}
    (chain : Segment (blockView β) heap.block after before first (blocks ++ (q, c) :: rest))
    (missing : q ∉ ptrs blocks) {fuel : ℕ} (enough : blocks.length ≤ fuel) (size : ℕ) :
    middleSize heap (some q) fuel first size = some (usedSize size blocks) := by
  induction blocks generalizing before first fuel size with
  | nil =>
      obtain ⟨rfl, -⟩ := chain
      cases fuel <;> simp [middleSize, usedSize]
  | cons entry blocks ih =>
      obtain ⟨p, b⟩ := entry
      obtain ⟨rfl, node, found, carried, -, onward⟩ := chain
      cases (show node.toSlab = b from carried)
      obtain ⟨fuel, rfl⟩ : ∃ n, fuel = n + 1 := ⟨fuel - 1, by simp at enough; omega⟩
      rw [ptrs, List.map_cons, List.mem_cons, not_or] at missing
      have other : p ≠ q := fun same => missing.1 same.symm
      have summed := ih onward missing.2 (by simpa using enough)
        (sizeWrap (size + sizeSub node.rightOffset node.leftOffset))
      simp only [middleSize, Option.some.injEq, other, ↓reduceIte, found, Option.bind_eq_bind,
        Option.bind_some]
      exact summed

/-- Only the size of the slice is computed, from its borders. -/
theorem lfGetArenaSliceSize_borders {heap : Heap β} {dest slice : ArenaSlice}
    (computed : lfGetArenaSliceSize heap dest = some slice) :
    slice = { dest with size := slice.size } ∧ lfGetArenaSliceSize heap slice = some slice := by
  simp only [lfGetArenaSliceSize, Option.bind_eq_bind] at computed
  split at computed
  · rename_i same
    cases computed
    exact ⟨rfl, by simp [lfGetArenaSliceSize, same]⟩
  · rename_i different
    simp only [Option.bind_eq_some_iff] at computed
    obtain ⟨p, head, block, found, size, summed, same⟩ := computed
    cases same
    refine ⟨rfl, ?_⟩
    simp only [lfGetArenaSliceSize, if_neg different]
    simp [head, found, summed]

/-- Without an arena, a slice keeps its borders. -/
theorem lfInitArenaSlice_none {heap : Heap β} {dest slice : ArenaSlice}
    (init : lfInitArenaSlice heap dest none = some slice) :
    lfGetArenaSliceSize heap dest = some slice := by
  simp only [lfInitArenaSlice, Option.bind_eq_bind, Option.bind_some] at init
  split at init
  · cases init
  · exact init

/-- Where a slice lies does not depend on its size. -/
theorem ArenaSlice.LiesIn.withSize {slice : ArenaSlice} {deck : Deck β} (lies : slice.LiesIn deck)
    (size : ℕ) : ({ slice with size } : ArenaSlice).LiesIn deck := by
  obtain ⟨before, blocks, after, split, spans⟩ := lies
  exact ⟨before, blocks, after, split, spans.nonempty, spans.head, spans.tail, spans.low,
    spans.high, spans.ordered⟩

/-- The size of a slice in one block. -/
theorem lfGetArenaSliceSize_single {heap : Heap β} {slice : ArenaSlice}
    (same : slice.headBlock = slice.tailBlock) :
    lfGetArenaSliceSize heap slice =
      some { slice with size := sizeSub slice.tailOffset slice.headOffset } := by
  simp [lfGetArenaSliceSize, same]

/-- The size of a slice in several blocks is what is between its borders, up to
the end of the head block. -/
theorem lfGetArenaSliceSize_several {arena : Arena β} {before middle after : Deck β}
    {p q : BlockPtr} {b c : Slab β} {slice : ArenaSlice}
    (rep : Represents arena (before ++ ((p, b) :: middle ++ [(q, c)]) ++ after))
    (head : slice.headBlock = some p) (tail : slice.tailBlock = some q) :
    slice.headBlock ≠ slice.tailBlock ∧ lfGetArenaSliceSize arena.heap slice = some
      { slice with
        size := usedSize
          (sizeWrap (sizeSub b.size slice.headOffset + slice.tailOffset)) middle } := by
  have chain := rep.chain
  rw [List.append_assoc] at chain
  obtain ⟨first, -, chain⟩ := segment_append.mp chain
  rw [List.append_assoc, List.cons_append] at chain
  obtain ⟨-, node, found, carried, -, onward⟩ := chain
  cases (show node.toSlab = b from carried)
  have distinct := rep.distinct
  simp only [ptrs, List.map_append, List.map_cons, List.map_nil, List.append_assoc] at distinct
  have inside := (List.nodup_append'.mp distinct).2.1
  rw [List.cons_append, List.nodup_cons] at inside
  obtain ⟨notFirst, inside⟩ := inside
  have different : p ≠ q := fun same => notFirst (by simp [same])
  have missing : q ∉ ptrs middle := by
    intro member
    exact (List.nodup_append'.mp inside).2.2 member (by simp)
  have enough : middle.length ≤ arena.heap.serial := by
    have length := rep.length_le
    simp at length
    omega
  have summed := fun size => middleSize_spec onward missing enough size
  refine ⟨by simp [head, tail, different], ?_⟩
  simp [lfGetArenaSliceSize, head, tail, found, different, summed,
    show node.next = (blockView β).next node from rfl]

/-- A slice of an arena has the borders of the arena. -/
theorem lfInitArenaSlice_spec {arena : Arena β} {deck : Deck β} (rep : Represents arena deck)
    (heap : Heap β) (sameHeap : heap = arena.heap) (dest : ArenaSlice) :
    ∃ slice, lfInitArenaSlice heap dest (some arena) = some slice ∧
      lfInitArenaSlice heap slice none = some slice ∧
      (∃ p b rest, deck = (p, b) :: rest ∧ slice.headBlock = some p ∧
        slice.headOffset = b.leftOffset) ∧
      (∃ front q c, deck = front ++ [(q, c)] ∧ slice.tailBlock = some q ∧
        slice.tailOffset = c.rightOffset) := by
  subst sameHeap
  obtain ⟨⟨p, b⟩, rest, rfl⟩ := List.exists_cons_of_ne_nil rep.nonempty
  obtain ⟨node, found, rfl⟩ := rep.lookup (p := p) (b := b) (by simp)
  rcases List.eq_nil_or_concat' rest with rfl | ⟨middle, ⟨q, c⟩, rfl⟩
  · have tail : arena.tailBlock = some p :=
      Represents.tail_eq (show Represents arena ([] ++ [(p, node.toSlab)]) from rep)
    refine ⟨⟨some p, some p, node.leftOffset, node.rightOffset,
      sizeSub node.rightOffset node.leftOffset⟩, ?_, ?_, ⟨p, _, [], rfl, rfl, rfl⟩,
      ⟨[], p, _, rfl, rfl, rfl⟩⟩
    · simp [lfInitArenaSlice, lfGetArenaSliceSize_single, rep.head_eq, tail, found]
    · simp [lfInitArenaSlice, lfGetArenaSliceSize_single]
  · obtain ⟨last, foundLast, rfl⟩ := rep.lookup (p := q) (b := c) (by simp)
    have rep' :
        Represents arena ([] ++ ((p, node.toSlab) :: middle ++ [(q, last.toSlab)]) ++ []) := by
      simpa using rep
    have tail : arena.tailBlock = some q :=
      Represents.tail_eq (show Represents arena (((p, node.toSlab) :: middle) ++ [(q, last.toSlab)])
        from rep)
    have sizes : ∀ size, lfGetArenaSliceSize arena.heap
        ⟨some p, some q, node.leftOffset, last.rightOffset, size⟩ = some _ :=
      fun _ => (lfGetArenaSliceSize_several rep' rfl rfl).2
    refine ⟨⟨some p, some q, node.leftOffset, last.rightOffset, usedSize
      (sizeWrap (sizeSub node.size node.leftOffset + last.rightOffset)) middle⟩, ?_, ?_,
      ⟨p, _, _, rfl, rfl, rfl⟩, ⟨(p, node.toSlab) :: middle, q, _, rfl, rfl, rfl⟩⟩
    · simp [lfInitArenaSlice, sizes, rep.head_eq, tail, found, foundLast]
    · simp [lfInitArenaSlice, sizes]

/-- A new slice lies in the arena and owns both of its ends: it cuts nothing off. -/
theorem ArenaSlice.of_init {arena : Arena β} {deck : Deck β} (rep : Represents arena deck)
    (ordered : ∀ entry ∈ deck, entry.2.leftOffset ≤ entry.2.rightOffset) (dest : ArenaSlice) :
    ∃ slice, lfInitArenaSlice arena.heap dest (some arena) = some slice ∧
      lfInitArenaSlice arena.heap slice none = some slice ∧ slice.LiesIn deck ∧
      (∀ side, slice.Owns deck side) ∧ slice.cut deck = deck := by
  obtain ⟨slice, init, again, first, last⟩ := lfInitArenaSlice_spec rep _ rfl dest
  obtain ⟨p, b, rest, split, head, headOffset⟩ := first
  obtain ⟨front, q, c, split', tail, tailOffset⟩ := last
  have inFront : (p, b) ∈ deck := by simp [split]
  have inBack : (q, c) ∈ deck := by simp [split']
  have untrimmed : ∀ entry ∈ deck, slice.trim entry = entry := by
    intro entry member
    obtain ⟨r, d⟩ := entry
    have start : (if some r = slice.headBlock then slice.headOffset else d.leftOffset) =
        d.leftOffset := by
      by_cases same : some r = slice.headBlock
      · obtain rfl : r = p := Option.some.inj (same.trans head)
        rw [if_pos same, headOffset, rep.same_block inFront member]
      · rw [if_neg same]
    have stop : (if some r = slice.tailBlock then slice.tailOffset else d.rightOffset) =
        d.rightOffset := by
      by_cases same : some r = slice.tailBlock
      · obtain rfl : r = q := Option.some.inj (same.trans tail)
        rw [if_pos same, tailOffset, rep.same_block inBack member]
      · rw [if_neg same]
    simp only [trim, start, stop]
  have spans : slice.Spans deck := by
    refine ⟨rep.nonempty, by simp [split, head], by simp [split', tail], ?_, ?_, ?_⟩
    · intro entry member same
      have start := congrArg (fun entry => entry.2.leftOffset) (untrimmed entry member)
      simp only [trim, same, ↓reduceIte] at start
      exact le_of_eq start.symm
    · intro entry member same
      have stop := congrArg (fun entry => entry.2.rightOffset) (untrimmed entry member)
      simp only [trim, same, ↓reduceIte] at stop
      exact le_of_eq stop
    · intro entry member
      rw [untrimmed entry member]
      exact ordered entry member
  refine ⟨slice, init, again, ⟨[], deck, [], by simp, spans⟩, ?_, ?_⟩
  · intro side
    cases side with
    | head => exact ⟨p, b, rest, split, head, le_of_eq headOffset⟩
    | tail => exact ⟨front, q, c, split', tail, le_of_eq tailOffset.symm⟩
  · have cut := @Spans.cut_eq _ slice [] deck [] spans (by simpa using rep.distinct)
    rw [List.nil_append, List.append_nil] at cut
    rw [cut]
    exact (List.map_congr_left untrimmed).trans (List.map_id deck)

end LowFlow
