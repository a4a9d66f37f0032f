import LowFlow.Memory.ArenaSize
import LowFlow.Memory.SliceRuns
import LowFlow.Memory.String

/-!
# The size of a slice over a whole arena

The size of a slice is computed from its borders when it is made, and kept by sums
when it grows. The computation counts the head block up to the block's end and the
tail block from the block's start. Where the arena leaves slack there, the two ways
disagree with the live bytes and with each other; elsewhere they agree
(`sliceSize_is_live_iff`).
-/

set_option autoImplicit false

namespace LowFlow

open Library

variable {β : Type}

/-! ## Arenas that only grew -/

/-- The live bytes of the blocks of an arena. -/
def Arena.liveBytes (arena : Arena β) : Option ℕ :=
  (blocksFrom arena.heap arena.blockCount arena.headBlock).map Deck.liveBytes

/-- The arena has one block, or its head block is used up to the end and its tail block
from the start on. -/
def Arena.IsFlush (arena : Arena β) : Prop :=
  arena.blockCount = 1 ∨
    (∃ p b, arena.headBlock = some p ∧ arena.heap.block p = some b ∧
        b.rightOffset = arena.blockSize) ∧
      ∃ q c, arena.tailBlock = some q ∧ arena.heap.block q = some c ∧ c.leftOffset = 0

/-- An allocation at an end of an arena, and one through a slice of it. -/
def allocStep (op : ArenaEnd × ℕ) (arena : Arena β) : Option (Ptr × Arena β) :=
  allocAt op.1 arena op.2

def sliceAllocStep (op : ArenaEnd × ℕ) (s : ArenaSlice × Arena β) :
    Option (Option Ptr × ArenaSlice × Arena β) :=
  sliceAllocAt op.1 s.1 s.2 op.2

/-- The bytes that are asked for. -/
def requested (ops : List (ArenaEnd × ℕ)) : ℕ :=
  ops.foldr (fun op n => op.2 + n) 0

@[simp] theorem requested_cons (op : ArenaEnd × ℕ) (ops : List (ArenaEnd × ℕ)) :
    requested (op :: ops) = op.2 + requested ops := rfl

theorem Represents.liveBytes_eq {arena : Arena β} {deck : Deck β} (rep : Represents arena deck) :
    arena.liveBytes = some deck.liveBytes := by
  rw [Arena.liveBytes, rep.blocksFrom_eq, Option.map_some]

/-- With several blocks an arena is flush when its outer blocks have no slack inside. -/
theorem Represents.isFlush_iff {arena : Arena β} {middle : Deck β} {p q : BlockPtr} {b c : Slab β}
    (rep : Represents arena ((p, b) :: middle ++ [(q, c)])) :
    arena.IsFlush ↔ b.rightOffset = arena.blockSize ∧ c.leftOffset = 0 := by
  have several : arena.blockCount ≠ 1 := by simp [rep.count]
  obtain ⟨node, found, rfl⟩ := rep.lookup (p := p) (b := b) (by simp)
  obtain ⟨last, foundLast, rfl⟩ := rep.lookup (p := q) (b := c) (by simp)
  rw [Arena.IsFlush, or_iff_right several, rep.tail_eq, Represents.head_eq rep]
  refine and_congr ⟨?_, fun full => ⟨p, node, rfl, found, full⟩⟩
    ⟨?_, fun start => ⟨q, last, rfl, foundLast, start⟩⟩
  · rintro ⟨r, d, same, foundHead, full⟩
    obtain rfl := Option.some.inj same
    obtain rfl := Option.some.inj (found.symm.trans foundHead)
    exact full
  · rintro ⟨r, d, same, foundTail, start⟩
    obtain rfl := Option.some.inj same
    obtain rfl := Option.some.inj (foundLast.symm.trans foundTail)
    exact start

/-- Blocks that were opened at the ends of an arena have no slack on their inner side. -/
structure Arena.Outward (arena : Arena β) (deck : Deck β) : Prop where
  rep : Represents arena deck
  ordered : ∀ entry ∈ deck, entry.2.leftOffset ≤ entry.2.rightOffset
  bounded : ∀ entry ∈ deck, entry.2.rightOffset ≤ arena.blockSize
  opened : ∀ p b middle q c, deck = (p, b) :: middle ++ [(q, c)] →
    b.rightOffset = arena.blockSize ∨ c.leftOffset = 0

theorem AllocAt.liveBytes {side : ArenaEnd} {arena : Arena β} {size : ℕ} {deck deck' : Deck β}
    {ptr : Ptr} (change : AllocAt side arena size deck ptr deck') (bound : size ≤ arena.blockSize)
    (ordered : ∀ entry ∈ deck, entry.2.leftOffset ≤ entry.2.rightOffset) :
    deck'.liveBytes = deck.liveBytes + size := by
  cases side with
  | head => exact AllocHead.liveBytes change bound ordered
  | tail => exact AllocTail.liveBytes change ordered

theorem Represents.of_allocAt {arena arena' : Arena β} {deck : Deck β} {size : ℕ} {ptr : Ptr}
    (rep : Represents arena deck) (side : ArenaEnd)
    (alloc : LowFlow.allocAt side arena size = some (ptr, arena')) :
    0 < size ∧ size ≤ arena.blockSize ∧ ∃ deck', AllocAt side arena size deck ptr deck' ∧
      Represents arena' deck' ∧ arena.Keeps arena' := by
  cases side with
  | head =>
      obtain ⟨positive, bound, deck', change, rep', keeps, -⟩ := rep.of_allocAtHead alloc
      exact ⟨positive, bound, deck', change, rep', keeps⟩
  | tail =>
      obtain ⟨positive, bound, deck', change, rep', keeps, -⟩ := rep.of_allocAtTail alloc
      exact ⟨positive, bound, deck', change, rep', keeps⟩

namespace Arena.Outward

variable {arena arena' : Arena β} {deck deck' : Deck β} {side : ArenaEnd} {size : ℕ} {ptr : Ptr}

theorem init {start : Arena β} (init : lfInitArena arena = some start) :
    ∃ deck, start.Outward deck ∧ deck.liveBytes = 0 ∧ start.blockSize = arena.blockSize := by
  have positive := lfInitArena_accepts init
  obtain ⟨start', init', rep, same, -, -, -⟩ := lfInitArena_spec arena positive
  obtain rfl := Option.some.inj (init.symm.trans init')
  refine ⟨_, ⟨rep, by simp, ?_, ?_⟩, by simp, same⟩
  · rw [same]
    exact List.forall_mem_singleton.mpr (startOffset_le ..)
  · intro p b middle q c split
    have lengths := congrArg List.length split
    simp at lengths

/-- An allocation at an end keeps the slack outside. -/
theorem alloc (outward : arena.Outward deck) (bound : size ≤ arena.blockSize)
    (change : AllocAt side arena size deck ptr deck') (rep : Represents arena' deck')
    (keeps : arena.Keeps arena') : arena'.Outward deck' := by
  have blocks := keeps.blockSize
  cases side with
  | head =>
      refine ⟨rep, change.ordered outward.ordered, ?_, ?_⟩
      · rw [blocks]
        cases change with
        | fits room =>
            obtain ⟨first, others⟩ := List.forall_mem_cons.mp outward.bounded
            exact List.forall_mem_cons.mpr ⟨first, others⟩
        | opens full => exact List.forall_mem_cons.mpr ⟨le_rfl, outward.bounded⟩
      · intro p b middle q c split
        rw [blocks]
        cases change with
        | @fits p' b' rest room =>
            obtain ⟨same, rfl⟩ := List.cons.inj split
            cases same
            exact outward.opened p b' middle q c rfl
        | opens full =>
            obtain ⟨same, -⟩ := List.cons.inj split
            cases same
            exact .inl rfl
  | tail =>
      refine ⟨rep, change.ordered outward.ordered, ?_, ?_⟩
      · rw [blocks]
        exact AllocTail.bounded change bound outward.rep.sized outward.bounded
      · intro p b middle q c split
        rw [blocks]
        cases change with
        | @fits q' c' front room =>
            obtain ⟨rfl, last⟩ := List.append_inj' split rfl
            cases last
            exact outward.opened p b middle q c' rfl
        | opens full =>
            obtain ⟨-, last⟩ := List.append_inj' split rfl
            cases last
            exact .inr rfl

/-- So does a run of allocations, and what they ask for becomes live. -/
theorem allocs {start : Arena β} (outward : start.Outward deck) {ops : List (ArenaEnd × ℕ)}
    {answers : List Ptr} (runs : run allocStep ops start = some (answers, arena)) :
    ∃ deck', arena.Outward deck' ∧ deck'.liveBytes = deck.liveBytes + requested ops ∧
      start.blockSize = arena.blockSize := by
  induction ops generalizing start deck answers with
  | nil =>
      cases runs
      exact ⟨deck, outward, rfl, rfl⟩
  | cons op ops ih =>
      obtain ⟨ptr, next, answers, taken, onward, rfl⟩ := run_cons_iff.mp runs
      obtain ⟨side, size⟩ := op
      obtain ⟨-, bound, deck₁, change, rep, keeps⟩ := outward.rep.of_allocAt side taken
      obtain ⟨deck', outward', live, same⟩ := ih (outward.alloc bound change rep keeps) onward
      refine ⟨deck', outward', ?_, keeps.blockSize.symm.trans same⟩
      rw [live, change.liveBytes bound outward.ordered, requested_cons, Nat.add_assoc]

end Arena.Outward

/-! ## Slices over a whole arena -/

/-- The borders of the slice are those of the arena. -/
structure ArenaSlice.IsWhole (slice : ArenaSlice) (deck : Deck β) : Prop where
  first : ∃ p b rest, deck = (p, b) :: rest ∧ slice.headBlock = some p ∧
    slice.headOffset = b.leftOffset
  last : ∃ front q c, deck = front ++ [(q, c)] ∧ slice.tailBlock = some q ∧
    slice.tailOffset = c.rightOffset

namespace ArenaSlice.IsWhole

variable {slice : ArenaSlice} {arena : Arena β} {deck deck' : Deck β} {side : ArenaEnd} {size : ℕ}
  {ptr : Ptr}

theorem owns (whole : slice.IsWhole deck) (side : ArenaEnd) : slice.Owns deck side := by
  cases side with
  | head =>
      obtain ⟨p, b, rest, split, head, offset⟩ := whole.first
      exact ⟨p, b, rest, split, head, le_of_eq offset⟩
  | tail =>
      obtain ⟨front, q, c, split, tail, offset⟩ := whole.last
      exact ⟨front, q, c, split, tail, le_of_eq offset.symm⟩

/-- A slice that grows with the arena stays the whole of it. -/
theorem grown (whole : slice.IsWhole deck) (change : AllocAt side arena size deck ptr deck') :
    (slice.grown side ptr size).IsWhole deck' := by
  cases side with
  | head =>
      obtain ⟨p, b, rest, offset, rfl, split, place⟩ := AllocHead.first change
      refine ⟨⟨p, b, rest, split, rfl, by simp [ArenaSlice.grown, grownHead, place]⟩, ?_⟩
      obtain ⟨front, q, c, split', tail, border⟩ := whole.last
      cases change with
      | @fits p' b' rest' room =>
          cases front with
          | nil =>
              obtain ⟨same, rfl⟩ := List.cons.inj split'
              cases same
              exact ⟨[], _, _, rfl, tail, border⟩
          | cons entry front =>
              obtain ⟨rfl, rfl⟩ := List.cons.inj split'
              exact ⟨_ :: front, q, c, rfl, tail, border⟩
      | opens full =>
          rw [split']
          exact ⟨_ :: front, q, c, rfl, tail, border⟩
  | tail =>
      obtain ⟨front, q, c, offset, rfl, split, place⟩ := AllocTail.last change
      refine ⟨?_, ⟨front, q, c, split, rfl, by simp [ArenaSlice.grown, grownTail, place]⟩⟩
      obtain ⟨p, b, rest, split', head, border⟩ := whole.first
      cases change with
      | @fits q' c' front' room =>
          cases front' with
          | nil =>
              obtain ⟨same, rfl⟩ := List.cons.inj split'
              cases same
              exact ⟨_, _, [], rfl, head, border⟩
          | cons entry front' =>
              obtain ⟨rfl, -⟩ := List.cons.inj split'
              exact ⟨p, b, _, rfl, head, border⟩
      | opens full =>
          rw [split']
          exact ⟨p, b, _, rfl, head, border⟩

/-- The size that is computed from the borders is that of the live bytes exactly when the
arena is flush and they can be counted. -/
theorem computed (whole : slice.IsWhole deck) (outward : arena.Outward deck)
    (small : arena.blockSize < sizeModulus) :
    ∃ size < sizeModulus, lfGetArenaSliceSize arena.heap slice = some { slice with size } ∧
      (size = deck.liveBytes ↔ arena.IsFlush ∧ deck.liveBytes < sizeModulus) := by
  have rep := outward.rep
  obtain ⟨p, b, rest, rfl, head, headOffset⟩ := whole.first
  have ordered : b.leftOffset ≤ b.rightOffset := outward.ordered (p, b) (List.mem_cons_self ..)
  have bounded : b.rightOffset ≤ arena.blockSize := outward.bounded (p, b) (List.mem_cons_self ..)
  rcases List.eq_nil_or_concat' rest with rfl | ⟨middle, ⟨q, c⟩, rfl⟩
  · obtain ⟨front, q, c, split, tail, tailOffset⟩ := whole.last
    obtain ⟨-, same⟩ := List.append_inj' (show [] ++ [(p, b)] = front ++ [(q, c)] from split) rfl
    cases same
    have flush : arena.IsFlush := .inl rep.count
    have between : sizeSub slice.tailOffset slice.headOffset = b.rightOffset - b.leftOffset := by
      rw [headOffset, tailOffset, sizeSub_of_le ordered]
    have counted : b.rightOffset - b.leftOffset < sizeModulus := by omega
    refine ⟨_, between ▸ counted, lfGetArenaSliceSize_single (head.trans tail.symm), ?_⟩
    rw [between, liveBytes_cons, liveBytes_nil, Nat.add_zero]
    exact iff_of_true rfl ⟨flush, counted⟩
  · obtain ⟨front, q', c', split, tail, tailOffset⟩ := whole.last
    obtain ⟨-, same⟩ := List.append_inj'
      (show ((p, b) :: middle) ++ [(q, c)] = front ++ [(q', c')] from split) rfl
    cases same
    have between : ∀ entry ∈ middle, entry.2.leftOffset ≤ entry.2.rightOffset :=
      fun entry member => outward.ordered entry (by simp [member])
    have last : c.leftOffset ≤ c.rightOffset := outward.ordered (q, c) (by simp)
    have lastBounded : c.rightOffset ≤ arena.blockSize := outward.bounded (q, c) (by simp)
    have width : b.size = arena.blockSize := rep.sized (p, b) (by simp)
    have opened := outward.opened p b middle q c rfl
    have rep' : Represents arena ([] ++ ((p, b) :: middle ++ [(q, c)]) ++ []) := by simpa using rep
    obtain ⟨-, size⟩ := lfGetArenaSliceSize_several rep' head tail
    -- what is computed counts the slack inside the outer blocks too
    have sum : arena.blockSize - b.leftOffset + c.rightOffset + Deck.liveBytes middle =
        Deck.liveBytes ((p, b) :: (middle ++ [(q, c)])) +
          (arena.blockSize - b.rightOffset + c.leftOffset) := by
      simp only [liveBytes_cons, liveBytes_append, liveBytes_nil]
      omega
    have total : usedSize (sizeWrap (sizeSub b.size slice.headOffset + slice.tailOffset)) middle =
        sizeWrap (Deck.liveBytes ((p, b) :: (middle ++ [(q, c)])) +
          (arena.blockSize - b.rightOffset + c.leftOffset)) := by
      rw [width, headOffset, tailOffset, sizeSub_of_le (ordered.trans bounded),
        usedSize_eq between, length_positions, sum]
    rw [total] at size
    refine ⟨_, sizeWrap_lt _, size, ?_⟩
    rw [sizeWrap_add_eq_iff (by omega), @Represents.isFlush_iff _ _ middle _ _ _ _ rep, and_comm]
    exact and_congr_left fun _ => by omega

/-- Growing a slice over a whole arena adds what is asked for to its size. -/
theorem allocs {slice' : ArenaSlice} {arena' : Arena β} (whole : slice.IsWhole deck)
    (outward : arena.Outward deck) {ops : List (ArenaEnd × ℕ)} {answers : List (Option Ptr)}
    (runs : run sliceAllocStep ops (slice, arena) = some (answers, slice', arena')) :
    ∃ deck', slice'.IsWhole deck' ∧ arena'.Outward deck' ∧
      deck'.liveBytes = deck.liveBytes + requested ops ∧
      sizeWrap slice'.size = sizeWrap (slice.size + requested ops) ∧
      (slice.size < sizeModulus → slice'.size < sizeModulus) ∧
      arena'.blockSize = arena.blockSize := by
  induction ops generalizing slice arena deck answers with
  | nil =>
      cases runs
      exact ⟨deck, whole, outward, rfl, rfl, id, rfl⟩
  | cons op ops ih =>
      obtain ⟨answer, ⟨next, nextArena⟩, answers, taken, onward, rfl⟩ := run_cons_iff.mp runs
      obtain ⟨side, size⟩ := op
      have accepted : ¬ (size = 0 ∨ arena.blockSize < size) := fun refused => by
        have none := ArenaSlice.sliceAllocAt_size outward.rep (whole.owns side) refused
        exact absurd (none.symm.trans taken) (by simp)
      have bound : size ≤ arena.blockSize := by omega
      obtain ⟨ptr, arena₁, deck₁, alloc, change, rep, keeps⟩ :=
        ArenaSlice.sliceAllocAt_granted outward.rep (whole.owns side) (by omega) bound
      obtain ⟨-, same⟩ := Prod.mk.inj (Option.some.inj (taken.symm.trans alloc))
      obtain ⟨rfl, rfl⟩ := Prod.mk.inj same
      obtain ⟨deck', whole', outward', live, sizes, small, blocks⟩ :=
        ih (whole.grown change) (outward.alloc bound change rep keeps) onward
      have grown : (slice.grown side ptr size).size = sizeWrap (slice.size + size) := by
        cases side <;> rfl
      refine ⟨deck', whole', outward', ?_, ?_, fun _ => small ?_, blocks.trans keeps.blockSize⟩
      · rw [live, change.liveBytes bound outward.ordered, requested_cons, Nat.add_assoc]
      · rw [sizes, grown, sizeWrap_add_sizeWrap, requested_cons, Nat.add_assoc]
      · rw [grown]
        exact sizeWrap_lt _

end ArenaSlice.IsWhole

/-! ## Both ways of computing the size -/

/-- **When the size of a slice is right.** After any allocations in an arena a slice over
it is made, and both grow. Its size is the number of live bytes, when it is made and at
the end, and computing it anew changes nothing, when the arena is flush both times and
no sum wraps around, and only then. -/
theorem sliceSize_is_live_iff {arena start made grown : Arena β}
    (small : arena.blockSize < sizeModulus)
    (init : lfInitArena arena = some start) {allocs more : List (ArenaEnd × ℕ)}
    {answers : List Ptr} (ran : run allocStep allocs start = some (answers, made))
    {dest slice slice' : ArenaSlice}
    (initSlice : lfInitArenaSlice made.heap dest (some made) = some slice)
    {answers' : List (Option Ptr)}
    (runs : run sliceAllocStep more (slice, made) = some (answers', slice', grown)) :
    (made.liveBytes = some slice.size ∧ grown.liveBytes = some slice'.size ∧
        lfGetArenaSliceSize grown.heap slice' = some slice') ↔
      made.IsFlush ∧ grown.IsFlush ∧ requested allocs + requested more < sizeModulus := by
  obtain ⟨deck₀, outward₀, empty, same⟩ := Arena.Outward.init init
  obtain ⟨deck, outward, live, blocks⟩ := outward₀.allocs ran
  obtain ⟨made', created, again, first, last⟩ := lfInitArenaSlice_spec outward.rep _ rfl dest
  obtain rfl := Option.some.inj (initSlice.symm.trans created)
  have whole : slice.IsWhole deck := ⟨first, last⟩
  obtain ⟨deck', whole', outward', live', sizes, below, blocks'⟩ := whole.allocs outward runs
  obtain ⟨size, bound, computed, right⟩ := whole.computed outward (by omega)
  obtain ⟨size', bound', computed', right'⟩ := whole'.computed outward' (by omega)
  obtain rfl : slice.size = size := congrArg ArenaSlice.size
    (Option.some.inj ((lfInitArenaSlice_none again).symm.trans computed))
  rw [empty, Nat.zero_add] at live
  rw [outward.rep.liveBytes_eq, outward'.rep.liveBytes_eq, Option.some.injEq, Option.some.injEq,
    ← live, ← live']
  constructor
  · rintro ⟨start, stop, unchanged⟩
    obtain rfl : slice'.size = size' := congrArg ArenaSlice.size
      (Option.some.inj (unchanged.symm.trans computed'))
    exact ⟨(right.mp start.symm).1, right'.mp stop.symm⟩
  · rintro ⟨flush, flush', counted⟩
    have start : slice.size = deck.liveBytes := right.mpr ⟨flush, by omega⟩
    rw [sizeWrap_of_lt (below bound), start, ← live', sizeWrap_of_lt counted] at sizes
    refine ⟨start.symm, sizes.symm, ?_⟩
    rw [computed', right'.mpr ⟨flush', counted⟩, ← sizes]

/-- A full block and three bytes more, and a slice over them that grows at both ends. -/
theorem sliceSize_is_live_iff_both_ends : ∃ (start made grown : Arena UInt8) (answers : List Ptr)
    (slice slice' : ArenaSlice) (answers' : List (Option Ptr)),
    lfInitArena (Arena.declared (Allocator.bump 0) 8 .left) = some start ∧
      run allocStep [(.tail, 8), (.tail, 3)] start = some (answers, made) ∧
      lfInitArenaSlice made.heap ⟨none, none, 0, 0, 0⟩ (some made) = some slice ∧
      run sliceAllocStep [(.tail, 2), (.head, 4)] (slice, made) = some (answers', slice', grown) ∧
      ((made.liveBytes = some slice.size ∧ grown.liveBytes = some slice'.size ∧
          lfGetArenaSliceSize grown.heap slice' = some slice') ↔
        made.IsFlush ∧ grown.IsFlush ∧
          requested [(.tail, 8), (.tail, 3)] + requested [(.tail, 2), (.head, 4)] <
            sizeModulus) := by
  have ends : ((lfInitArena (Arena.declared (Allocator.bump (0 : UInt8)) 8 .left)).bind fun start =>
      (run allocStep [(.tail, 8), (.tail, 3)] start).bind fun made =>
        (lfInitArenaSlice made.2.heap ⟨none, none, 0, 0, 0⟩ (some made.2)).bind fun slice =>
          run sliceAllocStep [(.tail, 2), (.head, 4)] (slice, made.2)).isSome = true := by
    decide +kernel
  obtain ⟨⟨answers', slice', grown⟩, ends⟩ := Option.isSome_iff_exists.mp ends
  obtain ⟨start, init, ends⟩ := Option.bind_eq_some_iff.mp ends
  obtain ⟨⟨answers, made⟩, ran, ends⟩ := Option.bind_eq_some_iff.mp ends
  obtain ⟨slice, initSlice, runs⟩ := Option.bind_eq_some_iff.mp ends
  exact ⟨start, made, grown, answers, slice, slice', answers', init, ran, initSlice, runs,
    sliceSize_is_live_iff (by decide) init ran initSlice runs⟩

/-- Five bytes do not fit behind the middle of eight: the empty head block is counted. -/
theorem sliceSize_of_skipped_block : ∃ (start made : Arena UInt8) (answers : List Ptr)
    (slice : ArenaSlice), lfInitArena (Arena.declared (Allocator.bump 0) 8 .middle) = some start ∧
      run allocStep [(.tail, 5)] start = some (answers, made) ∧
      lfInitArenaSlice made.heap ⟨none, none, 0, 0, 0⟩ (some made) = some slice ∧
      slice.size = 9 ∧ made.liveBytes = some 5 := by
  have ends : ((lfInitArena (Arena.declared (Allocator.bump (0 : UInt8)) 8 .middle)).bind
      fun start =>
      (run allocStep [(.tail, 5)] start).bind fun made =>
        (lfInitArenaSlice made.2.heap ⟨none, none, 0, 0, 0⟩ (some made.2)).map fun slice =>
          (slice.size, made.2.liveBytes)) = some (9, some 5) := by
    decide +kernel
  obtain ⟨start, init, ends⟩ := Option.bind_eq_some_iff.mp ends
  obtain ⟨⟨answers, made⟩, ran, ends⟩ := Option.bind_eq_some_iff.mp ends
  obtain ⟨slice, initSlice, ends⟩ := Option.map_eq_some_iff.mp ends
  obtain ⟨size, live⟩ := Prod.mk.inj ends
  exact ⟨start, made, answers, slice, init, ran, initSlice, size, live⟩

end LowFlow
