import LowFlow.Memory.Growth
import LowFlow.Memory.String

/-!
# Growing a slice in steps

A slice that is grown by some characters and then by others should end where a
slice does that is grown by all of them. Inside the tail block it does, and from
the end of the tail block into the next one. Across a border the loop of
`lf_grow_arena_slice_tail` compares the wrong sizes, and what it leaves is not a
position (`grows_in_steps_iff`).
-/

set_option autoImplicit false

namespace LowFlow

open Library

variable {β : Type}

/-- The tail of the slice is in this block of the arena, and the blocks from there on are used
from end to end. -/
structure ArenaSlice.TailIn (slice : ArenaSlice) (arena : Arena β) (before : Deck β) (p : BlockPtr)
    (b : Slab β) (behind : Deck β) : Prop where
  rep : Represents arena (before ++ (p, b) :: behind)
  used : ∀ entry ∈ (p, b) :: behind,
    entry.2.leftOffset = 0 ∧ entry.2.rightOffset = arena.blockSize
  tail : slice.tailBlock = some p
  inside : slice.tailOffset ≤ arena.blockSize
  counted : slice.size < sizeModulus
  small : arena.blockSize < sizeModulus

/-- The bytes behind the tail of the slice: in its block, and in the blocks behind it. -/
def ArenaSlice.bytesLeft (slice : ArenaSlice) (arena : Arena β) (behind : Deck β) : ℕ :=
  (arena.blockSize - slice.tailOffset) + behind.length * arena.blockSize

/-- Growing by one byte, a number of times. -/
def growByOnes (heap : Heap β) : ℕ → ArenaSlice → Option ArenaSlice
  | 0, slice => some slice
  | n + 1, slice => do
      let slice ← growByOnes heap n slice
      let (_, slice) ← lfGrowArenaSliceTail heap slice 1
      some slice

/-- The tail border is inside its block. -/
def ArenaSlice.TailInside (slice : ArenaSlice) (heap : Heap β) : Prop :=
  ∃ q node, slice.tailBlock = some q ∧ heap.block q = some node ∧ slice.tailOffset ≤ node.size

/-- Growing by `a + b` is growing by `a` and then by `b`, and growing by one `a + b` times. The
size goes up by `a + b`, and the tail border stays inside its block. -/
def ArenaSlice.GrowsInSteps (slice : ArenaSlice) (heap : Heap β) (a b : ℕ) : Prop :=
  ∃ one two, lfGrowArenaSliceTail heap slice a = some (true, one) ∧
    lfGrowArenaSliceTail heap one b = some (true, two) ∧
    lfGrowArenaSliceTail heap slice (a + b) = some (true, two) ∧
    growByOnes heap (a + b) slice = some two ∧
    two.size = sizeWrap (slice.size + (a + b)) ∧ one.TailInside heap ∧ two.TailInside heap

/-! ## What the loop does -/

/-- The loop ends at a block of the chain where the size is at most what is left, and what is left
went down by one block for each block that was passed. -/
theorem growOver_spec {heap : Heap β} {size blockSize fuel : ℕ} {nodes : Deck β}
    {before first : Option BlockPtr} {slice slice' : ArenaSlice} {left : ℕ} {answer : Bool}
    (chain : Segment (blockView β) heap.block none before first nodes)
    (sized : ∀ entry ∈ nodes, entry.2.size = blockSize) (bound : left < sizeModulus)
    (small : blockSize < sizeModulus)
    (grown : growOver heap size fuel first left slice = some (answer, slice')) :
    ∃ passed, (∃ entry ∈ nodes, slice'.tailBlock = some entry.1) ∧ size ≤ slice'.tailOffset ∧
      slice'.tailOffset < sizeModulus ∧
      slice'.size = sizeWrap (slice.size + passed * blockSize + size) ∧
      sizeWrap (slice'.tailOffset + passed * blockSize) = left := by
  induction nodes generalizing before first slice left fuel with
  | nil =>
      cases (show first = none from chain)
      cases fuel <;> simp [growOver] at grown
  | cons entry rest ih =>
      obtain ⟨p, b⟩ := entry
      obtain ⟨rfl, node, found, carried, -, onward⟩ := chain
      cases (show node.toSlab = b from carried)
      obtain ⟨here, sized⟩ := List.forall_mem_cons.mp sized
      have width : node.size = blockSize := here
      cases fuel with
      | zero => simp [growOver] at grown
      | succ fuel =>
          simp only [growOver, found, Option.bind_eq_bind, Option.bind_some] at grown
          by_cases ends : size ≤ left
          · simp only [ends, ↓reduceIte, Option.some.injEq, Prod.mk.injEq] at grown
            obtain ⟨-, rfl⟩ := grown
            exact ⟨0, ⟨_, List.mem_cons_self .., rfl⟩, ends, bound, by simp,
              by simpa using sizeWrap_of_lt bound⟩
          · simp only [ends, ↓reduceIte, width] at grown
            obtain ⟨passed, ⟨entry, member, tail⟩, atMost, below, counted, undone⟩ :=
              ih onward sized (sizeSub_lt bound) grown
            refine ⟨passed + 1, ⟨entry, List.mem_cons_of_mem _ member, tail⟩, atMost, below, ?_, ?_⟩
            · rw [counted, Nat.add_assoc (sizeWrap _), sizeWrap_add_sizeWrap]
              congr 1
              rw [Nat.add_mul]
              omega
            · rw [Nat.add_mul, Nat.one_mul, ← Nat.add_assoc, ← sizeWrap_add_sizeWrap, undone,
                sizeWrap_sizeSub_add bound small]

/-- Two growths of the tail in one block are one. -/
theorem grownTail_grownTail (slice : ArenaSlice) (ptr : Ptr) (m n : ℕ) :
    (slice.grownTail ptr m).grownTail ⟨ptr.block, (slice.grownTail ptr m).tailOffset⟩ n =
      slice.grownTail ptr (m + n) := by
  simp only [ArenaSlice.grownTail, Int.toNat_natCast, sizeWrap_add_sizeWrap, Nat.add_assoc]

namespace ArenaSlice.TailIn

variable {slice : ArenaSlice} {arena : Arena β} {before behind : Deck β} {p : BlockPtr} {b : Slab β}

/-- The tail block, as the code finds it. -/
theorem lookup (tailIn : slice.TailIn arena before p b behind) :
    ∃ node, arena.heap.block p = some node ∧ node.size = arena.blockSize ∧
      Segment (blockView β) arena.heap.block none (some p) node.next behind := by
  obtain ⟨first, -, chain⟩ := segment_append.mp tailIn.rep.chain
  obtain ⟨-, node, found, carried, -, onward⟩ := chain
  refine ⟨node, found, ?_, onward⟩
  have sized := tailIn.rep.sized (p, b) (by simp)
  rwa [← show node.toSlab = b from carried] at sized

/-- Growing within the tail block. -/
theorem growWithin (tailIn : slice.TailIn arena before p b behind) {n : ℕ}
    (fits : n ≤ arena.blockSize - slice.tailOffset) :
    lfGrowArenaSliceTail arena.heap slice n =
        some (true, slice.grownTail ⟨p, slice.tailOffset⟩ n) ∧
      (slice.grownTail ⟨p, slice.tailOffset⟩ n).TailIn arena before p b behind := by
  obtain ⟨node, found, width, -⟩ := tailIn.lookup
  obtain ⟨rep, used, tail, inside, counted, small⟩ := tailIn
  constructor
  · have enough : n ≤ sizeSub node.size slice.tailOffset := by
      rw [width, sizeSub_of_le inside]
      exact fits
    simp [lfGrowArenaSliceTail, tail, found, enough, grownTail]
  · refine ⟨rep, used, rfl, ?_, Nat.mod_lt _ (by decide), small⟩
    simp only [grownTail, Int.toNat_natCast]
    omega

/-- Growing from the end of the tail block into the next one. -/
theorem growNext {q : BlockPtr} {c : Slab β}
    (tailIn : slice.TailIn arena before p b ((q, c) :: behind)) {n : ℕ}
    (atEnd : slice.tailOffset = arena.blockSize) (positive : 0 < n) (fits : n ≤ arena.blockSize) :
    lfGrowArenaSliceTail arena.heap slice n = some (true, slice.grownTail ⟨q, 0⟩ n) ∧
      (slice.grownTail ⟨q, 0⟩ n).TailIn arena (before ++ [(p, b)]) q c behind := by
  obtain ⟨node, found, width, onward⟩ := tailIn.lookup
  obtain ⟨rep, used, tail, inside, counted, small⟩ := tailIn
  constructor
  · obtain ⟨link, next, foundNext, -⟩ := onward
    have noneLeft : sizeSub node.size slice.tailOffset = 0 := by
      rw [width, sizeSub_of_le inside, atEnd, Nat.sub_self]
    have whole : sizeSub n 0 = n := sizeSub_of_le (Nat.zero_le n)
    have known : 0 < arena.heap.serial := Nat.lt_of_le_of_lt (Nat.zero_le p) (rep.known p (by simp))
    obtain ⟨fuel, serial⟩ := Nat.exists_eq_succ_of_ne_zero (Nat.ne_of_gt known)
    have more : ¬ n = 0 := Nat.ne_of_gt positive
    simp [lfGrowArenaSliceTail, tail, found, noneLeft, more, serial, growOver, link, foundNext,
      whole, grownTail]
  · refine ⟨by simpa using rep, (List.forall_mem_cons.mp used).2, rfl, ?_,
      Nat.mod_lt _ (by decide), small⟩
    simpa [grownTail] using fits

theorem tailInside (tailIn : slice.TailIn arena before p b behind) :
    slice.TailInside arena.heap := by
  obtain ⟨node, found, width, -⟩ := tailIn.lookup
  exact ⟨p, node, tailIn.tail, found, width ▸ tailIn.inside⟩

/-- Growing by nothing. -/
theorem grownTail_zero (tailIn : slice.TailIn arena before p b behind) :
    slice.grownTail ⟨p, slice.tailOffset⟩ 0 = slice := by
  have counted := sizeWrap_of_lt tailIn.counted
  simp [grownTail, counted, ← tailIn.tail]

/-- Growing by a size that fits: in the tail block, or in the next one from its start. -/
theorem grow (tailIn : slice.TailIn arena before p b behind) {m n : ℕ}
    (enough : m + n ≤ slice.bytesLeft arena behind)
    (fits : m + n ≤ arena.blockSize - slice.tailOffset ∨
      slice.tailOffset = arena.blockSize ∧ m + n ≤ arena.blockSize) :
    ∃ one two, lfGrowArenaSliceTail arena.heap slice m = some (true, one) ∧
      lfGrowArenaSliceTail arena.heap one n = some (true, two) ∧
      lfGrowArenaSliceTail arena.heap slice (m + n) = some (true, two) ∧
      two.size = sizeWrap (slice.size + (m + n)) ∧ one.TailInside arena.heap ∧
      two.TailInside arena.heap := by
  by_cases within : m + n ≤ arena.blockSize - slice.tailOffset
  · obtain ⟨first, tailIn₁⟩ := tailIn.growWithin (show m ≤ _ by omega)
    obtain ⟨second, tailIn₂⟩ := tailIn₁.growWithin (n := n)
      (by simp only [grownTail, Int.toNat_natCast]; omega)
    obtain ⟨whole, -⟩ := tailIn.growWithin within
    rw [grownTail_grownTail] at second tailIn₂
    exact ⟨_, _, first, second, whole, rfl, tailIn₁.tailInside, tailIn₂.tailInside⟩
  · obtain ⟨atEnd, bound⟩ := fits.resolve_left within
    cases behind with
    | nil =>
        simp only [bytesLeft, List.length_nil] at enough
        omega
    | cons entry behind =>
        obtain ⟨q, c⟩ := entry
        obtain ⟨whole, tailIn₂⟩ := tailIn.growNext atEnd (show 0 < m + n by omega) bound
        by_cases none : m = 0
        · subst none
          obtain ⟨first, -⟩ := tailIn.growWithin (Nat.zero_le _)
          rw [tailIn.grownTail_zero] at first
          rw [Nat.zero_add] at whole tailIn₂ ⊢
          exact ⟨_, _, first, whole, whole, rfl, tailIn.tailInside, tailIn₂.tailInside⟩
        · obtain ⟨first, tailIn₁⟩ :=
            tailIn.growNext atEnd (Nat.pos_of_ne_zero none) (show m ≤ _ by omega)
          obtain ⟨second, -⟩ := tailIn₁.growWithin (n := n)
            (by simp only [grownTail, Int.toNat_zero]; omega)
          rw [grownTail_grownTail slice ⟨q, 0⟩] at second
          exact ⟨_, _, first, second, whole, rfl, tailIn₁.tailInside, tailIn₂.tailInside⟩

/-- Growing by one at a time leads to where growing at once does. -/
theorem growByOnes (tailIn : slice.TailIn arena before p b behind) {n : ℕ}
    (enough : n ≤ slice.bytesLeft arena behind)
    (fits : n ≤ arena.blockSize - slice.tailOffset ∨
      slice.tailOffset = arena.blockSize ∧ n ≤ arena.blockSize) :
    ∃ slice', LowFlow.growByOnes arena.heap n slice = some slice' ∧
      lfGrowArenaSliceTail arena.heap slice n = some (true, slice') := by
  induction n with
  | zero =>
      obtain ⟨whole, -⟩ := tailIn.growWithin (Nat.zero_le _)
      rw [tailIn.grownTail_zero] at whole
      exact ⟨slice, rfl, whole⟩
  | succ n ih =>
      obtain ⟨one, ones, first⟩ := ih (by omega) (by omega)
      obtain ⟨one', two, first', second, whole, -⟩ := tailIn.grow enough fits
      obtain rfl : one = one' := by simpa [first] using first'
      exact ⟨two, by simp [LowFlow.growByOnes, ones, second], whole⟩

/-- Growing in steps only works for sizes that fit: the size counts each block that the loop
passes, and with none passed the tail border is at the whole size. -/
theorem fits_of_steps (tailIn : slice.TailIn arena before p b behind) {m n : ℕ}
    (small : m + n < sizeModulus) (steps : slice.GrowsInSteps arena.heap m n) :
    m + n ≤ arena.blockSize - slice.tailOffset ∨
      slice.tailOffset = arena.blockSize ∧ m + n ≤ arena.blockSize := by
  obtain ⟨one, two, -, -, whole, -, counted, -, q, next, tail, foundNext, inside⟩ := steps
  by_cases within : m + n ≤ arena.blockSize - slice.tailOffset
  · exact .inl within
  obtain ⟨node, found, width, onward⟩ := tailIn.lookup
  have sized : ∀ entry ∈ behind, entry.2.size = arena.blockSize :=
    fun entry member => tailIn.rep.sized entry (by simp [member])
  have notWithin : ¬ m + n ≤ arena.blockSize - slice.tailOffset := within
  have bound := tailIn.inside
  have loop : growOver arena.heap (m + n) arena.heap.serial node.next
      (m + n - (arena.blockSize - slice.tailOffset)) slice = some (true, two) := by
    rw [← whole]
    simp only [lfGrowArenaSliceTail, tailIn.tail, found, width, Option.bind_eq_bind,
      Option.bind_some]
    rw [sizeSub_of_le bound, if_neg notWithin, sizeSub_of_le (by omega)]
  obtain ⟨passed, ⟨entry, member, tail'⟩, atMost, below, grown, undone⟩ :=
    growOver_spec onward sized (by omega) tailIn.small loop
  have nextWidth : next.size = arena.blockSize := by
    obtain rfl : entry.1 = q := Option.some.inj (tail'.symm.trans tail)
    obtain ⟨next', foundNext', carried⟩ := tailIn.rep.lookup (p := entry.1) (b := entry.2)
      (by simp [member])
    obtain rfl : next' = next := Option.some.inj (foundNext'.symm.trans foundNext)
    have width := sized entry member
    rwa [← carried] at width
  -- the size is right only when nothing was left in the tail block
  have same : sizeWrap (slice.size + passed * arena.blockSize + (m + n)) =
      sizeWrap (slice.size + (m + n)) := grown.symm.trans counted
  have modulus : sizeModulus = 18446744073709551616 := rfl
  simp only [sizeWrap, modulus] at same undone below small
  omega

end ArenaSlice.TailIn

/-- **A slice grows in steps exactly when it grows inside its tail block, or from
the end of it inside the next block.** -/
theorem grows_in_steps_iff {slice : ArenaSlice} {arena : Arena β} {before behind : Deck β}
    {p : BlockPtr} {b : Slab β} (tailIn : slice.TailIn arena before p b behind) (m n : ℕ)
    (enough : m + n ≤ slice.bytesLeft arena behind) (small : m + n < sizeModulus) :
    slice.GrowsInSteps arena.heap m n ↔ m + n ≤ arena.blockSize - slice.tailOffset ∨
      slice.tailOffset = arena.blockSize ∧ m + n ≤ arena.blockSize := by
  constructor
  · exact tailIn.fits_of_steps small
  · intro fits
    obtain ⟨one, two, first, second, whole, counted, inside, inside'⟩ := tailIn.grow enough fits
    obtain ⟨two', ones, whole'⟩ := tailIn.growByOnes enough fits
    obtain rfl : two = two' := by simpa [whole] using whole'
    exact ⟨one, two, first, second, whole, ones, counted, inside, inside'⟩

/-- An arena of three full blocks of four bytes, and a slice of the first two bytes. -/
theorem three_full_blocks : ∃ (arena : Arena UInt8) (b c d : Slab UInt8),
    arena.blockSize = 4 ∧
      ArenaSlice.TailIn ⟨some 0, some 0, 0, 2, 2⟩ arena [] 0 b [(2, c), (4, d)] := by
  let declared : LFString UInt8 := LFString.declared (Allocator.bump 0) 4
  let ranges (str : LFString UInt8) : Option (List (BlockPtr × ℕ × ℕ)) := do
    let deck ← blocksFrom str.arena.heap str.arena.blockCount str.arena.headBlock
    some (deck.map fun entry => (entry.1, entry.2.leftOffset, entry.2.rightOffset))
  have ends : ((lfInitString declared).bind fun start =>
      (run stringCall [.alloc 4 [], .alloc 4 [], .alloc 4 []] start).bind fun (_, str) =>
        (ranges str).map fun deck => (str.arena.blockSize, deck)) =
      some (4, [(0, 0, 4), (2, 0, 4), (4, 0, 4)]) := by
    decide +kernel
  obtain ⟨start, init, ends⟩ := Option.bind_eq_some_iff.mp ends
  obtain ⟨⟨answers, str⟩, runs, ends⟩ := Option.bind_eq_some_iff.mp ends
  have owned : str.Owned := ⟨declared, start, _, answers, rfl, by decide, init, runs⟩
  obtain ⟨-, deck, filled⟩ := owned.filled
  simp only [ranges, filled.rep.blocksFrom_eq, Option.bind_eq_bind, Option.bind_some,
    Option.map_some, Option.some.injEq, Prod.mk.injEq] at ends
  obtain ⟨blocks, shape⟩ := ends
  obtain ⟨⟨p, b⟩, rest, rfl, first, shape⟩ := List.map_eq_cons_iff.mp shape
  obtain ⟨⟨q, c⟩, rest, rfl, second, shape⟩ := List.map_eq_cons_iff.mp shape
  obtain ⟨⟨r, d⟩, rest, rfl, third, shape⟩ := List.map_eq_cons_iff.mp shape
  cases List.map_eq_nil_iff.mp shape
  simp only [Prod.mk.injEq] at first second third
  obtain ⟨rfl, left, right⟩ := first
  obtain ⟨rfl, left', right'⟩ := second
  obtain ⟨rfl, left'', right''⟩ := third
  refine ⟨str.arena, b, c, d, blocks, ?_⟩
  exact {
    rep := filled.rep
    used := by simp [left, left', left'', right, right', right'', blocks]
    tail := rfl
    inside := by simp [blocks]
    counted := by decide
    small := filled.small }

/-- Growing a slice that ends at the third byte of a block of four. -/
theorem grows_in_steps_iff_two : ∃ (arena : Arena UInt8) (slice : ArenaSlice),
    slice.GrowsInSteps arena.heap 1 1 ↔ 1 + 1 ≤ arena.blockSize - slice.tailOffset ∨
      slice.tailOffset = arena.blockSize ∧ 1 + 1 ≤ arena.blockSize := by
  obtain ⟨arena, b, c, d, blocks, tailIn⟩ := three_full_blocks
  exact ⟨arena, _, grows_in_steps_iff tailIn 1 1 (by simp [ArenaSlice.bytesLeft, blocks])
    (by decide)⟩

/-- Growing by five from the middle of the first of three blocks of four bytes,
though there are ten bytes left. -/
theorem growing_across_a_border : ∃ (arena : Arena UInt8) (slice : ArenaSlice) (before : Deck UInt8)
    (p : BlockPtr) (b : Slab UInt8) (behind : Deck UInt8),
    slice.TailIn arena before p b behind ∧ slice.bytesLeft arena behind = 10 ∧
      ¬ slice.GrowsInSteps arena.heap 2 3 := by
  obtain ⟨arena, b, c, d, blocks, tailIn⟩ := three_full_blocks
  refine ⟨arena, _, _, _, _, _, tailIn, by simp [ArenaSlice.bytesLeft, blocks], ?_⟩
  intro steps
  have fits := tailIn.fits_of_steps (by decide) steps
  rw [blocks] at fits
  revert fits
  decide

end LowFlow
