import LowFlow.Library.Loop
import LowFlow.Library.Run
import LowFlow.Memory.Slices

/-!
# Strings

`core/memory/string.c`. A string has an arena of its own, or it is a slice of
the arena of another one. The iterator goes from block to block; in each of them
it stops at the offset where the last one ends. So it visits the live characters
exactly when every block ends at that offset and none is empty
(`iteration_visits_live_iff`).
-/

set_option autoImplicit false

namespace LowFlow

open Library

variable {β : Type}

/-- `LF_String`. -/
structure LFString (β : Type) where
  arena : Arena β
  slice : Option ArenaSlice
  charQttInBlock : ℕ

/-- A string as it is declared, with the number of characters of a block set. -/
def LFString.declared (malloc : Allocator β) (charQttInBlock : ℕ) : LFString β :=
  { arena := Arena.declared malloc 0 .left, slice := none, charQttInBlock }

def lfInitString (str : LFString β) : Option (LFString β) := do
  match str.slice with
  | some slice =>
      let slice ← lfInitArenaSlice str.arena.heap slice (some str.arena)
      some { str with slice := some slice }
  | none =>
      let arena ← lfInitArena
        { str.arena with blockSize := str.charQttInBlock, blockOffset := .left }
      some { str with arena }

def lfInitStringFromSlice (str : LFString β) (slice : ArenaSlice) : Option (LFString β) := do
  let slice ← lfInitArenaSlice str.arena.heap slice none
  let head ← str.arena.heap.block (← slice.headBlock)
  some { str with slice := some slice, charQttInBlock := head.size }

def lfAllocString (str : LFString β) (size : ℕ) : Option (Ptr × LFString β) := do
  match str.slice with
  | some slice =>
      let (strPtr, slice, arena) ← lfArenaSliceAllocAtTail slice str.arena size
      some (← strPtr, { str with arena, slice := some slice })
  | none =>
      let (strPtr, arena) ← lfArenaAllocAtTail str.arena size
      some (strPtr, { str with arena })

def lfResetString (str : LFString β) : Option (LFString β) := do
  if str.slice.isSome then none
  let arena ← lfResetArena str.arena
  some { str with arena }

def lfGetStringSize (str : LFString β) : ℕ :=
  match str.slice with
  | some slice => slice.size
  | none => str.arena.size

/-- `LF_StringIteration`. -/
structure StringIteration (β : Type) where
  str : LFString β
  curBlock : Option BlockPtr
  blockOffset : ℕ

/-- The block and the offset at which an iteration starts. -/
def LFString.headBorder (str : LFString β) : Option (Option BlockPtr × ℕ) :=
  match str.slice with
  | some slice => some (slice.headBlock, slice.headOffset)
  | none => do
      let head ← str.arena.heap.block (← str.arena.headBlock)
      some (str.arena.headBlock, head.leftOffset)

/-- The `last_block` and the `right_offset` of an iteration. -/
def LFString.tailBorder (str : LFString β) : Option (Option BlockPtr × ℕ) :=
  match str.slice with
  | some slice => some (slice.tailBlock, slice.tailOffset)
  | none => do
      let tail ← str.arena.heap.block (← str.arena.tailBlock)
      some (str.arena.tailBlock, tail.rightOffset)

/-- The pointer `cur_block->data + block_offset`. -/
def StringIteration.ptr (iter : StringIteration β) : Option Ptr := do
  let curBlock ← iter.curBlock
  let _ ← iter.str.arena.heap.block curBlock
  some ⟨curBlock, iter.blockOffset⟩

def lfInitStringIteration (str : LFString β) : Option (Ptr × StringIteration β) := do
  let (curBlock, blockOffset) ← str.headBorder
  let iter : StringIteration β := ⟨str, curBlock, blockOffset⟩
  some (← iter.ptr, iter)

/-- The answer is `none` where the code returns `NULL`. -/
def lfIterateString (iter : StringIteration β) :
    Option (Option Ptr × StringIteration β) := do
  match iter.curBlock with
  | none => some (none, iter)
  | some curBlock =>
      let newOffset := iter.blockOffset + 1
      let (lastBlock, rightOffset) ← iter.str.tailBorder
      let reachedBlockEnd := rightOffset ≤ newOffset
      if some curBlock = lastBlock ∧ reachedBlockEnd then
        some (none, { iter with curBlock := none })
      else
        let iter ←
          if reachedBlockEnd then do
            let block ← iter.str.arena.heap.block curBlock
            let next ← iter.str.arena.heap.block (← block.next)
            some { iter with curBlock := block.next, blockOffset := next.leftOffset }
          else some { iter with blockOffset := newOffset }
        some (some (← iter.ptr), iter)

/-! ## Visiting a string -/

/-- One round of a caller that iterates until `NULL`: the current character is
visited, and the next one is asked for. -/
def visitChar : Ptr × StringIteration β × List Ptr →
    Option ((Ptr × StringIteration β × List Ptr) ⊕ List Ptr)
  | (current, iter, visited) => do
      let (next, iter) ← lfIterateString iter
      match next with
      | some ptr => some (.inl (ptr, iter, visited ++ [current]))
      | none => some (.inr (visited ++ [current]))

/-- The characters that an iteration of the string visits. -/
def LFString.Visits (str : LFString β) (visited : List Ptr) : Prop :=
  ∃ first iter, lfInitStringIteration str = some (first, iter) ∧
    Returns visitChar (first, iter, []) visited

/-- The pointer to a position. -/
def Position.ptr (position : Position) : Ptr := ⟨position.1, position.2⟩

/-- The blocks of a string, cut at its borders. -/
def LFString.blocks (str : LFString β) (deck : Deck β) : Deck β :=
  match str.slice with
  | some slice => slice.cut deck
  | none => deck

/-- The live characters of a string. -/
def LFString.live (str : LFString β) (deck : Deck β) : List Position :=
  (str.blocks deck).positions

/-- The offset at which the last block ends. -/
def lastRight (blocks : Deck β) : ℕ :=
  (blocks.getLast?.map fun entry => entry.2.rightOffset).getD 0

/-- What the iterator visits in blocks when it stops at `right` in each of them:
every block from its left offset on, at least one position. -/
def swept (right : ℕ) (blocks : Deck β) : List Position :=
  blocks.flatMap fun entry =>
    positionsFrom entry.1 entry.2.leftOffset (max 1 (right - entry.2.leftOffset))

@[simp] theorem swept_nil (right : ℕ) : swept right ([] : Deck β) = [] := rfl

@[simp] theorem swept_cons (right : ℕ) (entry : BlockPtr × Slab β) (rest : Deck β) :
    swept right (entry :: rest) =
      positionsFrom entry.1 entry.2.leftOffset (max 1 (right - entry.2.leftOffset)) ++
        swept right rest := rfl

@[simp] theorem lastRight_concat (front : Deck β) (entry : BlockPtr × Slab β) :
    lastRight (front ++ [entry]) = entry.2.rightOffset := by
  simp [lastRight]

theorem positionsFrom_succ (p : BlockPtr) (offset n : ℕ) :
    positionsFrom p offset (n + 1) = (p, offset) :: positionsFrom p (offset + 1) n := by
  simp [positionsFrom, List.range'_succ]

@[simp] theorem length_positionsFrom (p : BlockPtr) (offset n : ℕ) :
    (positionsFrom p offset n).length = n := by
  simp [positionsFrom]

/-- There is a live position for each live byte. -/
theorem length_positions (deck : Deck β) : deck.positions.length = deck.liveBytes := by
  induction deck with
  | nil => rfl
  | cons entry rest ih => simp [ih]

/-! ## One call of the iterator -/

section Iterating

variable {str : LFString β} {p : BlockPtr} {last : Option BlockPtr} {right offset : ℕ}
  {node : MemBlock β}

/-- Before the end offset the iterator stays in the block. -/
theorem lfIterateString_within (border : str.tailBorder = some (last, right))
    (found : str.arena.heap.block p = some node) (more : offset + 1 < right) :
    lfIterateString ⟨str, some p, offset⟩ =
      some (some ⟨p, (offset + 1 : ℕ)⟩, ⟨str, some p, offset + 1⟩) := by
  have notEnd : ¬ right ≤ offset + 1 := by omega
  simp [lfIterateString, border, notEnd, StringIteration.ptr, found]

/-- At the end offset of the last block the iterator ends. -/
theorem lfIterateString_last (border : str.tailBorder = some (some p, right))
    (atEnd : right ≤ offset + 1) :
    lfIterateString ⟨str, some p, offset⟩ = some (none, ⟨str, none, offset⟩) := by
  simp [lfIterateString, border, atEnd]

/-- At the end offset of another block the iterator goes to the next one. -/
theorem lfIterateString_next (border : str.tailBorder = some (last, right))
    (other : some p ≠ last) (found : str.arena.heap.block p = some node) {q : BlockPtr}
    {next : MemBlock β} (link : node.next = some q)
    (foundNext : str.arena.heap.block q = some next) (atEnd : right ≤ offset + 1) :
    lfIterateString ⟨str, some p, offset⟩ =
      some (some ⟨q, next.leftOffset⟩, ⟨str, some q, next.leftOffset⟩) := by
  simp [lfIterateString, border, other, atEnd, StringIteration.ptr, found, link, foundNext]

/-- The iterator goes through these positions, one after the other, and ends. -/
inductive LFString.Path (str : LFString β) : List Position → Prop where
  | last {p : BlockPtr} {offset : ℕ}
      (ends : lfIterateString ⟨str, some p, offset⟩ = some (none, ⟨str, none, offset⟩)) :
      Path str [(p, offset)]
  | step {p : BlockPtr} {offset : ℕ} {next : Position} {rest : List Position}
      (goes : lfIterateString ⟨str, some p, offset⟩ =
        some (some next.ptr, ⟨str, some next.1, next.2⟩))
      (onward : Path str (next :: rest)) : Path str ((p, offset) :: next :: rest)

/-- At least one position from an offset on. -/
theorem positionsFrom_max (p : BlockPtr) (offset n : ℕ) :
    positionsFrom p offset (max 1 n) = (p, offset) :: positionsFrom p (offset + 1) (n - 1) := by
  rw [← positionsFrom_succ]
  congr 1
  omega

/-- Inside a block the path goes from one position to the next one, up to the end offset. -/
theorem path_block (border : str.tailBorder = some (last, right))
    (found : str.arena.heap.block p = some node) {rest : List Position}
    (leave : ∀ offset', right ≤ offset' + 1 → str.Path ((p, offset') :: rest)) :
    str.Path (positionsFrom p offset (max 1 (right - offset)) ++ rest) := by
  induction left : right - offset generalizing offset with
  | zero =>
      rw [positionsFrom_max]
      exact leave offset (by omega)
  | succ n ih =>
      rw [positionsFrom_max]
      by_cases atEnd : right ≤ offset + 1
      · obtain rfl : n = 0 := by omega
        exact leave offset atEnd
      · have onward := @ih (offset + 1) (by omega)
        rw [show n + 1 - 1 = max 1 n by omega, List.cons_append]
        rw [positionsFrom_max] at onward ⊢
        exact .step (lfIterateString_within border found (Nat.not_le.mp atEnd)) onward

/-- The path through some blocks of a chain, the last of which is the last block
of the string. -/
theorem path_blocks {b : Slab β} {rest others : Deck β} {after before : Option BlockPtr}
    (chain : Segment (blockView β) str.arena.heap.block after before (some p)
      ((p, b) :: (rest ++ others)))
    (border : str.tailBorder = some ((ptrs ((p, b) :: rest)).getLast?, right))
    (distinct : (ptrs ((p, b) :: rest)).Nodup) :
    str.Path (positionsFrom p offset (max 1 (right - offset)) ++ swept right rest) := by
  induction rest generalizing p b offset before with
  | nil =>
      obtain ⟨-, node, found, -, -, -⟩ := chain
      apply path_block border found
      intro offset' atEnd
      exact .last (lfIterateString_last (by simpa using border) atEnd)
  | cons entry rest ih =>
      obtain ⟨q, c⟩ := entry
      obtain ⟨-, node, found, -, -, onward⟩ := chain
      have link : node.next = some q := onward.1
      obtain ⟨-, next, foundNext, carried, -⟩ := id onward
      cases (show next.toSlab = c from carried)
      obtain ⟨missing, distinct⟩ := List.nodup_cons.mp distinct
      have border' : str.tailBorder = some ((ptrs ((q, next.toSlab) :: rest)).getLast?, right) := by
        rw [border, ptrs, ptrs, List.map_cons, List.map_cons, List.getLast?_cons_cons]
      have other : some p ≠ (ptrs ((q, next.toSlab) :: rest)).getLast? := by
        intro same
        exact missing (List.mem_of_getLast? same.symm)
      have chain : Segment (blockView β) str.arena.heap.block after (some p) (some q)
          ((q, next.toSlab) :: (rest ++ others)) := by
        rw [← link]
        exact onward
      have goes := @ih q next.leftOffset next.toSlab (some p) chain border' distinct
      apply path_block border found
      intro offset' atEnd
      rw [swept_cons]
      rw [positionsFrom_max] at goes ⊢
      exact .step (lfIterateString_next border' other found link foundNext atEnd) goes

/-- The caller that iterates until `NULL` visits the path. -/
theorem LFString.Path.visits {x : Position} {path : List Position} (goes : str.Path (x :: path))
    (visited : List Ptr) :
    Returns visitChar (x.ptr, ⟨str, some x.1, x.2⟩, visited)
      (visited ++ (x :: path).map Position.ptr) := by
  induction path generalizing x visited with
  | nil =>
      cases goes with
      | last ends => exact Returns.of_done (by simp [visitChar, ends])
  | cons y path ih =>
      cases goes with
      | @step p offset _ _ goes onward =>
          have rest := ih onward (visited ++ [Position.ptr (p, offset)])
          rw [List.append_assoc] at rest
          exact Returns.of_next (by simp [visitChar, goes]) rest

end Iterating

/-! ## What an iteration visits -/

/-- The string reads its characters from these blocks. -/
structure LFString.Over (str : LFString β) (deck : Deck β) : Prop where
  rep : Represents str.arena deck
  ordered : ∀ entry ∈ deck, entry.2.leftOffset ≤ entry.2.rightOffset
  lies : ∀ slice, str.slice = some slice → slice.LiesIn deck

theorem distinct_middle {before blocks after : Deck β}
    (distinct : (ptrs (before ++ blocks ++ after)).Nodup) : (ptrs blocks).Nodup := by
  rw [List.append_assoc, ptrs, List.map_append, List.map_append] at distinct
  exact (List.nodup_append'.mp (List.nodup_append'.mp distinct).2.1).1

theorem ptrs_trim (slice : ArenaSlice) (blocks : Deck β) :
    ptrs (blocks.map slice.trim) = ptrs blocks := by
  simp [ptrs, ArenaSlice.trim]

/-- Blocks without the head block of a slice are swept from their own left offsets. -/
theorem swept_trim {slice : ArenaSlice} {blocks : Deck β} (right : ℕ)
    (others : ∀ entry ∈ blocks, some entry.1 ≠ slice.headBlock) :
    swept right (blocks.map slice.trim) = swept right blocks := by
  induction blocks with
  | nil => rfl
  | cons entry blocks ih =>
      obtain ⟨here, others⟩ := List.forall_mem_cons.mp others
      rw [List.map_cons, swept_cons, swept_cons, ih others]
      simp [ArenaSlice.trim, here]

/-- The last of some blocks, and the offset at which it ends. -/
theorem exists_last {blocks : Deck β} (nonempty : blocks ≠ []) :
    ∃ q c, (q, c) ∈ blocks ∧ (ptrs blocks).getLast? = some q ∧
      lastRight blocks = c.rightOffset := by
  obtain ⟨front, ⟨q, c⟩, rfl⟩ := (List.eq_nil_or_concat' blocks).resolve_left nonempty
  exact ⟨q, c, by simp, by simp, by simp⟩

section Visiting

/-- An iteration of the string starts, and goes through these positions. -/
def LFString.Starts (str : LFString β) (path : List Position) : Prop :=
  ∃ x rest, path = x :: rest ∧
    lfInitStringIteration str = some (x.ptr, ⟨str, some x.1, x.2⟩) ∧ str.Path path

variable {str : LFString β} {deck : Deck β}

theorem path_owned (rep : Represents str.arena deck) (backing : str.slice = none) :
    str.Starts (swept (lastRight deck) deck) := by
  obtain ⟨⟨p, b⟩, rest, rfl⟩ := List.exists_cons_of_ne_nil rep.nonempty
  obtain ⟨node, found, rfl⟩ := rep.lookup (List.mem_cons_self ..)
  obtain ⟨q, c, member, tail, right⟩ := exists_last rep.nonempty
  obtain ⟨last, foundLast, rfl⟩ := rep.lookup member
  have border : str.tailBorder = some ((ptrs ((p, node.toSlab) :: rest)).getLast?,
      lastRight ((p, node.toSlab) :: rest)) := by
    rw [right, tail]
    simp [LFString.tailBorder, backing, rep.tail.trans tail, foundLast]
  have chain := rep.chain
  rw [rep.head_eq, ← List.append_nil rest] at chain
  have goes := @path_blocks _ _ _ _ node.leftOffset _ _ _ _ _ chain border rep.distinct
  rw [swept_cons]
  rw [positionsFrom_max] at goes ⊢
  refine ⟨_, _, rfl, ?_, goes⟩
  simp [lfInitStringIteration, LFString.headBorder, backing, rep.head_eq, found,
    StringIteration.ptr, Position.ptr]

theorem path_slice (rep : Represents str.arena deck) {slice : ArenaSlice}
    (backing : str.slice = some slice) (lies : slice.LiesIn deck) :
    str.Starts (swept (lastRight (slice.cut deck)) (slice.cut deck)) := by
  obtain ⟨before, blocks, after, rfl, spans⟩ := lies
  rw [spans.cut_eq rep.distinct]
  obtain ⟨⟨p, b⟩, rest, rfl⟩ := List.exists_cons_of_ne_nil spans.nonempty
  have head : slice.headBlock = some p := by simp [spans.head]
  obtain ⟨node, found, -⟩ := rep.lookup (p := p) (b := b) (by simp)
  have distinct : (ptrs ((p, b) :: rest)).Nodup := distinct_middle rep.distinct
  have right : lastRight (((p, b) :: rest).map slice.trim) = slice.tailOffset := by
    have nonempty : ((p, b) :: rest).map slice.trim ≠ [] := by simp
    obtain ⟨q, c, member, tail, right⟩ := exists_last nonempty
    rw [ptrs_trim, ← spans.tail] at tail
    obtain ⟨entry, -, same⟩ := List.mem_map.mp member
    cases same
    rw [right]
    exact if_pos tail.symm
  have border : str.tailBorder = some ((ptrs ((p, b) :: rest)).getLast?, slice.tailOffset) := by
    simp [LFString.tailBorder, backing, spans.tail]
  have chain := rep.chain
  rw [List.append_assoc] at chain
  obtain ⟨first, -, chain⟩ := segment_append.mp chain
  have start : first = some p := chain.1
  rw [start] at chain
  have others : ∀ entry ∈ rest, some entry.1 ≠ slice.headBlock := by
    intro entry member same
    rw [head, Option.some.injEq] at same
    exact (List.nodup_cons.mp distinct).1 (List.mem_map.mpr ⟨entry, member, same⟩)
  have sweep : swept slice.tailOffset (((p, b) :: rest).map slice.trim) =
      positionsFrom p slice.headOffset (max 1 (slice.tailOffset - slice.headOffset)) ++
        swept slice.tailOffset rest := by
    rw [List.map_cons, swept_cons, swept_trim _ others]
    simp [ArenaSlice.trim, head]
  have goes := @path_blocks _ _ _ _ slice.headOffset _ _ _ _ _ chain border distinct
  rw [right, sweep]
  rw [positionsFrom_max] at goes ⊢
  refine ⟨_, _, rfl, ?_, goes⟩
  simp [lfInitStringIteration, LFString.headBorder, backing, head, found, StringIteration.ptr,
    Position.ptr]

/-- **Where the iterator goes.** Each block from its left offset on, up to the
end offset of the last one, and at least one position. -/
theorem LFString.Over.starts (source : str.Over deck) :
    str.Starts (swept (lastRight (str.blocks deck)) (str.blocks deck)) := by
  cases backing : str.slice with
  | none =>
      simp only [blocks, backing]
      exact path_owned source.rep backing
  | some slice =>
      simp only [blocks, backing]
      exact path_slice source.rep backing (source.lies slice backing)

theorem LFString.Starts.visits {path : List Position} (starts : str.Starts path) :
    str.Visits (path.map Position.ptr) := by
  obtain ⟨x, rest, rfl, init, goes⟩ := starts
  exact ⟨_, _, init, goes.visits []⟩

end Visiting

/-! ## When an iteration visits the live characters -/

/-- A list of positions says how many of them come from its first block. -/
theorem positionsFrom_append_inj {p : BlockPtr} {offset m n : ℕ} {one two : List Position}
    (notOne : ∀ x ∈ one, x.1 ≠ p) (notTwo : ∀ x ∈ two, x.1 ≠ p) :
    positionsFrom p offset m ++ one = positionsFrom p offset n ++ two ↔ m = n ∧ one = two := by
  constructor
  · intro same
    have counts := congrArg (List.countP fun x => x.1 = p) same
    have here : ∀ k, (positionsFrom p offset k).countP (fun x => x.1 = p) = k := by
      intro k
      rw [List.countP_eq_length.mpr, length_positionsFrom]
      intro x member
      obtain ⟨i, -, rfl⟩ := List.mem_map.mp member
      simp
    rw [List.countP_append, List.countP_append, here, here,
      List.countP_eq_zero.mpr (by simpa using notOne),
      List.countP_eq_zero.mpr (by simpa using notTwo)] at counts
    obtain rfl : m = n := counts
    exact ⟨rfl, List.append_cancel_left same⟩
  · rintro ⟨rfl, rfl⟩
    rfl

theorem swept_eq_positions_iff {blocks : Deck β} (right : ℕ) (distinct : (ptrs blocks).Nodup)
    (ordered : ∀ entry ∈ blocks, entry.2.leftOffset ≤ entry.2.rightOffset) :
    swept right blocks = blocks.positions ↔
      ∀ entry ∈ blocks, entry.2.rightOffset = max right (entry.2.leftOffset + 1) := by
  induction blocks with
  | nil => simp
  | cons entry blocks ih =>
      obtain ⟨p, b⟩ := entry
      obtain ⟨missing, distinct⟩ := List.nodup_cons.mp distinct
      obtain ⟨here, ordered⟩ := List.forall_mem_cons.mp ordered
      have elsewhere : ∀ (counts : BlockPtr × Slab β → ℕ), ∀ x ∈ blocks.flatMap fun entry =>
          positionsFrom entry.1 entry.2.leftOffset (counts entry), x.1 ≠ p := by
        intro counts x member same
        obtain ⟨other, inBlocks, inside⟩ := List.mem_flatMap.mp member
        obtain ⟨i, -, rfl⟩ := List.mem_map.mp inside
        exact missing (List.mem_map.mpr ⟨other, inBlocks, same⟩)
      refine (positionsFrom_append_inj (elsewhere fun entry => max 1 (right - entry.2.leftOffset))
        (elsewhere fun entry => entry.2.rightOffset - entry.2.leftOffset)).trans ?_
      rw [List.forall_mem_cons]
      apply and_congr
      · dsimp only at here ⊢
        omega
      · exact ih distinct ordered

/-! ## The recorded size -/

/-- The deck of an owned string: every block is used from its start on, and the
arena counts the used bytes. -/
structure Filled (arena : Arena β) (deck : Deck β) : Prop where
  rep : Represents arena deck
  left : ∀ entry ∈ deck, entry.2.leftOffset = 0
  right : ∀ entry ∈ deck, entry.2.rightOffset ≤ arena.blockSize
  small : arena.blockSize < sizeModulus
  offset : arena.blockOffset = .left
  size : arena.size = sizeWrap deck.positions.length

/-- Every block is used from its start on. -/
theorem Filled.ordered {arena : Arena β} {deck : Deck β} (filled : Filled arena deck) :
    ∀ entry ∈ deck, entry.2.leftOffset ≤ entry.2.rightOffset := by
  intro entry member
  rw [filled.left entry member]
  exact Nat.zero_le _

/-- The bytes between the borders, modulo the size of `size_t`. -/
theorem usedSize_eq {blocks : Deck β}
    (ordered : ∀ entry ∈ blocks, entry.2.leftOffset ≤ entry.2.rightOffset) (size : ℕ) :
    usedSize (sizeWrap size) blocks = sizeWrap (size + blocks.positions.length) := by
  induction blocks generalizing size with
  | nil => simp [usedSize]
  | cons entry blocks ih =>
      obtain ⟨here, ordered⟩ := List.forall_mem_cons.mp ordered
      have rest := ih ordered (size + (entry.2.rightOffset - entry.2.leftOffset))
      rw [usedSize, List.foldl_cons, sizeSub_of_le here, sizeWrap_add_sizeWrap, ← usedSize, rest]
      simp [Nat.add_assoc]

theorem sizeWrap_add_eq_iff {n more : ℕ} (small : more < sizeModulus) :
    sizeWrap (n + more) = n ↔ n < sizeModulus ∧ more = 0 := by
  constructor
  · intro same
    have bound : n < sizeModulus := same ▸ Nat.mod_lt _ (by decide)
    refine ⟨bound, ?_⟩
    by_cases wraps : n + more < sizeModulus
    · rw [sizeWrap_of_lt wraps] at same
      omega
    · rw [sizeWrap, Nat.mod_eq_sub_mod (Nat.not_lt.mp wraps), Nat.mod_eq_of_lt (by omega)] at same
      omega
  · rintro ⟨bound, rfl⟩
    exact sizeWrap_of_lt bound

theorem trim_eq_self {slice : ArenaSlice} {entry : BlockPtr × Slab β}
    (notHead : some entry.1 ≠ slice.headBlock) (notTail : some entry.1 ≠ slice.tailBlock) :
    slice.trim entry = entry := by
  simp [ArenaSlice.trim, notHead, notTail]

section Counting

variable {arena : Arena β} {deck : Deck β} {slice : ArenaSlice}

theorem sliceSize_single {p : BlockPtr} {b : Slab β} (spans : slice.Spans [(p, b)])
    (small : b.rightOffset < sizeModulus)
    (computed : lfGetArenaSliceSize arena.heap slice = some slice) :
    slice.headBlock = slice.tailBlock ∧
      slice.size = (Deck.positions ([(p, b)].map slice.trim)).length ∧
      slice.size < sizeModulus := by
  have head : slice.headBlock = some p := by simp [spans.head]
  have tail : slice.tailBlock = some p := by simp [spans.tail]
  have high := spans.high (p, b) (by simp) tail.symm
  have between : slice.headOffset ≤ slice.tailOffset := by
    simpa [ArenaSlice.trim, head, tail] using spans.ordered (p, b) (by simp)
  rw [lfGetArenaSliceSize_single (head.trans tail.symm), Option.some.injEq] at computed
  have size : sizeSub slice.tailOffset slice.headOffset = slice.size :=
    congrArg ArenaSlice.size computed
  rw [sizeSub_of_le between] at size
  refine ⟨head.trans tail.symm, ?_, ?_⟩
  · simp [ArenaSlice.trim, head, tail, size]
  · dsimp only at high
    omega

theorem sliceSize_several {before middle after : Deck β} {p q : BlockPtr} {b c : Slab β}
    (filled : Filled arena (before ++ ((p, b) :: middle ++ [(q, c)]) ++ after))
    (spans : slice.Spans ((p, b) :: middle ++ [(q, c)]))
    (computed : lfGetArenaSliceSize arena.heap slice = some slice) :
    slice.headBlock ≠ slice.tailBlock ∧
      slice.size = sizeWrap
        ((Deck.positions (((p, b) :: middle ++ [(q, c)]).map slice.trim)).length +
          (b.size - b.rightOffset)) := by
  have head : slice.headBlock = some p := by simp [spans.head]
  have tail : slice.tailBlock = some q := by
    rw [spans.tail, ptrs, List.map_append]
    exact List.getLast?_concat ..
  obtain ⟨different, size⟩ := lfGetArenaSliceSize_several filled.rep head tail
  refine ⟨different, ?_⟩
  have notSame : p ≠ q := by
    intro same
    exact different (by rw [head, tail, same])
  have distinct : (ptrs ((p, b) :: middle ++ [(q, c)])).Nodup := distinct_middle filled.rep.distinct
  have middleTrim : middle.map slice.trim = middle := by
    refine (List.map_congr_left ?_).trans (List.map_id middle)
    intro entry member
    apply trim_eq_self
    · intro same
      rw [head, Option.some.injEq] at same
      rw [List.cons_append] at distinct
      exact (List.nodup_cons.mp distinct).1 (List.mem_map.mpr ⟨entry, by simp [member], same⟩)
    · intro same
      rw [tail, Option.some.injEq] at same
      rw [ptrs, List.map_append] at distinct
      exact (List.nodup_append'.mp distinct).2.2
        (List.mem_map.mpr ⟨entry, List.mem_cons_of_mem _ member, rfl⟩) (by simp [same])
  have inDeck : ∀ entry ∈ (p, b) :: middle ++ [(q, c)],
      entry ∈ before ++ ((p, b) :: middle ++ [(q, c)]) ++ after := by
    intro entry member
    simp only [List.mem_append] at member ⊢
    exact .inl (.inr member)
  have ordered : ∀ entry ∈ middle, entry.2.leftOffset ≤ entry.2.rightOffset := by
    intro entry member
    exact filled.ordered entry (inDeck entry (by simp [member]))
  have width : b.size = arena.blockSize := filled.rep.sized (p, b) (inDeck _ (by simp))
  have bound : b.rightOffset ≤ arena.blockSize := filled.right (p, b) (inDeck _ (by simp))
  have lastLeft : c.leftOffset = 0 := filled.left (q, c) (inDeck _ (by simp))
  have between : slice.headOffset ≤ b.rightOffset := by
    simpa [ArenaSlice.trim, head, tail, notSame] using spans.ordered (p, b) (by simp)
  rw [size, Option.some.injEq] at computed
  have sizes := congrArg ArenaSlice.size computed
  simp only [usedSize_eq ordered, sizeSub_of_le (between.trans (width ▸ bound))] at sizes
  rw [← sizes, List.map_append, List.map_cons, middleTrim]
  apply congrArg sizeWrap
  simp [ArenaSlice.trim, head, tail, notSame, notSame.symm, lastLeft]
  omega

/-- The size of a slice in one block is right. The size of another one is right
when its head block is full, and its live characters can be counted. -/
theorem sliceSize_eq_iff (filled : Filled arena deck) (lies : slice.LiesIn deck)
    (computed : lfGetArenaSliceSize arena.heap slice = some slice) :
    (slice.live deck).length = slice.size ↔ (slice.live deck).length < sizeModulus ∧
      (slice.headBlock ≠ slice.tailBlock → ∀ entry ∈ deck, some entry.1 = slice.headBlock →
        entry.2.rightOffset = entry.2.size) := by
  obtain ⟨before, blocks, after, rfl, spans⟩ := lies
  rw [spans.live_eq filled.rep.distinct]
  obtain ⟨⟨p, b⟩, rest, rfl⟩ := List.exists_cons_of_ne_nil spans.nonempty
  have inDeck : (p, b) ∈ before ++ (p, b) :: rest ++ after := by simp
  have width : b.size = arena.blockSize := filled.rep.sized _ inDeck
  have bound : b.rightOffset ≤ arena.blockSize := filled.right _ inDeck
  have small := filled.small
  rcases List.eq_nil_or_concat' rest with rfl | ⟨middle, ⟨q, c⟩, rfl⟩
  · obtain ⟨same, size, counted⟩ := sliceSize_single spans (by omega) computed
    rw [← size]
    exact ⟨fun _ => ⟨counted, fun different => absurd same different⟩, fun _ => rfl⟩
  · obtain ⟨different, size⟩ := sliceSize_several filled spans computed
    have head : slice.headBlock = some p := by simp [spans.head]
    rw [List.cons_append] at size
    rw [eq_comm, size, sizeWrap_add_eq_iff (by omega)]
    apply and_congr_right
    intro _
    constructor
    · intro full _ entry member same
      rw [head, Option.some.injEq] at same
      obtain ⟨r, d⟩ := entry
      cases same
      rw [filled.rep.same_block member inDeck]
      dsimp only
      omega
    · intro full
      have here := full different (p, b) inDeck head.symm
      dsimp only at here
      omega

end Counting

/-! ## Strings in use -/

/-- The calls on an owned string. The caller writes the characters to the
memory that an allocation returned. -/
inductive StringCall (β : Type) where
  | alloc (size : ℕ) (chars : List β)
  | reset

def stringCall : StringCall β → LFString β → Option (Option Ptr × LFString β)
  | .alloc size chars, str =>
      if size < chars.length then none
      else do
        let (ptr, str) ← lfAllocString str size
        let heap ← str.arena.heap.store ptr chars
        some (some ptr, { str with arena := { str.arena with heap } })
  | .reset, str => do some (none, ← lfResetString str)

/-- A string with an arena of its own, as some calls lead to it. -/
def LFString.Owned (str : LFString β) : Prop :=
  ∃ declared start calls answers, declared.slice = none ∧
    declared.charQttInBlock < sizeModulus ∧ lfInitString declared = some start ∧
    run stringCall calls start = some (answers, str)

/-- A string that is a slice of an owned string: one with borders in its live
range, or one with its borders. -/
def LFString.Backed (str : LFString β) : Prop :=
  ∃ owned declared, LFString.Owned owned ∧ declared.arena = owned.arena ∧
    ((∃ slice deck, Represents owned.arena deck ∧ slice.LiesIn deck ∧
        lfInitStringFromSlice declared slice = some str) ∨
      declared.slice.isSome ∧ lfInitString declared = some str)

/-- A string that is a slice of an owned string, with its borders in the live range, whatever
has led to them and to the size that is recorded in it. -/
def LFString.Sliced (str : LFString β) : Prop :=
  ∃ owned slice deck, LFString.Owned owned ∧ str.arena = owned.arena ∧ str.slice = some slice ∧
    Represents owned.arena deck ∧ slice.LiesIn deck

/-- Every block of the string ends where the last one does, and is not empty, and
the recorded size is the number of live characters. -/
structure LFString.Even (str : LFString β) (deck : Deck β) : Prop where
  ends : ∀ entry ∈ str.blocks deck,
    entry.2.rightOffset = max (lastRight (str.blocks deck)) (entry.2.leftOffset + 1)
  counted : lfGetStringSize str = (str.live deck).length

/-- The head block of a slice of several blocks is used up to its end. -/
def LFString.HeadFull (str : LFString β) (deck : Deck β) : Prop :=
  ∀ slice, str.slice = some slice → slice.headBlock ≠ slice.tailBlock →
    ∀ entry ∈ deck, some entry.1 = slice.headBlock → entry.2.rightOffset = entry.2.size

namespace Filled

variable {arena : Arena β} {deck : Deck β}

theorem init {arena start : Arena β} (offset : arena.blockOffset = .left)
    (small : arena.blockSize < sizeModulus) (init : lfInitArena arena = some start) :
    ∃ deck, Filled start deck := by
  obtain ⟨start', init', rep, blocks, strategy, -, size⟩ :=
    lfInitArena_spec arena (lfInitArena_accepts init)
  obtain rfl := Option.some.inj (init.symm.trans init')
  refine ⟨_, rep, ?_, ?_, blocks ▸ small, strategy.trans offset, ?_⟩
  · simp [offset, startOffset]
  · simp [offset, startOffset]
  · simp [offset, startOffset, size, sizeWrap]

/-- Where an allocation at the tail puts the new bytes. -/
theorem alloc (filled : Filled arena deck) {size : ℕ} {ptr : Ptr} {arena' : Arena β}
    {deck' : Deck β} (bound : size ≤ arena.blockSize) (change : AllocTail arena size deck ptr deck')
    (rep' : Represents arena' deck') (keeps : arena.Keeps arena')
    (counted : arena'.size = sizeWrap (arena.size + size)) : Filled arena' deck' := by
  have right := change.bounded bound filled.rep.sized filled.right
  refine ⟨rep', ?_, keeps.blockSize ▸ right, keeps.blockSize ▸ filled.small,
    keeps.blockOffset.trans filled.offset, ?_⟩
  · have left := filled.left
    cases change with
    | @fits p b front room =>
        refine List.forall_mem_append.mpr ⟨(List.forall_mem_append.mp left).1, ?_⟩
        exact List.forall_mem_singleton.mpr (left (p, b) (by simp))
    | opens full => exact List.forall_mem_append.mpr ⟨left, by simp⟩
  · rw [counted, filled.size, sizeWrap_add_sizeWrap]
    have left := filled.left
    cases change with
    | @fits p b front room =>
        have start : b.leftOffset = 0 := left (p, b) (by simp)
        simp [start, Nat.add_assoc]
    | opens full => simp [Nat.add_assoc]

/-- Writing characters changes no used range. -/
theorem store (filled : Filled arena deck) {p : BlockPtr} (member : p ∈ ptrs deck) {offset : ℕ}
    {chars : List β} (inside : offset + chars.length ≤ arena.blockSize) :
    ∃ heap deck', arena.heap.store ⟨p, offset⟩ chars = some heap ∧
      Filled { arena with heap } deck' := by
  obtain ⟨heap, stored, rep, keeps⟩ := filled.rep.store member inside
  refine ⟨heap, _, stored, rep, ?_, ?_, filled.small, filled.offset, ?_⟩
  · refine List.forall_mem_map.mpr ?_
    intro entry member
    dsimp only
    split <;> exact filled.left entry member
  · refine List.forall_mem_map.mpr ?_
    intro entry member
    dsimp only
    split <;> exact filled.right entry member
  · refine filled.size.trans (congrArg (fun x : List Position => sizeWrap x.length) ?_)
    rw [Deck.positions, Deck.positions, Deck.modify, List.flatMap_map]
    apply List.flatMap_congr
    intro entry _
    dsimp only
    split <;> rfl

theorem reset (filled : Filled arena deck) :
    ∃ arena' deck', lfResetArena arena = some arena' ∧ Filled arena' deck' := by
  obtain ⟨arena', reset, rep, keeps, size⟩ := filled.rep.reset
  refine ⟨arena', _, reset, rep, ?_, ?_, keeps.blockSize ▸ filled.small,
    keeps.blockOffset.trans filled.offset, ?_⟩
  · refine List.forall_mem_map.mpr ?_
    intro entry _
    simp [Slab.restart, filled.offset, startOffset]
  · refine List.forall_mem_map.mpr ?_
    intro entry _
    simp [Slab.restart, filled.offset, startOffset]
  · have empty : (deck.restart (startOffset arena.blockOffset arena.blockSize)).positions = [] := by
      rw [Deck.positions, Deck.restart, List.flatMap_map]
      apply List.flatMap_eq_nil_iff.mpr
      simp [Slab.restart, positionsFrom]
    rw [size, empty]
    rfl

end Filled

/-- An owned string has a filled deck. -/
theorem LFString.Owned.filled {str : LFString β} (owned : str.Owned) :
    str.slice = none ∧ ∃ deck, Filled str.arena deck := by
  obtain ⟨declared, start, calls, answers, backing, small, init, runs⟩ := owned
  simp only [lfInitString, backing, Option.bind_eq_bind, Option.bind_eq_some_iff] at init
  obtain ⟨arena, initArena, same⟩ := init
  cases same
  refine run_invariant (fun str : LFString β => str.slice = none ∧ ∃ deck, Filled str.arena deck)
    ?_ (And.intro rfl (Filled.init rfl small initArena)) runs
  intro call str answer str' ⟨backing, deck, filled⟩ called
  cases call with
  | alloc size chars =>
      simp only [stringCall] at called
      split at called
      · cases called
      · rename_i room
        simp only [lfAllocString, backing, Option.bind_eq_bind, Option.bind_eq_some_iff,
          Option.some.injEq, Prod.mk.injEq, Prod.exists] at called
        obtain ⟨ptr, between, ⟨ptr', arena', alloc, same, rfl⟩, heap, written, -, rfl⟩ := called
        subst same
        obtain ⟨-, fits, deck', change, rep', keeps, counted⟩ := filled.rep.of_allocAtTail alloc
        have filled' := filled.alloc fits change rep' keeps counted
        obtain ⟨front, p, b, offset, rfl, rfl, right⟩ := change.last
        have bound := filled'.right (p, b) (by simp)
        dsimp only at bound
        obtain ⟨heap', deck'', stored, filled''⟩ :=
          filled'.store (p := p) (by simp) (show offset + chars.length ≤ _ by omega)
        obtain rfl := Option.some.inj (written.symm.trans stored)
        exact ⟨rfl, deck'', filled''⟩
  | reset =>
      obtain ⟨arena', deck', reset, filled'⟩ := filled.reset
      simp only [stringCall, lfResetString, backing, Option.isSome_none, Bool.false_eq_true,
        ↓reduceIte, reset, Option.bind_eq_bind, Option.bind_some, Option.some.injEq,
        Prod.mk.injEq] at called
      obtain ⟨-, rfl⟩ := called
      exact ⟨rfl, deck', filled'⟩

/-- A string backed by a slice reads from the deck of the owned string. -/
theorem LFString.Backed.slice {str : LFString β} (backed : str.Backed) :
    ∃ deck slice, Filled str.arena deck ∧ str.slice = some slice ∧ slice.LiesIn deck ∧
      lfGetArenaSliceSize str.arena.heap slice = some slice := by
  obtain ⟨owned, declared, isOwned, same, how⟩ := backed
  obtain ⟨-, deck, filled⟩ := isOwned.filled
  rcases how with ⟨dest, other, rep, lies, init⟩ | ⟨given, init⟩
  · obtain rfl := rep.deck_eq filled.rep
    simp only [lfInitStringFromSlice, Option.bind_eq_bind, Option.bind_eq_some_iff] at init
    obtain ⟨slice, created, -, -, head, -, made⟩ := init
    cases made
    obtain ⟨borders, again⟩ := lfGetArenaSliceSize_borders (lfInitArenaSlice_none created)
    exact ⟨other, slice, same ▸ filled, rfl, borders ▸ lies.withSize slice.size, again⟩
  · obtain ⟨dest, given⟩ := Option.isSome_iff_exists.mp given
    obtain ⟨slice, created, again, lies, -⟩ := ArenaSlice.of_init filled.rep filled.ordered dest
    simp only [lfInitString, given, same, created, Option.bind_eq_bind, Option.bind_some,
      Option.some.injEq] at init
    subst init
    exact ⟨deck, slice, filled, rfl, lies, lfInitArenaSlice_none again⟩

/-! ## Strings that share an arena -/

/-- Writing to a block moves no border. -/
theorem ArenaSlice.LiesIn.modify {slice : ArenaSlice} {deck : Deck β} (lies : slice.LiesIn deck)
    {p : BlockPtr} {g : Slab β → Slab β} (left : ∀ b, (g b).leftOffset = b.leftOffset)
    (right : ∀ b, (g b).rightOffset = b.rightOffset) : slice.LiesIn (deck.modify p g) := by
  obtain ⟨before, blocks, after, rfl, spans⟩ := lies
  refine ⟨before.modify p g, blocks.modify p g, after.modify p g, by simp [modify_append], ?_⟩
  have offsets : ∀ b : Slab β, ∀ q : BlockPtr,
      (if q = p then g b else b).leftOffset = b.leftOffset ∧
        (if q = p then g b else b).rightOffset = b.rightOffset := by
    intro b q
    split
    · exact ⟨left b, right b⟩
    · exact ⟨rfl, rfl⟩
  refine ⟨by simpa [Deck.modify] using spans.nonempty, by rw [ptrs_modify]; exact spans.head,
    by rw [ptrs_modify]; exact spans.tail, ?_, ?_, ?_⟩
  · refine List.forall_mem_map.mpr ?_
    intro entry member same
    rw [(offsets entry.2 entry.1).1]
    exact spans.low entry member same
  · refine List.forall_mem_map.mpr ?_
    intro entry member same
    rw [(offsets entry.2 entry.1).2]
    exact spans.high entry member same
  · refine List.forall_mem_map.mpr ?_
    intro entry member
    have ordered := spans.ordered entry member
    simp only [trim, (offsets entry.2 entry.1).1, (offsets entry.2 entry.1).2] at ordered ⊢
    exact ordered

/-- What a slice is handed out comes from the arena. -/
theorem lfArenaSliceAllocAtTail_alloc {slice slice' : ArenaSlice} {arena arena' : Arena β}
    {size : ℕ} {ptr : Ptr}
    (granted : lfArenaSliceAllocAtTail slice arena size = some (some ptr, slice', arena')) :
    lfArenaAllocAtTail arena size = some (ptr, arena') := by
  simp only [lfArenaSliceAllocAtTail] at granted
  split at granted
  · cases granted
  simp only [Option.bind_eq_bind, Option.bind_eq_some_iff] at granted
  obtain ⟨p, -, tail, -, granted⟩ := granted
  split at granted
  · cases granted
  simp only [Option.bind_eq_some_iff, Option.some.injEq, Prod.mk.injEq, Prod.exists] at granted
  obtain ⟨ptr', arena₁, alloc, q, -, last, -, rfl, -, rfl⟩ := granted
  exact alloc

/-- Characters written behind the end of an owned string, by whoever may do so, and what
they do to the blocks. -/
theorem LFString.Owned.extend {owned : LFString β} (isOwned : owned.Owned) {size : ℕ}
    {chars : List β} {ptr : Ptr} {arena' : Arena β} {heap : Heap β}
    (alloc : lfArenaAllocAtTail owned.arena size = some (ptr, arena'))
    (room : chars.length ≤ size) (written : arena'.heap.store ptr chars = some heap) :
    LFString.Owned { owned with arena := { arena' with heap } } ∧
      ∃ deck deck' : Deck β, Represents owned.arena deck ∧
        AllocTail owned.arena size deck ptr deck' ∧ (ptrs deck').Nodup ∧
        Represents { arena' with heap }
          (deck'.modify ptr.block fun b => b.write ptr.offset.toNat chars) := by
  obtain ⟨backing, deck, filled⟩ := isOwned.filled
  constructor
  · obtain ⟨declared, start, calls, answers, none, small, init, runs⟩ := isOwned
    refine ⟨declared, start, calls ++ [.alloc size chars], answers ++ [some ptr], none, small, init,
      run_append_iff.mpr ⟨owned, answers, [some ptr], runs, run_cons ?_ rfl, rfl⟩⟩
    simp [stringCall, Nat.not_lt.mpr room, lfAllocString, backing, alloc, written]
  · obtain ⟨-, fits, deck', change, rep', keeps, counted⟩ := filled.rep.of_allocAtTail alloc
    have filled' := filled.alloc fits change rep' keeps counted
    obtain ⟨front, p, b, offset, rfl, rfl, right⟩ := change.last
    have bound : b.rightOffset ≤ arena'.blockSize := filled'.right (p, b) (by simp)
    have inside : offset + chars.length ≤ arena'.blockSize := by omega
    obtain ⟨heap', stored, rep'', -⟩ := rep'.store (p := p) (by simp) inside
    obtain rfl := Option.some.inj (written.symm.trans stored)
    exact ⟨deck, _, filled.rep, change, rep'.distinct, rep''⟩

namespace LFString.Sliced

variable {str : LFString β} {size : ℕ} {chars : List β} {answer : Option Ptr}

/-- A slice that is extended at its tail is a slice of the extended string. -/
theorem alloc (sliced : str.Sliced) {str' : LFString β}
    (called : stringCall (.alloc size chars) str = some (answer, str')) : str'.Sliced := by
  obtain ⟨owned, slice, deck, isOwned, same, backing, rep, lies⟩ := sliced
  simp only [stringCall] at called
  split at called
  · cases called
  rename_i room
  simp only [lfAllocString, backing, Option.bind_eq_bind, Option.bind_eq_some_iff,
    Option.some.injEq, Prod.mk.injEq, Prod.exists] at called
  obtain ⟨ptr, between, ⟨answer', slice', arena', granted, ptr', rfl, rfl, rfl⟩, heap, written, -,
    rfl⟩ := called
  rw [same] at granted
  have alloc := lfArenaSliceAllocAtTail_alloc granted
  obtain ⟨isOwned', other, deck', rep', change, distinct', rep''⟩ :=
    isOwned.extend alloc (Nat.not_lt.mp room) written
  obtain rfl := rep'.deck_eq rep
  have owns : slice.Owns other .tail := by
    by_contra lost
    rw [slice.allocAtTail_refused rep lost] at granted
    cases granted
  obtain ⟨positive, bound, -⟩ := rep.of_allocAtTail alloc
  obtain ⟨_, _, _, granted', -⟩ := slice.allocAtTail_granted rep owns positive bound
  have answers := Prod.mk.inj (Option.some.inj (granted.symm.trans granted'))
  obtain rfl := Option.some.inj answers.1
  obtain ⟨rfl, rfl⟩ := Prod.mk.inj answers.2
  exact ⟨_, _, _, isOwned', rfl, rfl, rep'',
    (lies.growTail owns rep.distinct distinct' change).1.modify (fun _ => rfl) fun _ => rfl⟩

/-- A slice stays one when the string that it is a slice of is extended. -/
theorem beside (sliced : str.Sliced) {owner owner' : LFString β} (backing : owner.slice = none)
    (same : owner.arena = str.arena)
    (called : stringCall (.alloc size chars) owner = some (answer, owner')) :
    LFString.Sliced { str with arena := owner'.arena } := by
  obtain ⟨owned, slice, deck, isOwned, shared, given, rep, lies⟩ := sliced
  simp only [stringCall] at called
  split at called
  · cases called
  rename_i room
  simp only [lfAllocString, backing, same, shared, Option.bind_eq_bind, Option.bind_eq_some_iff,
    Option.some.injEq, Prod.mk.injEq, Prod.exists] at called
  obtain ⟨ptr, between, ⟨ptr', arena', alloc, rfl, rfl⟩, heap, written, -, rfl⟩ := called
  obtain ⟨isOwned', other, deck', rep', change, distinct', rep''⟩ :=
    isOwned.extend alloc (Nat.not_lt.mp room) written
  obtain rfl := rep'.deck_eq rep
  exact ⟨_, slice, _, isOwned', rfl, given, rep'',
    (lies.allocTail rep.distinct distinct' change).1.modify (fun _ => rfl) fun _ => rfl⟩

/-- A sliced string reads from the deck of the owned string. -/
theorem backing (sliced : str.Sliced) : ∃ deck, str.Over deck := by
  obtain ⟨owned, slice, deck, isOwned, same, backing, rep, lies⟩ := sliced
  obtain ⟨-, other, filled⟩ := isOwned.filled
  obtain rfl := filled.rep.deck_eq rep
  refine ⟨other, same ▸ rep, filled.ordered, ?_⟩
  intro given isSlice
  rw [backing, Option.some.injEq] at isSlice
  exact isSlice ▸ lies

end LFString.Sliced

/-- A string that was just made a slice is one. -/
theorem LFString.Backed.sliced {str : LFString β} (backed : str.Backed) : str.Sliced := by
  obtain ⟨deck, slice, filled, backing, lies, -⟩ := backed.slice
  obtain ⟨owned, declared, isOwned, same, how⟩ := backed
  have shared : str.arena = owned.arena := by
    rcases how with ⟨dest, other, -, -, init⟩ | ⟨given, init⟩
    · simp only [lfInitStringFromSlice, Option.bind_eq_bind, Option.bind_eq_some_iff] at init
      obtain ⟨slice, -, -, -, head, -, made⟩ := init
      cases made
      exact same
    · obtain ⟨dest, given⟩ := Option.isSome_iff_exists.mp given
      simp only [lfInitString, given, Option.bind_eq_bind, Option.bind_eq_some_iff] at init
      obtain ⟨slice, -, made⟩ := init
      cases made
      exact same
  exact ⟨owned, slice, deck, isOwned, shared, backing, shared ▸ filled.rep, lies⟩

/-- Different positions have different pointers. -/
theorem Position.ptr_injective : Function.Injective Position.ptr := by
  intro ⟨p, offset⟩ ⟨q, offset'⟩ same
  simp only [ptr, Ptr.mk.injEq] at same
  exact Prod.ext same.1 (Int.ofNat_inj.mp same.2)

/-- The blocks of a string are distinct, and their used ranges in order. -/
theorem LFString.Over.blocks_sound {str : LFString β} {deck : Deck β} (source : str.Over deck) :
    (ptrs (str.blocks deck)).Nodup ∧
      ∀ entry ∈ str.blocks deck, entry.2.leftOffset ≤ entry.2.rightOffset := by
  cases backing : str.slice with
  | none =>
      simp only [blocks, backing]
      exact ⟨source.rep.distinct, source.ordered⟩
  | some slice =>
      obtain ⟨before, blocks, after, rfl, spans⟩ := source.lies slice backing
      simp only [LFString.blocks, backing, spans.cut_eq source.rep.distinct, ptrs_trim]
      exact ⟨distinct_middle source.rep.distinct, List.forall_mem_map.mpr spans.ordered⟩

/-- The recorded size of an owned string, or of a slice that was just made, is right under a
condition on the head block and the number of characters. -/
theorem LFString.counts {str : LFString β} (built : str.Owned ∨ str.Backed) {deck : Deck β}
    (rep : Represents str.arena deck) :
    lfGetStringSize str = (str.live deck).length ↔
      (str.live deck).length < sizeModulus ∧ str.HeadFull deck := by
  rw [eq_comm]
  rcases built with owned | backed
  · obtain ⟨backing, other, filled⟩ := owned.filled
    obtain rfl := filled.rep.deck_eq rep
    have counts := @sizeWrap_add_eq_iff other.positions.length 0 (by decide)
    simpa [live, blocks, backing, lfGetStringSize, filled.size, eq_comm, HeadFull] using counts
  · obtain ⟨other, slice, filled, backing, lies, computed⟩ := backed.slice
    obtain rfl := filled.rep.deck_eq rep
    have counts := sliceSize_eq_iff filled lies computed
    simpa [live, blocks, backing, lfGetStringSize, ArenaSlice.live, HeadFull] using counts

/-- **Iterating over a string visits its live characters exactly when its blocks
are even**, and so is the size that is recorded. -/
theorem iteration_visits_live_iff (str : LFString β) (built : str.Owned ∨ str.Sliced) :
    ∃ deck visited, Represents str.arena deck ∧ str.Visits visited ∧
      ((visited = (str.live deck).map Position.ptr ∧ visited.length = lfGetStringSize str) ↔
        str.Even deck) ∧
      (str.Owned ∨ str.Backed → (lfGetStringSize str = (str.live deck).length ↔
        (str.live deck).length < sizeModulus ∧ str.HeadFull deck)) := by
  obtain ⟨deck, source⟩ : ∃ deck, str.Over deck := by
    rcases built with owned | sliced
    · obtain ⟨backing, deck, filled⟩ := owned.filled
      exact ⟨deck, filled.rep, filled.ordered, by simp [backing]⟩
    · exact sliced.backing
  obtain ⟨distinct, ordered⟩ := source.blocks_sound
  refine ⟨deck, _, source.rep, source.starts.visits, ?_,
    fun made => LFString.counts made source.rep⟩
  have same := swept_eq_positions_iff (lastRight (str.blocks deck)) distinct ordered
  constructor
  · rintro ⟨visited, counted⟩
    have live := Position.ptr_injective.list_map visited
    rw [visited, List.length_map] at counted
    exact ⟨same.mp live, counted.symm⟩
  · intro even
    rw [same.mpr even.ends]
    refine ⟨rfl, ?_⟩
    rw [List.length_map]
    exact even.counted.symm

/-- A string of two full blocks, and a slice of three of four characters that is extended by
three more. -/
theorem iteration_visits_live_iff_full_blocks :
    (∃ start answers str deck visited,
      lfInitString (LFString.declared (Allocator.bump (0 : UInt8)) 4) = some start ∧
      run stringCall [.alloc 3 [1, 2, 3], .alloc 1 [4], .alloc 4 [5, 6, 7, 8]] start =
        some (answers, str) ∧
      Represents str.arena deck ∧ str.Visits visited ∧
      ((visited = (str.live deck).map Position.ptr ∧ visited.length = lfGetStringSize str) ↔
        str.Even deck)) ∧
    ∃ (str : LFString UInt8) (deck : Deck UInt8) (visited : List Ptr),
      str.Sliced ∧ lfGetStringSize str = 6 ∧
      Represents str.arena deck ∧ str.Visits visited ∧
      ((visited = (str.live deck).map Position.ptr ∧ visited.length = lfGetStringSize str) ↔
        str.Even deck) := by
  let declared : LFString UInt8 := LFString.declared (Allocator.bump 0) 4
  constructor
  · let calls : List (StringCall UInt8) :=
      [.alloc 3 [1, 2, 3], .alloc 1 [4], .alloc 4 [5, 6, 7, 8]]
    have ends : ((lfInitString declared).bind (run stringCall calls)).isSome = true := by
      decide +kernel
    obtain ⟨⟨answers, str⟩, ends⟩ := Option.isSome_iff_exists.mp ends
    obtain ⟨start, init, runs⟩ := Option.bind_eq_some_iff.mp ends
    have owned : str.Owned := ⟨declared, start, calls, answers, rfl, by decide, init, runs⟩
    obtain ⟨deck, visited, rep, visits, result, -⟩ := iteration_visits_live_iff str (.inl owned)
    exact ⟨start, answers, str, deck, visited, init, runs, rep, visits, result⟩
  · have ends : ((lfInitString declared).bind fun start =>
        (run stringCall [.alloc 3 [1, 2, 3]] start).bind fun reached =>
          (lfInitString { reached.2 with slice := some ⟨none, none, 0, 0, 0⟩ }).bind fun slice =>
            (stringCall (.alloc 3 [4, 5, 6]) slice).map fun grown => lfGetStringSize grown.2) =
        some 6 := by
      decide +kernel
    obtain ⟨start, init, ends⟩ := Option.bind_eq_some_iff.mp ends
    obtain ⟨⟨answers, owned⟩, runs, ends⟩ := Option.bind_eq_some_iff.mp ends
    obtain ⟨slice, made, ends⟩ := Option.bind_eq_some_iff.mp ends
    obtain ⟨⟨answer, str⟩, grown, size⟩ := Option.map_eq_some_iff.mp ends
    have isOwned : owned.Owned := ⟨declared, start, _, answers, rfl, by decide, init, runs⟩
    have backed : slice.Backed :=
      ⟨owned, { owned with slice := some ⟨none, none, 0, 0, 0⟩ }, isOwned, rfl, .inr ⟨rfl, made⟩⟩
    have sliced := backed.sliced.alloc grown
    obtain ⟨deck, visited, rep, visits, result, -⟩ := iteration_visits_live_iff str (.inr sliced)
    exact ⟨str, deck, visited, sliced, size, rep, visits, result⟩

/-- Two chunks in blocks of four characters: the last character of the first one
is not visited, as the second one ends before that offset. The empty string has
one character visited. -/
theorem iteration_of_uneven_blocks :
    (∃ str : LFString UInt8, str.Owned ∧
      str.Visits [⟨0, 0⟩, ⟨0, 1⟩, ⟨2, 0⟩, ⟨2, 1⟩] ∧ lfGetStringSize str = 5) ∧
    ∃ str : LFString UInt8, str.Owned ∧ str.Visits [⟨0, 0⟩] ∧ lfGetStringSize str = 0 := by
  let declared : LFString UInt8 := LFString.declared (Allocator.bump 0) 4
  have built : ∀ calls visited size, (do
      let start ← lfInitString declared
      let (_, str) ← run stringCall calls start
      let (first, iter) ← lfInitStringIteration str
      let visited ← iterate visitChar 10 (first, iter, [])
      some (visited, lfGetStringSize str)) = some (visited, size) →
      ∃ str : LFString UInt8, str.Owned ∧ str.Visits visited ∧ lfGetStringSize str = size := by
    intro calls visited size ends
    simp only [Option.bind_eq_bind, Option.bind_eq_some_iff, Option.some.injEq,
      Prod.mk.injEq] at ends
    obtain ⟨start, init, ⟨answers, str⟩, runs, ⟨first, iter⟩, starts, _, visits, rfl, rfl⟩ := ends
    exact ⟨str, ⟨declared, start, calls, answers, rfl, by decide, init, runs⟩,
      ⟨first, iter, starts, 10, visits⟩, rfl⟩
  exact ⟨built [.alloc 3 [1, 2, 3], .alloc 2 [4, 5]] _ _ (by decide +kernel),
    built [] _ _ (by decide +kernel)⟩

end LowFlow
