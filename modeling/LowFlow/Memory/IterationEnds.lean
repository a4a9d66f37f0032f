import LowFlow.Memory.String

/-!
# Where an iteration ends

The calls of `lf_iterate_string` go along the path of the iteration, and stay at its
end (`LFString.Path.calls`). On an owned string the path has as many positions in each
block as in the last one, all of them inside of the blocks. So the iterator returns
`NULL` after at most as many calls as the blocks have bytes, and nowhere follows a
`NULL` pointer (`iteration_ends`).
-/

set_option autoImplicit false

namespace LowFlow

open Library

variable {β : Type}

/-! ## Calls of the iterator -/

/-- This many calls of the iterator, and their answers. -/
def iterateTimes (n : ℕ) (iter : StringIteration β) :
    Option (List (Option Ptr) × StringIteration β) :=
  run (fun _ : Unit => lfIterateString) (List.replicate n ()) iter

/-- The next call leaves the current block for the one behind it, and there is none. -/
def StringIteration.FollowsNull (iter : StringIteration β) : Prop :=
  ∃ curBlock block lastBlock rightOffset, iter.curBlock = some curBlock ∧
    iter.str.tailBorder = some (lastBlock, rightOffset) ∧ some curBlock ≠ lastBlock ∧
    rightOffset ≤ iter.blockOffset + 1 ∧ iter.str.arena.heap.block curBlock = some block ∧
    block.next = none

/-- The pointer is to an offset inside of a block of the chain. -/
def Arena.HasByte (arena : Arena β) (ptr : Ptr) : Prop :=
  ∃ deck b, blocksFrom arena.heap arena.blockCount arena.headBlock = some deck ∧
    (ptr.block, b) ∈ deck ∧ 0 ≤ ptr.offset ∧ ptr.offset < b.size

/-- Any number of calls goes through. From the call with this number on they return
`NULL`, and before it pointers into the chain. None of them follows a `NULL` pointer. -/
def StringIteration.EndsAt (iter : StringIteration β) (call : ℕ) : Prop :=
  ∀ n, ∃ answers last, iterateTimes n iter = some (answers, last) ∧ answers.length = n ∧
    (∀ i < n, answers[i]? = some none ↔ call ≤ i + 1) ∧
    (∀ ptr, some ptr ∈ answers → iter.str.arena.HasByte ptr) ∧ ¬ last.FollowsNull

section Calls

variable {str : LFString β} {iter last : StringIteration β} {answer : Option Ptr}
  {answers : List (Option Ptr)}

theorem iterateTimes_succ (goes : lfIterateString iter = some (answer, last)) {n : ℕ}
    {ended : StringIteration β} (onward : iterateTimes n last = some (answers, ended)) :
    iterateTimes (n + 1) iter = some (answer :: answers, ended) :=
  run_cons goes onward

/-- A call that follows a `NULL` pointer does not go through. -/
theorem StringIteration.FollowsNull.fails (follows : iter.FollowsNull) :
    lfIterateString iter = none := by
  obtain ⟨p, block, lastBlock, rightOffset, current, border, other, atEnd, found, noNext⟩ := follows
  simp [lfIterateString, current, border, other, atEnd, found, noNext]

/-- An iteration that has ended stays so. -/
theorem iterateTimes_ended (n offset : ℕ) :
    iterateTimes n ⟨str, none, offset⟩ = some (List.replicate n none, ⟨str, none, offset⟩) := by
  induction n with
  | zero => rfl
  | succ n ih =>
      have stays : lfIterateString ⟨str, none, offset⟩ = some (none, ⟨str, none, offset⟩) := rfl
      exact iterateTimes_succ stays ih

/-- **The calls along a path** return the next positions, and `NULL` behind the last one.
The induction is on the number of calls. -/
theorem LFString.Path.calls {x : Position} {path : List Position} (goes : str.Path (x :: path))
    (n : ℕ) : ∃ last,
      iterateTimes n ⟨str, some x.1, x.2⟩ =
        some ((List.range n).map fun i => path[i]?.map Position.ptr, last) ∧
      ¬ last.FollowsNull := by
  induction n generalizing x path with
  | zero =>
      refine ⟨_, rfl, ?_⟩
      intro follows
      have stuck := follows.fails
      cases goes with
      | last ends => simp [ends] at stuck
      | step goes _ => simp [goes] at stuck
  | succ n ih =>
      rw [List.range_succ_eq_map, List.map_cons, List.map_map]
      cases goes with
      | @last p offset ends =>
          refine ⟨⟨str, none, offset⟩, ?_, ?_⟩
          · have rest := iterateTimes_succ ends (iterateTimes_ended n offset)
            simpa [Function.comp_def, List.map_const'] using rest
          · rintro ⟨p, -, -, -, current, -⟩
            cases current
      | step goes onward =>
          obtain ⟨last, rest, safe⟩ := ih onward
          exact ⟨last, iterateTimes_succ goes rest, safe⟩

/-- An iteration that goes through positions inside of the chain ends when they are used up. -/
theorem LFString.Starts.ends {path : List Position} (starts : str.Starts path)
    (inside : ∀ x ∈ path, str.arena.HasByte x.ptr) :
    ∃ first iter, lfInitStringIteration str = some (first, iter) ∧ str.arena.HasByte first ∧
      iter.EndsAt path.length := by
  obtain ⟨x, rest, rfl, init, goes⟩ := starts
  obtain ⟨first, inside⟩ := List.forall_mem_cons.mp inside
  refine ⟨_, _, init, first, ?_⟩
  intro n
  obtain ⟨last, runs, safe⟩ := goes.calls n
  refine ⟨_, last, runs, by simp, ?_, ?_, safe⟩
  · intro i bound
    simp [bound]
  · intro ptr member
    obtain ⟨i, -, here⟩ := List.mem_map.mp member
    obtain ⟨y, found, rfl⟩ := Option.map_eq_some_iff.mp here
    exact inside y (List.mem_of_getElem? found)

end Calls

/-! ## Owned strings -/

/-- Blocks that begin at their first byte are swept alike. -/
theorem length_swept {right : ℕ} {blocks : Deck β}
    (left : ∀ entry ∈ blocks, entry.2.leftOffset = 0) :
    (swept right blocks).length = blocks.length * max 1 right := by
  induction blocks with
  | nil => simp
  | cons entry blocks ih =>
      obtain ⟨here, left⟩ := List.forall_mem_cons.mp left
      rw [swept_cons, List.length_append, length_positionsFrom, ih left, here, List.length_cons,
        Nat.succ_mul]
      omega

section Owned

variable {arena : Arena β} {deck : Deck β}

/-- The last block of a filled deck ends within its block. -/
theorem Filled.lastRight_le (filled : Filled arena deck) : lastRight deck ≤ arena.blockSize := by
  obtain ⟨q, c, member, -, right⟩ := exists_last filled.rep.nonempty
  rw [right]
  exact filled.right (q, c) member

/-- The iterator stays inside of the blocks of a filled deck. -/
theorem Filled.swept_inside (filled : Filled arena deck) :
    ∀ x ∈ swept (lastRight deck) deck, arena.HasByte x.ptr := by
  intro x member
  obtain ⟨⟨p, b⟩, inDeck, here⟩ := List.mem_flatMap.mp member
  obtain ⟨offset, inRange, rfl⟩ := List.mem_map.mp here
  have positive := filled.rep.positive
  have bound := filled.lastRight_le
  have size : b.size = arena.blockSize := filled.rep.sized (p, b) inDeck
  have left : b.leftOffset = 0 := filled.left (p, b) inDeck
  have within := (List.mem_range'_1.mp inRange).2
  refine ⟨deck, b, filled.rep.blocksFrom_eq, inDeck, Int.natCast_nonneg _, ?_⟩
  apply Int.ofNat_lt.mpr
  dsimp only at within ⊢
  omega

end Owned

/-- **Iterating over an owned string ends** after at most as many calls as its blocks have
bytes. The iterator stays inside of the blocks, and follows no `NULL` pointer. -/
theorem iteration_ends {str : LFString β} (owned : str.Owned) :
    ∃ first iter call, lfInitStringIteration str = some (first, iter) ∧ str.arena.HasByte first ∧
      call ≤ str.arena.blockCount * str.arena.blockSize ∧ iter.EndsAt call := by
  obtain ⟨backing, deck, filled⟩ := owned.filled
  obtain ⟨first, iter, init, inside, ends⟩ :=
    (path_owned filled.rep backing).ends filled.swept_inside
  refine ⟨first, iter, _, init, inside, ?_, ends⟩
  have positive := filled.rep.positive
  calc (swept (lastRight deck) deck).length
    _ = deck.length * max 1 (lastRight deck) := length_swept filled.left
    _ ≤ deck.length * str.arena.blockSize :=
        Nat.mul_le_mul_left _ (Nat.max_le.mpr ⟨positive, filled.lastRight_le⟩)
    _ = str.arena.blockCount * str.arena.blockSize := by rw [filled.rep.count]

/-- A string of two blocks that was reset and used again: its first block is empty. -/
theorem iteration_ends_empty_block : ∃ (start str : LFString UInt8) (answers : List (Option Ptr))
    (first : Ptr) (iter : StringIteration UInt8) (call : ℕ),
    lfInitString (LFString.declared (Allocator.bump 0) 4) = some start ∧
      run stringCall [.alloc 3 [1, 2, 3], .alloc 3 [4, 5, 6], .reset, .alloc 2 [7, 8]] start =
        some (answers, str) ∧
      lfInitStringIteration str = some (first, iter) ∧ str.arena.HasByte first ∧
      call ≤ str.arena.blockCount * str.arena.blockSize ∧ iter.EndsAt call := by
  let declared : LFString UInt8 := LFString.declared (Allocator.bump 0) 4
  let calls : List (StringCall UInt8) :=
    [.alloc 3 [1, 2, 3], .alloc 3 [4, 5, 6], .reset, .alloc 2 [7, 8]]
  have ends : ((lfInitString declared).bind (run stringCall calls)).isSome = true := by
    decide +kernel
  obtain ⟨⟨answers, str⟩, ends⟩ := Option.isSome_iff_exists.mp ends
  obtain ⟨start, init, runs⟩ := Option.bind_eq_some_iff.mp ends
  have owned : str.Owned := ⟨declared, start, calls, answers, rfl, by decide, init, runs⟩
  obtain ⟨first, iter, call, result⟩ := iteration_ends owned
  exact ⟨start, str, answers, first, iter, call, init, runs, result⟩

end LowFlow
