import LowFlow.Memory.ElemSearch
import LowFlow.Memory.ListLookups

/-!
# The cursor of an arena

The lookups start from the cursor block, which earlier lookups moved. Allocating
and resetting leave it where it is, and a lookup moves it along the chain. Freeing
a block at an end does not move it, also when it is at that block. So the cursor
is in the chain throughout a run exactly when no block is freed that the cursor is
at (`cursor_in_chain_iff`).
-/

set_option autoImplicit false

namespace LowFlow

open Library

/-! ## The operations -/

/-- What is done with the arena of a list, and the lookups. -/
inductive CursorOp where
  | initArena
  | allocAtHead (size : ℕ)
  | allocAtTail (size : ℕ)
  | allocListElems (qtt : ℕ)
  | deallocHeadBlock
  | deallocTailBlock
  | reset
  | getNext (elem : Ptr)
  | getPrev (elem : Ptr)
  | getFirst
  | getLast
  | getByContent (fuel : ℕ) (content : List UInt8) (elemSize elemPaddedSize : ℕ)

/-- One operation, with the pointer it returns. -/
def cursorStep : CursorOp → LFList UInt8 → Option (Option Ptr × LFList UInt8)
  | .initArena, list => do
      let arena ← lfInitArena list.arena
      some (none, { list with arena })
  | .allocAtHead size, list => do
      let (ptr, arena) ← lfArenaAllocAtHead list.arena size
      some (some ptr, { list with arena })
  | .allocAtTail size, list => do
      let (ptr, arena) ← lfArenaAllocAtTail list.arena size
      some (some ptr, { list with arena })
  | .allocListElems qtt, list => do
      let (elem, list) ← lfAllocListElems list qtt
      some (some elem, list)
  | .deallocHeadBlock, list => do
      let (_, arena) ← lfDeallocArenaHeadBlock list.arena
      some (none, { list with arena })
  | .deallocTailBlock, list => do
      let (_, arena) ← lfDeallocArenaTailBlock list.arena
      some (none, { list with arena })
  | .reset, list => do
      let arena ← lfResetArena list.arena
      some (none, { list with arena })
  | .getNext elem, list => lfGetNextListElem list elem
  | .getPrev elem, list => lfGetPrevListElem list elem
  | .getFirst, list => lfGetFirstListElem list
  | .getLast, list => lfGetLastListElem list
  | .getByContent fuel content elemSize elemPaddedSize, list => do
      some (← lfGetArenaElemByContent fuel list.arena content elemSize elemPaddedSize, list)

/-- The operation starts from the cursor block. -/
def CursorOp.StartsFromCursor : CursorOp → Prop
  | .getNext _ => True
  | .getPrev _ => True
  | .getByContent .. => True
  | _ => False

/-- The cursor is at one of the blocks of the chain. -/
def LFList.CursorInChain (list : LFList UInt8) : Prop :=
  ∃ p, list.arena.cursorBlock = some p ∧ list.HasBlock p

/-- The cursor is at a block that was not freed. -/
def LFList.CursorAllocated (list : LFList UInt8) : Prop :=
  ∃ p node, list.arena.cursorBlock = some p ∧ list.arena.heap.block p = some node

/-- A block that is freed is not the one that the cursor is at. -/
def CursorOp.LeavesCursor : CursorOp → LFList UInt8 → Prop
  | .deallocHeadBlock, list =>
      list.arena.blockCount ≤ 1 ∨ list.arena.cursorBlock ≠ list.arena.headBlock
  | .deallocTailBlock, list =>
      list.arena.blockCount ≤ 1 ∨ list.arena.cursorBlock ≠ list.arena.tailBlock
  | _, _ => True

/-! ## The invariant -/

namespace LFList.Points

variable {list list' : LFList UInt8} {deck : Deck UInt8} {p : BlockPtr} {answer : Option Ptr}

/-- The cursor of a new arena is at its block. -/
theorem of_init {list : LFList UInt8} {arena : Arena UInt8}
    (init : lfInitArena list.arena = some arena) :
    ∃ deck p, ({ list with arena } : LFList UInt8).Points deck p := by
  have positive := lfInitArena_accepts init
  obtain ⟨arena', init', rep, -, -, cursor, -⟩ := lfInitArena_spec list.arena positive
  obtain rfl := Option.some.inj (init.symm.trans init')
  exact ⟨_, _, rep, cursor, List.mem_cons_self ..⟩

theorem cursorInChain (points : list.Points deck p) : list.CursorInChain :=
  ⟨p, points.cursor, points.rep.hasBlock_iff.mpr points.member⟩

theorem cursorAllocated (points : list.Points deck p) : list.CursorAllocated := by
  obtain ⟨⟨q, b⟩, inDeck, rfl⟩ := List.mem_map.mp points.member
  obtain ⟨node, found, -⟩ := points.rep.lookup inDeck
  exact ⟨q, node, points.cursor, found⟩

/-- Freeing a block at an end does not move the cursor. -/
theorem deallocHead (points : list.Points deck p)
    (taken : cursorStep .deallocHeadBlock list = some (answer, list')) :
    (CursorOp.LeavesCursor .deallocHeadBlock list → ∃ deck' q, list'.Points deck' q) ∧
      (¬ CursorOp.LeavesCursor .deallocHeadBlock list → ¬ list'.CursorInChain) := by
  have rep := points.rep
  obtain ⟨⟨q, b⟩, rest, rfl⟩ := List.exists_cons_of_ne_nil rep.nonempty
  have atHead : list.arena.cursorBlock = list.arena.headBlock ↔ p = q := by
    rw [points.cursor, rep.head_eq, Option.some.injEq]
  cases rest with
  | nil =>
      have one : list.arena.blockCount ≤ 1 := le_of_eq rep.count
      simp only [cursorStep, rep.deallocHead_single, Option.bind_eq_bind, Option.bind_some,
        Option.some.injEq, Prod.mk.injEq] at taken
      rw [← taken.2]
      exact ⟨fun _ => ⟨_, p, points⟩, fun moved => absurd (.inl one) moved⟩
  | cons next rest =>
      obtain ⟨arena, dealloc, rep', keeps, -, -⟩ := rep.deallocHead
      have several : ¬ list.arena.blockCount ≤ 1 := by simp [rep.count]
      simp only [cursorStep, dealloc, Option.bind_eq_bind, Option.bind_some, Option.some.injEq,
        Prod.mk.injEq] at taken
      rw [← taken.2, CursorOp.LeavesCursor, or_iff_right several, ne_eq, atHead, not_not]
      constructor
      · intro elsewhere
        exact ⟨_, p,
          points.arena rep' keeps ((List.mem_cons.mp points.member).resolve_left elsewhere)⟩
      · rintro rfl ⟨r, cursor, inChain⟩
        obtain rfl := Option.some.inj (cursor.symm.trans (keeps.cursor.trans points.cursor))
        have freed : r ∉ ptrs (next :: rest) := (List.nodup_cons.mp rep.distinct).1
        exact freed ((@Represents.hasBlock_iff _ { list with arena } _ rep' r).mp inChain)

theorem deallocTail (points : list.Points deck p)
    (taken : cursorStep .deallocTailBlock list = some (answer, list')) :
    (CursorOp.LeavesCursor .deallocTailBlock list → ∃ deck' q, list'.Points deck' q) ∧
      (¬ CursorOp.LeavesCursor .deallocTailBlock list → ¬ list'.CursorInChain) := by
  have rep := points.rep
  obtain ⟨front, ⟨q, b⟩, rfl⟩ := (List.eq_nil_or_concat' deck).resolve_left rep.nonempty
  have atTail : list.arena.cursorBlock = list.arena.tailBlock ↔ p = q := by
    rw [points.cursor, rep.tail_eq, Option.some.injEq]
  rcases List.eq_nil_or_concat' front with rfl | ⟨front, ⟨r, c⟩, rfl⟩
  · have one : list.arena.blockCount ≤ 1 := le_of_eq rep.count
    have single := Represents.deallocTail_single rep
    simp only [cursorStep, single, Option.bind_eq_bind, Option.bind_some, Option.some.injEq,
      Prod.mk.injEq] at taken
    rw [← taken.2]
    exact ⟨fun _ => ⟨_, p, points⟩, fun moved => absurd (.inl one) moved⟩
  · obtain ⟨arena, dealloc, rep', keeps, -, -⟩ := rep.deallocTail
    have several : ¬ list.arena.blockCount ≤ 1 := by simp [rep.count]
    have distinct := rep.distinct
    rw [ptrs, List.map_append] at distinct
    have freed : q ∉ ptrs (front ++ [(r, c)]) := fun member =>
      List.disjoint_of_nodup_append distinct member (by simp)
    simp only [cursorStep, dealloc, Option.bind_eq_bind, Option.bind_some, Option.some.injEq,
      Prod.mk.injEq] at taken
    rw [← taken.2, CursorOp.LeavesCursor, or_iff_right several, ne_eq, atTail, not_not]
    constructor
    · intro elsewhere
      have member := points.member
      rw [ptrs, List.map_append, List.mem_append] at member
      have kept : p ∈ ptrs (front ++ [(r, c)]) :=
        member.resolve_right fun last => elsewhere (List.mem_singleton.mp last)
      exact ⟨_, p, points.arena rep' keeps kept⟩
    · rintro rfl ⟨s, cursor, inChain⟩
      obtain rfl := Option.some.inj (cursor.symm.trans (keeps.cursor.trans points.cursor))
      exact freed ((@Represents.hasBlock_iff _ { list with arena } _ rep' s).mp inChain)

/-- An operation that does not free the block of the cursor leaves the cursor in the
chain. -/
theorem step (points : list.Points deck p) {op : CursorOp} (leaves : op.LeavesCursor list)
    (taken : cursorStep op list = some (answer, list')) : ∃ deck' q, list'.Points deck' q := by
  have rep := points.rep
  cases op with
  | deallocHeadBlock => exact (points.deallocHead taken).1 leaves
  | deallocTailBlock => exact (points.deallocTail taken).1 leaves
  | getNext elem => exact ⟨deck, points.getNext taken⟩
  | getPrev elem => exact ⟨deck, points.getPrev taken⟩
  | initArena =>
      simp only [cursorStep, Option.bind_eq_bind, Option.bind_eq_some_iff, Option.some.injEq,
        Prod.mk.injEq] at taken
      obtain ⟨arena, init, -, rfl⟩ := taken
      exact LFList.Points.of_init init
  | allocAtHead size =>
      simp only [cursorStep, Option.bind_eq_bind, Option.bind_eq_some_iff, Option.some.injEq,
        Prod.mk.injEq, Prod.exists] at taken
      obtain ⟨ptr, arena, alloc, -, rfl⟩ := taken
      obtain ⟨-, -, deck', change, rep', keeps, -⟩ := rep.of_allocAtHead alloc
      exact ⟨deck', p, points.arena rep' keeps (change.carries.mem_ptrs points.member)⟩
  | allocAtTail size =>
      simp only [cursorStep, Option.bind_eq_bind, Option.bind_eq_some_iff, Option.some.injEq,
        Prod.mk.injEq, Prod.exists] at taken
      obtain ⟨ptr, arena, alloc, -, rfl⟩ := taken
      obtain ⟨-, -, deck', change, rep', keeps, -⟩ := rep.of_allocAtTail alloc
      exact ⟨deck', p, points.arena rep' keeps (change.carries.mem_ptrs points.member)⟩
  | allocListElems qtt =>
      simp only [cursorStep, Option.bind_eq_bind, Option.bind_eq_some_iff, Option.some.injEq,
        Prod.mk.injEq, Prod.exists] at taken
      obtain ⟨elem, grown, allocated, -, rfl⟩ := taken
      obtain ⟨-, arena, alloc, rfl⟩ := lfAllocListElems_eq_some allocated
      obtain ⟨-, -, deck', change, rep', keeps, -⟩ := rep.of_allocAtTail alloc
      exact ⟨deck', p, rep', keeps.cursor.trans points.cursor,
        change.carries.mem_ptrs points.member⟩
  | reset =>
      simp only [cursorStep, Option.bind_eq_bind, Option.bind_eq_some_iff, Option.some.injEq,
        Prod.mk.injEq] at taken
      obtain ⟨arena, reset, -, rfl⟩ := taken
      obtain ⟨arena', reset', rep', keeps, -⟩ := rep.reset
      obtain rfl := Option.some.inj (reset.symm.trans reset')
      exact ⟨_, p, points.arena rep' keeps (by simpa using points.member)⟩
  | getFirst =>
      obtain ⟨⟨q, b⟩, rest, rfl⟩ := List.exists_cons_of_ne_nil rep.nonempty
      simp only [cursorStep, lfGetFirstListElem, rep.head_eq] at taken
      split at taken
      · obtain ⟨-, rfl⟩ := Prod.mk.inj (Option.some.inj taken)
        exact ⟨_, p, points⟩
      · simp only [Option.bind_eq_bind, Option.bind_some, Option.bind_eq_some_iff,
          Option.some.injEq, Prod.mk.injEq] at taken
        obtain ⟨-, -, -, rfl⟩ := taken
        exact ⟨_, q, points.withCursor (List.mem_cons_self ..)⟩
  | getLast =>
      obtain ⟨front, ⟨q, b⟩, rfl⟩ := (List.eq_nil_or_concat' deck).resolve_left rep.nonempty
      simp only [cursorStep, lfGetLastListElem, rep.tail_eq] at taken
      split at taken
      · obtain ⟨-, rfl⟩ := Prod.mk.inj (Option.some.inj taken)
        exact ⟨_, p, points⟩
      · simp only [Option.bind_eq_bind, Option.bind_some, Option.bind_eq_some_iff,
          Option.some.injEq, Prod.mk.injEq] at taken
        obtain ⟨-, -, -, rfl⟩ := taken
        exact ⟨_, q, points.withCursor (by simp)⟩
  | getByContent fuel content elemSize elemPaddedSize =>
      simp only [cursorStep, Option.bind_eq_bind, Option.bind_eq_some_iff, Option.some.injEq,
        Prod.mk.injEq] at taken
      obtain ⟨found, -, -, rfl⟩ := taken
      exact ⟨deck, p, points⟩

end LFList.Points

/-- **When the cursor stays in the chain.** Throughout a run on a new arena the cursor
is at a block of the chain, and no lookup starts from a freed block, when no block is
freed that the cursor is at, and only then. -/
theorem cursor_in_chain_iff {list : LFList UInt8} {arena : Arena UInt8}
    (init : lfInitArena list.arena = some arena) {ops : List CursorOp}
    {answers : List (Option Ptr)} {ended : LFList UInt8}
    (runs : run cursorStep ops { list with arena } = some (answers, ended)) :
    (Throughout cursorStep LFList.CursorInChain ops { list with arena } ∧
        EachStep cursorStep (fun op list => op.StartsFromCursor → list.CursorAllocated) ops
          { list with arena }) ↔
      EachStep cursorStep CursorOp.LeavesCursor ops { list with arena } := by
  have holds : ∀ list : LFList UInt8, (∃ deck p, list.Points deck p) → list.CursorInChain :=
    fun list ⟨_, _, points⟩ => points.cursorInChain
  have keeps : ∀ (op : CursorOp) (list : LFList UInt8) answer list',
      (∃ deck p, list.Points deck p) → op.LeavesCursor list →
      cursorStep op list = some (answer, list') → ∃ deck p, list'.Points deck p :=
    fun op list answer list' ⟨_, _, points⟩ leaves taken => points.step leaves taken
  have breaks : ∀ (op : CursorOp) (list : LFList UInt8) answer list',
      (∃ deck p, list.Points deck p) → ¬ op.LeavesCursor list →
      cursorStep op list = some (answer, list') → ¬ list'.CursorInChain := by
    rintro op list answer list' ⟨deck, p, points⟩ moved taken
    cases op with
    | deallocHeadBlock => exact (points.deallocHead taken).2 moved
    | deallocTailBlock => exact (points.deallocTail taken).2 moved
    | _ => exact absurd trivial moved
  have allocated : ∀ (op : CursorOp) (list : LFList UInt8), (∃ deck p, list.Points deck p) →
      op.LeavesCursor list → op.StartsFromCursor → list.CursorAllocated :=
    fun op list ⟨_, _, points⟩ _ _ => points.cursorAllocated
  have start := LFList.Points.of_init init
  rw [throughout_iff holds keeps breaks start runs]
  apply and_iff_left_of_imp
  intro each
  exact each.mono allocated (each.throughout keeps start)

/-- The block that was allocated first is freed after the cursor left it. -/
theorem cursor_in_chain_iff_left : ∃ (list : LFList UInt8) (arena : Arena UInt8) (answers : _)
    (ended : LFList UInt8), lfInitArena list.arena = some arena ∧
      run cursorStep [.allocAtTail 3, .allocListElems 3, .getLast, .deallocHeadBlock,
        .getNext ⟨2, 0⟩]
        { list with arena } = some (answers, ended) ∧
      ((Throughout cursorStep LFList.CursorInChain
          [.allocAtTail 3, .allocListElems 3, .getLast, .deallocHeadBlock, .getNext ⟨2, 0⟩]
          { list with arena } ∧
        EachStep cursorStep (fun op list => op.StartsFromCursor → list.CursorAllocated)
          [.allocAtTail 3, .allocListElems 3, .getLast, .deallocHeadBlock, .getNext ⟨2, 0⟩]
          { list with arena }) ↔
      EachStep cursorStep CursorOp.LeavesCursor
          [.allocAtTail 3, .allocListElems 3, .getLast, .deallocHeadBlock, .getNext ⟨2, 0⟩]
          { list with arena }) := by
  let list : LFList UInt8 :=
    { LFList.declared (Allocator.bump 0) 4 1 1 with
      elemPaddedSize := 1, arena := Arena.declared (Allocator.bump 0) 4 .left }
  have ends : ((lfInitArena list.arena).bind fun arena => run cursorStep
      [.allocAtTail 3, .allocListElems 3, .getLast, .deallocHeadBlock, .getNext ⟨2, 0⟩]
      { list with arena }).isSome = true := by
    decide +kernel
  obtain ⟨⟨answers, ended⟩, ends⟩ := Option.isSome_iff_exists.mp ends
  obtain ⟨arena, init, runs⟩ := Option.bind_eq_some_iff.mp ends
  exact ⟨list, arena, answers, ended, init, runs, cursor_in_chain_iff init runs⟩

/-- The cursor of a new arena is at the first block, which is freed after a second one
was opened. -/
theorem cursor_at_freed_block : ∃ (list : LFList UInt8) (arena : Arena UInt8)
    (answers : List (Option Ptr)) (ended : LFList UInt8), lfInitArena list.arena = some arena ∧
      run cursorStep [.allocAtTail 3, .allocAtTail 3, .deallocHeadBlock] { list with arena } =
        some (answers, ended) ∧
      ¬ ended.CursorInChain ∧ CursorOp.StartsFromCursor (.getNext ⟨2, 0⟩) ∧
      ¬ ended.CursorAllocated := by
  let list : LFList UInt8 :=
    { LFList.declared (Allocator.bump 0) 4 1 1 with
      elemPaddedSize := 1, arena := Arena.declared (Allocator.bump 0) 4 .left }
  have ends : ((lfInitArena list.arena).bind fun arena =>
      (run cursorStep [.allocAtTail 3, .allocAtTail 3, .deallocHeadBlock] { list with arena }).bind
        fun reached => (blocksFrom reached.2.arena.heap reached.2.arena.blockCount
          reached.2.arena.headBlock).map fun deck =>
            (reached.2.arena.cursorBlock, ptrs deck, (reached.2.arena.heap.block 0).isNone)) =
      some (some 0, [2], true) := by
    decide +kernel
  obtain ⟨arena, init, ends⟩ := Option.bind_eq_some_iff.mp ends
  obtain ⟨⟨answers, ended⟩, runs, ends⟩ := Option.bind_eq_some_iff.mp ends
  obtain ⟨deck, found, ends⟩ := Option.map_eq_some_iff.mp ends
  obtain ⟨cursor, chain, freed⟩ := Prod.mk.inj ends |>.imp_right Prod.mk.inj
  refine ⟨list, arena, answers, ended, init, runs, ?_, trivial, ?_⟩
  · rintro ⟨p, atCursor, deck', found', member⟩
    obtain rfl := Option.some.inj (cursor.symm.trans atCursor)
    obtain rfl := Option.some.inj (found.symm.trans found')
    rw [chain] at member
    exact absurd member (by decide)
  · rintro ⟨p, node, atCursor, found'⟩
    obtain rfl := Option.some.inj (cursor.symm.trans atCursor)
    simp [found'] at freed

end LowFlow
