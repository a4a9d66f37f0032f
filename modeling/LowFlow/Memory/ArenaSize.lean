import LowFlow.Memory.Regions
import LowFlow.Memory.Stack

/-!
# The size that an arena keeps

An arena adds the bytes it hands out to `size`, and a reset sets it to zero.
Freeing a block takes the whole block off, however much of it is used, and a pop
takes nothing off. So `size` is the number of live bytes throughout a run on an
arena exactly when no block is freed that is not used from end to end, and
throughout a run on a stack exactly when nothing is popped.
-/

set_option autoImplicit false

namespace LowFlow

open Library

variable {β : Type}

/-! ## Live bytes -/

/-- The size of the arena is the number of its live bytes. -/
def Arena.SizeIsLive (arena : Arena β) : Prop :=
  ∃ deck, blocksFrom arena.heap arena.blockCount arena.headBlock = some deck ∧
    arena.size = deck.liveBytes

theorem Represents.sizeIsLive_iff {arena : Arena β} {deck : Deck β} (rep : Represents arena deck) :
    arena.SizeIsLive ↔ arena.size = deck.liveBytes := by
  constructor
  · rintro ⟨deck', found, size⟩
    rw [rep.blocksFrom_eq] at found
    cases found
    exact size
  · exact fun size => ⟨deck, rep.blocksFrom_eq, size⟩

/-- An allocation at the head makes as many bytes live as it hands out. -/
theorem AllocHead.liveBytes {arena : Arena β} {size : ℕ} {deck deck' : Deck β} {ptr : Ptr}
    (alloc : AllocHead arena size deck ptr deck') (bound : size ≤ arena.blockSize)
    (ordered : ∀ entry ∈ deck, entry.2.leftOffset ≤ entry.2.rightOffset) :
    deck'.liveBytes = deck.liveBytes + size := by
  cases alloc with
  | @fits p b rest room =>
      have first : b.leftOffset ≤ b.rightOffset := ordered (p, b) (List.mem_cons_self ..)
      simp only [liveBytes_cons]
      omega
  | opens full =>
      simp only [liveBytes_cons]
      omega

/-- So does an allocation at the tail. -/
theorem AllocTail.liveBytes {arena : Arena β} {size : ℕ} {deck deck' : Deck β} {ptr : Ptr}
    (alloc : AllocTail arena size deck ptr deck')
    (ordered : ∀ entry ∈ deck, entry.2.leftOffset ≤ entry.2.rightOffset) :
    deck'.liveBytes = deck.liveBytes + size := by
  cases alloc with
  | @fits p b front room =>
      have last : b.leftOffset ≤ b.rightOffset := ordered (p, b) (by simp)
      simp only [liveBytes_append, liveBytes_cons, liveBytes_nil]
      omega
  | opens full =>
      simp only [liveBytes_append, liveBytes_cons, liveBytes_nil]
      omega

/-- What is left of a sum when a block of this size is taken off: the rest, exactly
when the whole block was part of the sum. -/
theorem sizeSub_eq_iff {used rest size : ℕ} (bound : used ≤ size) (small : size < sizeModulus) :
    sizeSub (used + rest) size = rest ↔ used = size := by
  constructor
  · intro same
    apply le_antisymm bound
    simp only [sizeSub] at same
    split at same <;> omega
  · rintro rfl
    rw [sizeSub_of_le (Nat.le_add_right ..), Nat.add_sub_cancel_left]

/-- A sum of two sizes is kept exactly when it does not wrap around. -/
theorem sizeWrap_eq_self_iff {n : ℕ} : sizeWrap n = n ↔ n < sizeModulus :=
  ⟨fun same => same ▸ sizeWrap_lt n, sizeWrap_of_lt⟩

namespace Represents

variable {arena : Arena β} {deck : Deck β} {size : ℕ}

/-- After an allocation at the head the size is right when the sum fits. -/
theorem allocAtHead_counts (rep : Represents arena deck) (counted : arena.size = deck.liveBytes)
    (ordered : ∀ entry ∈ deck, entry.2.leftOffset ≤ entry.2.rightOffset) (positive : 0 < size)
    (bound : size ≤ arena.blockSize) :
    ∃ ptr arena' deck', lfArenaAllocAtHead arena size = some (ptr, arena') ∧
      AllocHead arena size deck ptr deck' ∧ Represents arena' deck' ∧
      (arena'.SizeIsLive ↔ arena.size + size < sizeModulus) := by
  obtain ⟨ptr, arena', deck', alloc, change, rep', -, sum⟩ := rep.allocAtHead positive bound
  refine ⟨ptr, arena', deck', alloc, change, rep', ?_⟩
  rw [rep'.sizeIsLive_iff, sum, change.liveBytes bound ordered, ← counted, sizeWrap_eq_self_iff]

/-- So it is after an allocation at the tail. -/
theorem allocAtTail_counts (rep : Represents arena deck) (counted : arena.size = deck.liveBytes)
    (ordered : ∀ entry ∈ deck, entry.2.leftOffset ≤ entry.2.rightOffset) (positive : 0 < size)
    (bound : size ≤ arena.blockSize) :
    ∃ ptr arena', lfArenaAllocAtTail arena size = some (ptr, arena') ∧
      (arena'.SizeIsLive ↔ arena.size + size < sizeModulus) := by
  obtain ⟨ptr, arena', deck', alloc, change, rep', -, sum⟩ := rep.allocAtTail positive bound
  refine ⟨ptr, arena', alloc, ?_⟩
  rw [rep'.sizeIsLive_iff, sum, change.liveBytes ordered, ← counted, sizeWrap_eq_self_iff]

end Represents

/-! ## Runs on an arena -/

/-- The block is used from one end to the other. -/
def Arena.IsFull (arena : Arena β) (block : Option BlockPtr) : Prop :=
  ∃ p b, block = some p ∧ arena.heap.block p = some b ∧ b.leftOffset = 0 ∧ b.rightOffset = b.size

/-- Freeing the block takes more off the size than there is. -/
def Arena.Underflows (arena : Arena β) (block : Option BlockPtr) : Prop :=
  1 < arena.blockCount ∧ ∃ p b, block = some p ∧ arena.heap.block p = some b ∧ arena.size < b.size

/-- The size can be added, and a block that is freed is used from end to end. -/
def ArenaOp.Balanced : ArenaOp → Traced β → Prop
  | .allocAtHead size, t => t.arena.size + size < sizeModulus
  | .allocAtTail size, t => t.arena.size + size < sizeModulus
  | .deallocHeadBlock, t => t.arena.blockCount ≤ 1 ∨ t.arena.IsFull t.arena.headBlock
  | .deallocTailBlock, t => t.arena.blockCount ≤ 1 ∨ t.arena.IsFull t.arena.tailBlock
  | .reset, _ => True

/-- The operation makes the size wrap below zero. -/
def ArenaOp.WrapsBelowZero : ArenaOp → Traced β → Prop
  | .deallocHeadBlock, t => t.arena.Underflows t.arena.headBlock
  | .deallocTailBlock, t => t.arena.Underflows t.arena.tailBlock
  | _, _ => False

namespace Represents

variable {arena : Arena β} {front rest : Deck β} {p : BlockPtr} {b : Slab β}

theorem isFull_iff (rep : Represents arena (front ++ (p, b) :: rest))
    (ordered : b.leftOffset ≤ b.rightOffset) (bound : b.rightOffset ≤ arena.blockSize) :
    arena.IsFull (some p) ↔ b.rightOffset - b.leftOffset = arena.blockSize := by
  have inDeck : (p, b) ∈ front ++ (p, b) :: rest := by simp
  obtain ⟨node, found, rfl⟩ := rep.lookup inDeck
  have sized : node.size = arena.blockSize := rep.sized _ inDeck
  constructor
  · rintro ⟨q, c, same, found', left, right⟩
    cases same
    cases found.symm.trans found'
    omega
  · intro whole
    exact ⟨p, node, rfl, found, by omega, by omega⟩

theorem not_underflows (rep : Represents arena (front ++ (p, b) :: rest))
    (enough : arena.blockSize ≤ arena.size) : ¬ arena.Underflows (some p) := by
  rintro ⟨-, q, c, same, found, less⟩
  have inDeck : (p, b) ∈ front ++ (p, b) :: rest := by simp
  obtain ⟨node, found', rfl⟩ := rep.lookup inDeck
  cases same
  cases found'.symm.trans found
  have sized : c.size = arena.blockSize := rep.sized _ inDeck
  omega

end Represents

/-- The regions of the arena tile its blocks, and its size is the number of its
live bytes. -/
structure Traced.Counted (t : Traced β) (blockSize : ℕ) (deck : Deck β) : Prop where
  tiled : t.Tiled blockSize deck
  size : t.arena.size = deck.liveBytes

namespace Traced.Counted

variable {t t' : Traced β} {blockSize : ℕ} {deck : Deck β} {answer : Option Ptr}

theorem ordered (counted : t.Counted blockSize deck) :
    ∀ entry ∈ deck, entry.2.leftOffset ≤ entry.2.rightOffset :=
  fun _ member => counted.tiled.tiles.left_le member

/-- One operation leads to the live bytes exactly when it is balanced. -/
theorem step_iff (counted : t.Counted blockSize deck) (small : blockSize < sizeModulus)
    {op : ArenaOp} (taken : arenaStep op t = some (answer, t')) :
    t'.arena.SizeIsLive ↔ op.Balanced t := by
  have tiled := counted.tiled
  have rep := tiled.rep
  have same := tiled.same
  have legal := ArenaOp.legal_of_step taken
  cases op with
  | allocAtHead size =>
      obtain ⟨ptr, arena, -, alloc, -, -, counts⟩ :=
        rep.allocAtHead_counts counted.size counted.ordered legal.1 legal.2
      simp only [arenaStep, alloc, Option.bind_eq_bind, Option.bind_some, Option.some.injEq,
        Prod.mk.injEq] at taken
      rw [← taken.2]
      exact counts
  | allocAtTail size =>
      obtain ⟨ptr, arena, alloc, counts⟩ :=
        rep.allocAtTail_counts counted.size counted.ordered legal.1 legal.2
      simp only [arenaStep, alloc, Option.bind_eq_bind, Option.bind_some, Option.some.injEq,
        Prod.mk.injEq] at taken
      rw [← taken.2]
      exact counts
  | deallocHeadBlock =>
      obtain ⟨⟨p, b⟩, rest, rfl⟩ := List.exists_cons_of_ne_nil rep.nonempty
      cases rest with
      | nil =>
          have one : t.arena.blockCount ≤ 1 := le_of_eq rep.count
          simp only [arenaStep, rep.deallocHead_single, Option.bind_eq_bind, Option.bind_some,
            Option.some.injEq, Prod.mk.injEq] at taken
          rw [← taken.2]
          exact iff_of_true (rep.sizeIsLive_iff.mpr counted.size) (.inl one)
      | cons next rest =>
          obtain ⟨arena, dealloc, rep', -, diff, -⟩ := rep.deallocHead
          have several : ¬ t.arena.blockCount ≤ 1 := by simp [rep.count]
          have ordered : b.leftOffset ≤ b.rightOffset := counted.ordered (p, b) (by simp)
          have bound : b.rightOffset ≤ blockSize := tiled.bounded (p, b) (by simp)
          have fits := le_trans (Nat.sub_le b.rightOffset b.leftOffset) (same ▸ bound)
          have full := @Represents.isFull_iff _ _ [] _ _ _ rep ordered (same ▸ bound)
          simp only [arenaStep, dealloc, Option.bind_eq_bind, Option.bind_some,
            Option.some.injEq, Prod.mk.injEq] at taken
          rw [← taken.2, rep'.sizeIsLive_iff, diff, counted.size, liveBytes_cons,
            sizeSub_eq_iff fits (same ▸ small), ArenaOp.Balanced, or_iff_right several,
            rep.head_eq, full]
  | deallocTailBlock =>
      obtain ⟨front, ⟨p, b⟩, rfl⟩ := (List.eq_nil_or_concat' deck).resolve_left rep.nonempty
      rcases List.eq_nil_or_concat' front with rfl | ⟨front, ⟨q, c⟩, rfl⟩
      · have one : t.arena.blockCount ≤ 1 := le_of_eq rep.count
        have single := Represents.deallocTail_single rep
        simp only [arenaStep, single, Option.bind_eq_bind, Option.bind_some,
          Option.some.injEq, Prod.mk.injEq] at taken
        rw [← taken.2]
        exact iff_of_true (rep.sizeIsLive_iff.mpr counted.size) (.inl one)
      · obtain ⟨arena, dealloc, rep', -, diff, -⟩ := rep.deallocTail
        have several : ¬ t.arena.blockCount ≤ 1 := by simp [rep.count]
        have ordered : b.leftOffset ≤ b.rightOffset := counted.ordered (p, b) (by simp)
        have bound : b.rightOffset ≤ blockSize := tiled.bounded (p, b) (by simp)
        have fits := le_trans (Nat.sub_le b.rightOffset b.leftOffset) (same ▸ bound)
        have full := rep.isFull_iff ordered (same ▸ bound)
        have sum : t.arena.size =
            b.rightOffset - b.leftOffset + Deck.liveBytes (front ++ [(q, c)]) := by
          rw [counted.size, liveBytes_append, liveBytes_cons, liveBytes_nil, Nat.add_zero,
            Nat.add_comm]
        simp only [arenaStep, dealloc, Option.bind_eq_bind, Option.bind_some,
          Option.some.injEq, Prod.mk.injEq] at taken
        rw [← taken.2, rep'.sizeIsLive_iff, diff, sum,
          sizeSub_eq_iff fits (same ▸ small), ArenaOp.Balanced, or_iff_right several, rep.tail_eq,
          full]
  | reset =>
      obtain ⟨arena, reset, rep', -, zero⟩ := rep.reset
      simp only [arenaStep, reset, Option.bind_eq_bind, Option.bind_some, Option.some.injEq,
        Prod.mk.injEq] at taken
      rw [← taken.2]
      refine iff_of_true (rep'.sizeIsLive_iff.mpr ?_) trivial
      rw [zero, liveBytes_restart]

/-- A balanced operation keeps the count. -/
theorem step (counted : t.Counted blockSize deck) (small : blockSize < sizeModulus)
    {op : ArenaOp} (balanced : op.Balanced t) (taken : arenaStep op t = some (answer, t')) :
    ∃ deck', t'.Counted blockSize deck' := by
  have legal := ArenaOp.legal_of_step taken
  rw [counted.tiled.same] at legal
  obtain ⟨answer', t'', taken', deck', tiled'⟩ := counted.tiled.step legal
  obtain ⟨-, rfl⟩ := Prod.mk.inj (Option.some.inj (taken.symm.trans taken'))
  refine ⟨deck', tiled', ?_⟩
  exact tiled'.rep.sizeIsLive_iff.mp ((counted.step_iff small taken).mpr balanced)

/-- A balanced operation takes no more off the size than there is. -/
theorem not_wraps (counted : t.Counted blockSize deck) {op : ArenaOp} (balanced : op.Balanced t) :
    ¬ op.WrapsBelowZero t := by
  have rep := counted.tiled.rep
  have same := counted.tiled.same
  cases op with
  | deallocHeadBlock =>
      intro wraps
      have full := balanced.resolve_left (Nat.not_le.mpr wraps.1)
      obtain ⟨⟨p, b⟩, rest, rfl⟩ := List.exists_cons_of_ne_nil rep.nonempty
      have ordered : b.leftOffset ≤ b.rightOffset := counted.ordered (p, b) (by simp)
      have bound : b.rightOffset ≤ blockSize := counted.tiled.bounded (p, b) (by simp)
      have size := counted.size
      rw [ArenaOp.WrapsBelowZero, rep.head_eq] at wraps
      rw [rep.head_eq] at full
      rw [@Represents.isFull_iff _ _ [] _ _ _ rep ordered (same ▸ bound)] at full
      rw [liveBytes_cons] at size
      exact @Represents.not_underflows _ _ [] _ _ _ rep (by dsimp only at size; omega) wraps
  | deallocTailBlock =>
      intro wraps
      have full := balanced.resolve_left (Nat.not_le.mpr wraps.1)
      obtain ⟨front, ⟨p, b⟩, rfl⟩ := (List.eq_nil_or_concat' deck).resolve_left rep.nonempty
      have ordered : b.leftOffset ≤ b.rightOffset := counted.ordered (p, b) (by simp)
      have bound : b.rightOffset ≤ blockSize := counted.tiled.bounded (p, b) (by simp)
      have size := counted.size
      rw [ArenaOp.WrapsBelowZero, rep.tail_eq] at wraps
      rw [rep.tail_eq] at full
      rw [rep.isFull_iff ordered (same ▸ bound)] at full
      rw [liveBytes_append, liveBytes_cons, liveBytes_nil] at size
      exact rep.not_underflows (by dsimp only at size; omega) wraps
  | allocAtHead size => exact id
  | allocAtTail size => exact id
  | reset => exact id

end Traced.Counted

/-! ## Runs on a stack -/

/-- The size can be added, and nothing is popped. -/
def SlotOp.Balanced : SlotOp → Stack β → Prop
  | .allocStackElem, stack => stack.arena.size + stack.elemSize < sizeModulus
  | .popFromStack, stack => stack.elemCount = 0

/-- The operation makes the size wrap below zero: a pop frees an empty head block. -/
def SlotOp.WrapsBelowZero : SlotOp → Stack β → Prop
  | .allocStackElem, _ => False
  | .popFromStack, stack => stack.elemCount ≠ 0 ∧
      (∃ p b, stack.arena.headBlock = some p ∧ stack.arena.heap.block p = some b ∧
        lfIsBlockEmpty b = true) ∧ stack.arena.Underflows stack.arena.headBlock

/-- The size of the stack's arena is the number of its live bytes, and a stack with
elements has one in its head block. -/
structure Stack.Counted (stack : Stack β) (deck : Deck β) : Prop where
  rep : Represents stack.arena deck
  ordered : ∀ entry ∈ deck, entry.2.leftOffset ≤ entry.2.rightOffset
  size : stack.arena.size = deck.liveBytes
  width : 0 < stack.elemPaddedSize
  filled : stack.elemCount ≠ 0 →
    ∃ p b rest, deck = (p, b) :: rest ∧ b.leftOffset ≠ b.rightOffset

namespace Stack.Counted

variable {stack stack' : Stack β} {deck : Deck β} {answer : Option Ptr}

/-- Allocating a slot leads to the live bytes exactly when the size can be added. -/
theorem alloc (counted : stack.Counted deck)
    (taken : slotStep .allocStackElem stack = some (answer, stack')) :
    (stack'.arena.SizeIsLive ↔ SlotOp.Balanced .allocStackElem stack) ∧
      (stack'.arena.SizeIsLive → ∃ deck', stack'.Counted deck') := by
  simp only [slotStep, Option.bind_eq_bind, Option.bind_eq_some_iff, Option.some.injEq,
    Prod.mk.injEq, Prod.exists] at taken
  obtain ⟨ptr, pushed, alloc, -, rfl⟩ := taken
  obtain ⟨positive, bound⟩ := lfAllocStackElem_accepts alloc
  obtain ⟨ptr', arena, deck', alloc', change, rep', counts⟩ :=
    counted.rep.allocAtHead_counts counted.size counted.ordered positive bound
  simp only [lfAllocStackElem, alloc', Option.bind_eq_bind, Option.bind_some, Option.some.injEq,
    Prod.mk.injEq] at alloc
  obtain ⟨-, rfl⟩ := alloc
  refine ⟨counts, fun live =>
    ⟨deck', rep', ?_, rep'.sizeIsLive_iff.mp live, counted.width, fun _ => ?_⟩⟩
  · cases change with
    | fits room =>
        obtain ⟨first, others⟩ := List.forall_mem_cons.mp counted.ordered
        exact List.forall_mem_cons.mpr ⟨le_trans (Nat.sub_le ..) first, others⟩
    | opens full => exact List.forall_mem_cons.mpr ⟨Nat.sub_le .., counted.ordered⟩
  · cases change with
    | @fits p b rest room =>
        have first : b.leftOffset ≤ b.rightOffset := counted.ordered (p, b) (List.mem_cons_self ..)
        refine ⟨p, _, rest, rfl, ?_⟩
        dsimp only
        omega
    | opens full =>
        refine ⟨_, _, _, rfl, ?_⟩
        dsimp only
        omega

/-- A pop takes live bytes away, and leaves the size. -/
theorem pop (counted : stack.Counted deck) (some_elem : stack.elemCount ≠ 0)
    (taken : slotStep .popFromStack stack = some (answer, stack')) : ¬ stack'.arena.SizeIsLive := by
  have width := counted.width
  obtain ⟨p, b, rest, rfl, nonempty⟩ := counted.filled some_elem
  have ordered : b.leftOffset ≤ b.rightOffset := counted.ordered (p, b) (List.mem_cons_self ..)
  have size := lfPopFromStack_size counted.rep nonempty taken
  obtain ⟨popped, pop, rep', -, -⟩ := lfPopFromStack_head some_elem counted.rep nonempty
  obtain ⟨-, rfl⟩ := Prod.mk.inj (Option.some.inj (taken.symm.trans pop))
  rw [rep'.sizeIsLive_iff, size, counted.size, liveBytes_cons, liveBytes_cons, Slab.popped]
  dsimp only
  split <;> omega

theorem init {declared start : Stack β} (init : lfInitStack declared = some start) :
    ∃ deck, start.Counted deck := by
  obtain ⟨positive, some_in_block, padded, width, blocks⟩ := lfInitStack_accepts init
  obtain ⟨arena, initArena, rep, -, -, -, zero⟩ := lfInitArena_spec
    { declared.arena with
      blockSize := sizeWrap (declared.elemQttInBlock * padded), blockOffset := .right } blocks
  have accepted : ¬ (declared.elemSize = 0 ∨ declared.elemQttInBlock = 0) := by omega
  simp only [lfInitStack, accepted, ↓reduceIte, width, initArena, Option.bind_eq_bind,
    Option.bind_some, Option.some.injEq] at init
  subst init
  refine ⟨_, rep, by simp, by simp [zero], Nat.pos_of_ne_zero ?_, by simp⟩
  intro none
  rw [show padded = 0 from none] at blocks
  simp [sizeWrap] at blocks

/-- The size is right throughout a run exactly when all operations are balanced. -/
theorem throughout_iff {start : Stack β} (counted : start.Counted deck) {ops : List SlotOp}
    {answers : List (Option Ptr)} (runs : run slotStep ops start = some (answers, stack')) :
    Throughout slotStep (fun stack => stack.arena.SizeIsLive) ops start ↔
      EachStep slotStep SlotOp.Balanced ops start := by
  have holds : ∀ stack : Stack β, (∃ deck, stack.Counted deck) → stack.arena.SizeIsLive :=
    fun stack ⟨_, counted⟩ => counted.rep.sizeIsLive_iff.mpr counted.size
  refine Library.throughout_iff holds ?_ ?_ ⟨deck, counted⟩ runs
  · rintro op stack answer stack' ⟨deck, counted⟩ balanced taken
    cases op with
    | allocStackElem => exact (counted.alloc taken).2 ((counted.alloc taken).1.mpr balanced)
    | popFromStack =>
        have unchanged := lfPopFromStack_empty (show stack.elemCount = 0 from balanced)
        obtain ⟨-, rfl⟩ := Prod.mk.inj (Option.some.inj (taken.symm.trans unchanged))
        exact ⟨deck, counted⟩
  · rintro op stack answer stack' ⟨deck, counted⟩ unbalanced taken
    cases op with
    | allocStackElem => exact fun live => unbalanced ((counted.alloc taken).1.mp live)
    | popFromStack => exact counted.pop unbalanced taken

end Stack.Counted

/-- **When the size is the number of live bytes.** On an arena, throughout a run, when
no sum wraps around and every block that is freed is used from end to end, and only
then; on a stack, when no sum wraps around and nothing is popped, and only then. -/
theorem size_is_live_iff :
    (∀ arena start : Arena β, arena.blockSize < sizeModulus → lfInitArena arena = some start →
      ∀ ops answers t, run arenaStep ops ⟨start, []⟩ = some (answers, t) →
        (Throughout arenaStep (fun t => t.arena.SizeIsLive) ops ⟨start, []⟩ ∧
            EachStep arenaStep (fun op t => ¬ op.WrapsBelowZero t) ops ⟨start, []⟩ ↔
          EachStep arenaStep ArenaOp.Balanced ops ⟨start, []⟩)) ∧
      ∀ stack start : Stack β, lfInitStack stack = some start →
        ∀ ops answers t, run slotStep ops start = some (answers, t) →
          (Throughout slotStep (fun stack => stack.arena.SizeIsLive) ops start ∧
              EachStep slotStep (fun op stack => ¬ op.WrapsBelowZero stack) ops start ↔
            EachStep slotStep SlotOp.Balanced ops start) := by
  constructor
  · intro arena start small init ops answers t runs
    have positive := lfInitArena_accepts init
    obtain ⟨start', init', rep, same, -, -, zero⟩ := lfInitArena_spec arena positive
    obtain ⟨start'', deck, init'', tiled⟩ := Traced.Tiled.init arena positive
    obtain rfl := Option.some.inj (init'.symm.trans init)
    obtain rfl := Option.some.inj (init'.symm.trans init'')
    have counted : (Traced.mk start' []).Counted arena.blockSize deck := by
      refine ⟨tiled, ?_⟩
      rw [tiled.rep.deck_eq rep]
      simp [zero]
    have keeps : ∀ (op : ArenaOp) (t : Traced β) answer t',
        (∃ deck, t.Counted arena.blockSize deck) → op.Balanced t →
        arenaStep op t = some (answer, t') → ∃ deck, t'.Counted arena.blockSize deck :=
      fun op t answer t' ⟨deck, counted⟩ balanced taken => counted.step small balanced taken
    have holds : ∀ t : Traced β, (∃ deck, t.Counted arena.blockSize deck) → t.arena.SizeIsLive :=
      fun t ⟨_, counted⟩ => counted.tiled.rep.sizeIsLive_iff.mpr counted.size
    have breaks : ∀ (op : ArenaOp) (t : Traced β) answer t',
        (∃ deck, t.Counted arena.blockSize deck) → ¬ op.Balanced t →
        arenaStep op t = some (answer, t') → ¬ t'.arena.SizeIsLive :=
      fun op t answer t' ⟨_, counted⟩ unbalanced taken live =>
        unbalanced ((counted.step_iff small taken).mp live)
    have enough : ∀ (op : ArenaOp) (t : Traced β), (∃ deck, t.Counted arena.blockSize deck) →
        op.Balanced t → ¬ op.WrapsBelowZero t :=
      fun op t ⟨_, counted⟩ balanced => counted.not_wraps balanced
    rw [throughout_iff holds keeps breaks ⟨deck, counted⟩ runs]
    apply and_iff_left_of_imp
    intro each
    exact each.mono enough (each.throughout keeps ⟨deck, counted⟩)
  · intro stack start init ops answers t runs
    obtain ⟨deck, counted⟩ := Stack.Counted.init init
    have sizes := counted.throughout_iff runs
    rw [sizes]
    refine and_iff_left_of_imp fun each => each.mono (fun op stack _ balanced => ?_)
      (sizes.mpr each)
    cases op with
    | allocStackElem => exact id
    | popFromStack => exact fun wraps => wraps.1 balanced

/-- A full block of an arena is freed, and the one slot of a stack is popped. -/
theorem size_is_live_iff_one :
    (∃ start answers t,
      lfInitArena (Arena.declared (Allocator.bump (0 : UInt8)) 8 .left) = some start ∧
      run arenaStep [.allocAtTail 8, .allocAtTail 3, .deallocHeadBlock] ⟨start, []⟩ =
        some (answers, t) ∧
      (Throughout arenaStep (fun t => t.arena.SizeIsLive)
            [.allocAtTail 8, .allocAtTail 3, .deallocHeadBlock] ⟨start, []⟩ ∧
          EachStep arenaStep (fun op t => ¬ op.WrapsBelowZero t)
            [.allocAtTail 8, .allocAtTail 3, .deallocHeadBlock] ⟨start, []⟩ ↔
        EachStep arenaStep ArenaOp.Balanced
          [.allocAtTail 8, .allocAtTail 3, .deallocHeadBlock] ⟨start, []⟩)) ∧
    ∃ start answers stack,
      lfInitStack (Stack.declared (Allocator.bump (0 : UInt8)) 2 1 1) = some start ∧
      run slotStep [.allocStackElem, .popFromStack] start = some (answers, stack) ∧
      (Throughout slotStep (fun stack => stack.arena.SizeIsLive)
            [.allocStackElem, .popFromStack] start ∧
          EachStep slotStep (fun op stack => ¬ op.WrapsBelowZero stack)
            [.allocStackElem, .popFromStack] start ↔
        EachStep slotStep SlotOp.Balanced [.allocStackElem, .popFromStack] start) := by
  constructor
  · have ends : ((lfInitArena (Arena.declared (Allocator.bump (0 : UInt8)) 8 .left)).bind
        fun start => run arenaStep [.allocAtTail 8, .allocAtTail 3, .deallocHeadBlock]
          ⟨start, []⟩).isSome = true := by decide +kernel
    obtain ⟨⟨answers, t⟩, ends⟩ := Option.isSome_iff_exists.mp ends
    obtain ⟨start, init, runs⟩ := Option.bind_eq_some_iff.mp ends
    exact ⟨start, answers, t, init, runs,
      size_is_live_iff.1 _ start (by decide) init _ answers t runs⟩
  · have ends : ((lfInitStack (Stack.declared (Allocator.bump (0 : UInt8)) 2 1 1)).bind
        fun start => run slotStep [.allocStackElem, .popFromStack] start).isSome = true := by
      decide +kernel
    obtain ⟨⟨answers, stack⟩, ends⟩ := Option.isSome_iff_exists.mp ends
    obtain ⟨start, init, runs⟩ := Option.bind_eq_some_iff.mp ends
    exact ⟨start, answers, stack, init, runs, size_is_live_iff.2 _ start init _ answers stack runs⟩

/-- Two blocks, the first one with three bytes used, and eight taken off for it. -/
theorem size_of_half_used_block :
    ∃ start answers t,
      lfInitArena (Arena.declared (Allocator.bump (0 : UInt8)) 8 .left) = some start ∧
      run arenaStep [.allocAtTail 3, .allocAtTail 8, .deallocHeadBlock] ⟨start, []⟩ =
        some (answers, t) ∧
      ¬ t.arena.SizeIsLive := by
  have ends : ((lfInitArena (Arena.declared (Allocator.bump (0 : UInt8)) 8 .left)).bind
      fun start => (run arenaStep [.allocAtTail 3, .allocAtTail 8, .deallocHeadBlock]
        ⟨start, []⟩).bind fun reached => (blocksFrom reached.2.arena.heap
          reached.2.arena.blockCount reached.2.arena.headBlock).map fun deck =>
            (reached.2.arena.size, deck.liveBytes)) = some (3, 8) := by
    decide +kernel
  obtain ⟨start, init, ends⟩ := Option.bind_eq_some_iff.mp ends
  obtain ⟨⟨answers, t⟩, runs, ends⟩ := Option.bind_eq_some_iff.mp ends
  obtain ⟨deck, found, ends⟩ := Option.map_eq_some_iff.mp ends
  obtain ⟨size, live⟩ := Prod.mk.inj ends
  refine ⟨start, answers, t, init, runs, ?_⟩
  rintro ⟨deck', found', same⟩
  obtain rfl := Option.some.inj (found.symm.trans found')
  rw [live] at same
  exact absurd (size.symm.trans same) (by decide)

end LowFlow
