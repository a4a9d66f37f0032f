import LowFlow.Memory.ListsAlike
import LowFlow.Memory.StackRuns

/-!
# What a reset leaves behind

`lf_reset_stack` and `lf_reset_list` empty the blocks and keep the element
count, a `size_t`. A stack that was reset therefore answers as a new one does
exactly when its count is zero. A list has one more way to tell: the blocks it
keeps stay in front of the block that the next elements go to, so its first
element is not found when it goes behind the middle of that block.

The two directions are of different weight. What tells a container from a new one
shows in a call or two. For the other direction a reset container and a new one
are run side by side: their used blocks agree in offsets and in every byte that
was written, and the blocks the reset one has in reserve are empty.
-/

set_option autoImplicit false

namespace LowFlow

open Library

variable {β : Type}

/-! ## Calls on a stack -/

/-- The calls on a stack. -/
inductive StackCall (β : Type) where
  | push (bytes : List β)
  | pop
  | isEmpty
  | elemCount

/-- `elem_count` is a `size_t`. -/
def Stack.wrapCount (stack : Stack β) : Stack β :=
  { stack with elemCount := sizeWrap stack.elemCount }

/-- One call. An element that is pushed has the element size; a pop answers with
what can be read at the pointer it returns. -/
def stackCall : StackCall β → Stack β → Option (Answer β × Stack β)
  | .push bytes, stack => do
      if bytes.length = stack.elemSize then
        let (_, stack) ← stack.push bytes
        some (.done, stack.wrapCount)
      else none
  | .pop, stack => do
      match ← lfPopFromStack stack with
      | (none, stack) => some (.null, stack)
      | (some ptr, stack) => some (.elem (stack.arena.heap.load ptr stack.elemSize), stack)
  | .isEmpty, stack => some (.isEmpty (lfIsStackEmpty stack), stack)
  | .elemCount, stack => some (.count stack.elemCount, stack)

theorem stackCall_push {stack stack' : Stack β} {bytes : List β} {ptr : Ptr}
    (sized : bytes.length = stack.elemSize) (pushed : stack.push bytes = some (ptr, stack')) :
    stackCall (.push bytes) stack = some (.done, stack'.wrapCount) := by
  simp [stackCall, sized, pushed]

/-- What can have happened to a stack: calls, allocations of an element that nothing was
written to, and resets. -/
inductive StackUse (β : Type) where
  | call (op : StackCall β)
  | alloc
  | reset

def stackUse : StackUse β → Stack β → Option (Answer β × Stack β)
  | .call op, stack => stackCall op stack
  | .alloc, stack => do
      let (_, stack) ← lfAllocStackElem stack
      some (.done, stack.wrapCount)
  | .reset, stack => do some (.done, ← lfResetStack stack)

/-- What can have happened to a list. -/
inductive ListUse (β : Type) where
  | call (op : ListCall β)
  | alloc (qtt : ℕ)
  | reset

def listUse : ListUse β → ListInUse β → Option (Answer β × ListInUse β)
  | .call op, t => listCall op t
  | .alloc qtt, t => do
      let (ptr, list) ← lfAllocListElems t.list qtt
      some (.done, ⟨list.wrapCount, t.elems ++ placesFrom list.elemPaddedSize ptr qtt⟩)
  | .reset, t => do some (.done, ⟨← lfResetList t.list, []⟩)

/-! ## Pushing, case by case -/

namespace Stack

variable {stack : Stack β} {p : BlockPtr} {b : Slab β} {rest : Deck β} {bytes : List β}

/-- An element that is larger than a block cannot be pushed. -/
theorem push_refused (large : stack.arena.blockSize < stack.elemSize) (bytes : List β) :
    stack.push bytes = none := by
  simp [push, lfAllocStackElem, lfArenaAllocAtHead, large]

/-- A slot that reaches over the end of its block cannot be written to. -/
theorem push_outside (rep : Represents stack.arena ((p, b) :: rest)) (positive : 0 < stack.elemSize)
    (fits : stack.elemSize ≤ stack.arena.blockSize) (past : stack.arena.blockSize < b.leftOffset)
    (sized : bytes.length = stack.elemSize) : stack.push bytes = none := by
  obtain ⟨ptr, stack', deck', alloc, change, rep', keeps, -⟩ :=
    lfAllocStackElem_spec rep positive fits
  cases change with
  | fits room =>
      have bound : stack'.arena.blockSize = stack.arena.blockSize := keeps.arena.blockSize
      have outside := rep'.store_outside (List.mem_cons_self ..)
        (show stack'.arena.blockSize < b.leftOffset - stack.elemSize + bytes.length by omega)
      simp [push, alloc, store, outside]
  | opens full => omega

/-- A push into the head block. -/
theorem push_fits (rep : Represents stack.arena ((p, b) :: rest)) (positive : 0 < stack.elemSize)
    (fits : stack.elemSize ≤ stack.arena.blockSize) (room : stack.elemSize ≤ b.leftOffset)
    (inside : b.leftOffset ≤ stack.arena.blockSize) (sized : bytes.length = stack.elemSize) :
    ∃ ptr stack', stack.push bytes = some (ptr, stack') ∧
      Represents stack'.arena ((p, Slab.write
        { b with leftOffset := b.leftOffset - stack.elemSize } (b.leftOffset - stack.elemSize)
        bytes) :: rest) ∧
      stack.Keeps stack' ∧ stack'.elemCount = stack.elemCount + 1 := by
  obtain ⟨ptr, stack₁, deck₁, alloc, change, rep₁, keeps₁, count₁⟩ :=
    lfAllocStackElem_spec rep positive fits
  cases change with
  | fits _ =>
      have bound : stack₁.arena.blockSize = stack.arena.blockSize := keeps₁.arena.blockSize
      obtain ⟨stack', stored, rep', keeps, count⟩ := store_spec rep₁ (p := p)
        (by simp) (show b.leftOffset - stack.elemSize + bytes.length ≤ _ by omega)
      rw [modify_cons _ _ _ _ (List.nodup_cons.mp rep₁.distinct).1] at rep'
      exact ⟨⟨p, (b.leftOffset - stack.elemSize : ℕ)⟩, stack', by simp [push, alloc, stored], rep',
        keeps₁.trans keeps, count.trans count₁⟩
  | opens full => omega

/-- A push that opens a block. -/
theorem push_opens (rep : Represents stack.arena ((p, b) :: rest)) (positive : 0 < stack.elemSize)
    (fits : stack.elemSize ≤ stack.arena.blockSize) (full : b.leftOffset < stack.elemSize)
    (sized : bytes.length = stack.elemSize) :
    ∃ ptr stack' q area, stack.push bytes = some (ptr, stack') ∧
      Represents stack'.arena ((q, Slab.write
        ⟨area, stack.arena.blockSize, stack.arena.blockSize - stack.elemSize,
          stack.arena.blockSize⟩ (stack.arena.blockSize - stack.elemSize) bytes) ::
        (p, b) :: rest) ∧
      stack.Keeps stack' ∧ stack'.elemCount = stack.elemCount + 1 := by
  obtain ⟨ptr, stack₁, deck₁, alloc, change, rep₁, keeps₁, count₁⟩ :=
    lfAllocStackElem_spec rep positive fits
  cases change with
  | fits room => omega
  | opens _ =>
      have bound : stack₁.arena.blockSize = stack.arena.blockSize := keeps₁.arena.blockSize
      obtain ⟨stack', stored, rep', keeps, count⟩ := store_spec rep₁
        (p := stack.arena.heap.serial) (by simp)
        (show stack.arena.blockSize - stack.elemSize + bytes.length ≤ _ by omega)
      rw [modify_cons _ _ _ _ (List.nodup_cons.mp rep₁.distinct).1] at rep'
      exact ⟨⟨stack.arena.heap.serial, (stack.arena.blockSize - stack.elemSize : ℕ)⟩, stack', _, _,
        by simp [push, alloc, stored], rep', keeps₁.trans keeps,
        count.trans count₁⟩

end Stack

/-! ## Two stacks side by side -/

/-- Blocks with the same used range that hold the same bytes from there to the
end of the block. -/
structure Alike (blockSize : ℕ) (one two : BlockPtr × Slab β) : Prop where
  left : one.2.leftOffset = two.2.leftOffset
  right : one.2.rightOffset = two.2.rightOffset
  bytes : ∀ i, one.2.leftOffset ≤ i → i < blockSize → one.2.data.byte i = two.2.data.byte i

/-- What two stacks have in common when they are used for the same elements. -/
structure Stack.SameShape (one two : Stack β) : Prop where
  size : one.elemSize = two.elemSize
  padded : one.elemPaddedSize = two.elemPaddedSize
  blocks : one.arena.blockSize = two.arena.blockSize
  positive : 0 < one.elemSize
  width : 0 < one.elemPaddedSize

theorem Stack.SameShape.keeps {one two one' two' : Stack β} (shape : one.SameShape two)
    (first : one.Keeps one') (second : two.Keeps two') : one'.SameShape two' where
  size := first.size.trans (shape.size.trans second.size.symm)
  padded := first.padded.trans (shape.padded.trans second.padded.symm)
  blocks := first.arena.blockSize.trans (shape.blocks.trans second.arena.blockSize.symm)
  positive := first.size ▸ shape.positive
  width := first.padded ▸ shape.width

/-- Two stacks that cannot be told apart. The second has no blocks in reserve.
When both have used up their elements and are popped further, the blocks no
longer agree, but then nothing can be read or written any more. -/
inductive Stack.Agrees (one two : Stack β) : Prop where
  | alive {used spare other : Deck β} (shape : one.SameShape two)
      (count : one.elemCount = two.elemCount) (rep : Represents one.arena (used ++ spare))
      (rep' : Represents two.arena other)
      (alike : List.Forall₂ (Alike one.arena.blockSize) used other)
      (right : ∀ entry ∈ used, one.arena.blockSize ≤ entry.2.rightOffset)
      (empty : ∀ entry ∈ spare, entry.2.leftOffset = one.arena.blockSize ∧
        entry.2.rightOffset = one.arena.blockSize)
  | dead {p q : BlockPtr} {b c : Slab β} {spare : Deck β} (shape : one.SameShape two)
      (count : one.elemCount = two.elemCount) (rep : Represents one.arena ((p, b) :: spare))
      (rep' : Represents two.arena [(q, c)])
      (past : one.arena.blockSize < b.leftOffset ∧ b.leftOffset = b.rightOffset)
      (past' : one.arena.blockSize < c.leftOffset ∧ c.leftOffset = c.rightOffset)
      (empty : ∀ entry ∈ spare, entry.2.leftOffset = one.arena.blockSize ∧
        entry.2.rightOffset = one.arena.blockSize)

namespace Alike

variable {blockSize : ℕ} {p q : BlockPtr} {b c : Slab β}

/-- What is read from the left offset on is the same. -/
theorem read (alike : Alike blockSize (p, b) (q, c)) {n : ℕ}
    (inside : b.leftOffset + n ≤ blockSize) :
    b.data.read b.leftOffset n = c.data.read c.leftOffset n := by
  have left : b.leftOffset = c.leftOffset := alike.left
  apply List.map_congr_left
  intro i member
  have bound := List.mem_range.mp member
  rw [← left]
  exact alike.bytes _ (Nat.le_add_right ..) (by omega)

theorem popped (alike : Alike blockSize (p, b) (q, c)) (width : ℕ) :
    Alike blockSize (p, b.popped width) (q, c.popped width) where
  left := by
    have left : b.leftOffset = c.leftOffset := alike.left
    simp [Slab.popped, left]
  right := by
    have left : b.leftOffset = c.leftOffset := alike.left
    have right : b.rightOffset = c.rightOffset := alike.right
    simp [Slab.popped, left, right]
  bytes := fun i low high => alike.bytes i (le_trans (Nat.le_add_right ..) low) high

/-- Blocks that agree on what they hold agree when the same is written in front of it. -/
theorem pushed {offset : ℕ} (bytes : List β) (left : b.leftOffset = offset)
    (left' : c.leftOffset = offset) (right : b.rightOffset = c.rightOffset)
    (same : ∀ i, offset + bytes.length ≤ i → i < blockSize → b.data.byte i = c.data.byte i) :
    Alike blockSize (p, b.write offset bytes) (q, c.write offset bytes) where
  left := left.trans left'.symm
  right := right
  bytes := by
    intro i low high
    have fromOffset : offset ≤ i := left ▸ low
    simp only [Slab.write, Area.write, fromOffset, ↓reduceIte]
    by_cases new : i - offset < bytes.length
    · simp [new]
    · rw [List.getD_eq_default _ _ (by omega), List.getD_eq_default _ _ (by omega)]
      exact same i (by omega) high

end Alike

namespace Stack.Agrees

variable {one two : Stack β}

theorem sameShape (agrees : one.Agrees two) : one.SameShape two := by
  cases agrees with
  | alive shape => exact shape
  | dead shape => exact shape

theorem count_eq (agrees : one.Agrees two) : one.elemCount = two.elemCount := by
  cases agrees with
  | alive _ count => exact count
  | dead _ count => exact count

/-- The count is read modulo the number of `size_t` values on both sides. -/
theorem wrapCount (agrees : one.Agrees two) : one.wrapCount.Agrees two.wrapCount := by
  cases agrees with
  | alive shape count rep rep' alike right empty =>
      exact .alive ⟨shape.size, shape.padded, shape.blocks, shape.positive, shape.width⟩
        (congrArg sizeWrap count) rep rep' alike right empty
  | dead shape count rep rep' past past' empty =>
      exact .dead ⟨shape.size, shape.padded, shape.blocks, shape.positive, shape.width⟩
        (congrArg sizeWrap count) rep rep' past past' empty

/-- Pushing the same bytes. -/
theorem push (agrees : one.Agrees two) (bytes : List β) :
    (stackCall (.push bytes) one = none ∧ stackCall (.push bytes) two = none) ∨
      ∃ answer one' two', stackCall (.push bytes) one = some (answer, one') ∧
        stackCall (.push bytes) two = some (answer, two') ∧ one'.Agrees two' := by
  have shape := agrees.sameShape
  by_cases sized : bytes.length = one.elemSize
  case neg => exact .inl ⟨by simp [stackCall, sized], by simp [stackCall, ← shape.size, sized]⟩
  have sized' : bytes.length = two.elemSize := sized.trans shape.size
  have positive' : 0 < two.elemSize := shape.size ▸ shape.positive
  by_cases large : one.arena.blockSize < one.elemSize
  · have refused := push_refused large bytes
    have refused' := push_refused (show two.arena.blockSize < two.elemSize by
      rwa [← shape.blocks, ← shape.size]) bytes
    exact .inl ⟨by simp [stackCall, refused], by simp [stackCall, refused']⟩
  have fits := Nat.not_lt.mp large
  have fits' : two.elemSize ≤ two.arena.blockSize := by rwa [← shape.blocks, ← shape.size]
  cases agrees with
  | @dead p q b c spare _ count rep rep' past past' empty =>
      have outside := push_outside rep shape.positive fits past.1 sized
      have outside' := push_outside rep' positive' fits' (shape.blocks ▸ past'.1) sized'
      exact .inl ⟨by simp [stackCall, outside], by simp [stackCall, outside']⟩
  | @alive used spare other _ count rep rep' alike right empty =>
      cases alike with
      | nil => exact absurd rfl rep'.nonempty
      | @cons entry entry' rest rest' first onward =>
      obtain ⟨p, b⟩ := entry
      obtain ⟨q, c⟩ := entry'
      have left : b.leftOffset = c.leftOffset := first.left
      have sameRight : b.rightOffset = c.rightOffset := first.right
      obtain ⟨rightFirst, rightRest⟩ := List.forall_mem_cons.mp right
      rw [List.cons_append] at rep
      by_cases past : one.arena.blockSize < b.leftOffset
      · have outside := push_outside rep shape.positive fits past sized
        have outside' := push_outside rep' positive' fits' (shape.blocks ▸ left ▸ past) sized'
        exact .inl ⟨by simp [stackCall, outside], by simp [stackCall, outside']⟩
      have inside := Nat.not_lt.mp past
      by_cases full : b.leftOffset < one.elemSize
      · -- both open a block
        obtain ⟨ptr, one', r, area, pushed, rep₁, keeps, count₁⟩ :=
          push_opens rep shape.positive fits full sized
        obtain ⟨ptr', two', r', area', pushed', rep₂, keeps', count₂⟩ :=
          push_opens rep' positive' fits' (shape.size ▸ left ▸ full) sized'
        have blocks := keeps.arena.blockSize
        have agrees : one'.Agrees two' := by
          refine .alive (shape.keeps keeps keeps') (by omega)
            (show Represents one'.arena ((_ :: (p, b) :: rest) ++ spare) from rep₁) rep₂ ?_ ?_ ?_
          · rw [blocks, ← shape.blocks, ← shape.size]
            refine .cons (Alike.pushed bytes rfl rfl rfl ?_) (.cons first onward)
            intro i low high
            omega
          · rw [blocks]
            exact List.forall_mem_cons.mpr ⟨le_rfl, right⟩
          · rw [blocks]
            exact empty
        exact .inr ⟨.done, _, _, stackCall_push sized pushed, stackCall_push sized' pushed',
          agrees.wrapCount⟩
      · -- both have room in the head block
        have room := Nat.not_lt.mp full
        obtain ⟨ptr, one', pushed, rep₁, keeps, count₁⟩ :=
          push_fits rep shape.positive fits room inside sized
        obtain ⟨ptr', two', pushed', rep₂, keeps', count₂⟩ :=
          push_fits rep' positive' fits' (shape.size ▸ left ▸ room) (shape.blocks ▸ left ▸ inside)
            sized'
        have blocks := keeps.arena.blockSize
        have agrees : one'.Agrees two' := by
          refine .alive (shape.keeps keeps keeps') (by omega)
            (show Represents one'.arena ((_ :: rest) ++ spare) from rep₁) rep₂ ?_ ?_ ?_
          · rw [blocks, ← shape.size, ← left]
            refine .cons (Alike.pushed bytes rfl rfl sameRight ?_) onward
            intro i low high
            exact first.bytes i (show b.leftOffset ≤ i by omega) high
          · rw [blocks]
            exact List.forall_mem_cons.mpr ⟨rightFirst, rightRest⟩
          · rw [blocks]
            exact empty
        exact .inr ⟨.done, _, _, stackCall_push sized pushed, stackCall_push sized' pushed',
          agrees.wrapCount⟩

/-- What a pop answers once it is known where it looks. -/
theorem pop_answer {stack stack' : Stack β} {ptr : Ptr}
    (popped : lfPopFromStack stack = some (some ptr, stack')) :
    stackCall .pop stack =
      some (.elem (stack'.arena.heap.load ptr stack'.elemSize), stack') := by
  simp [stackCall, popped]

/-- Popping an element that the used blocks hold. -/
theorem pop_head {p q : BlockPtr} {b c : Slab β} {rest rest' spare : Deck β} {one' two' : Stack β}
    (shape : one'.SameShape two') (count : one'.elemCount = two'.elemCount) {width : ℕ}
    (rep : Represents one'.arena ((p, b.popped width) :: (rest ++ spare)))
    (rep' : Represents two'.arena ((q, c.popped width) :: rest'))
    (first : Alike one'.arena.blockSize (p, b) (q, c))
    (onward : List.Forall₂ (Alike one'.arena.blockSize) rest rest')
    (right : ∀ entry ∈ (p, b) :: rest, one'.arena.blockSize ≤ entry.2.rightOffset)
    (empty : ∀ entry ∈ spare, entry.2.leftOffset = one'.arena.blockSize ∧
      entry.2.rightOffset = one'.arena.blockSize) :
    one'.arena.heap.load ⟨p, b.leftOffset⟩ one'.elemSize =
        two'.arena.heap.load ⟨q, c.leftOffset⟩ two'.elemSize ∧ one'.Agrees two' := by
  have left : b.leftOffset = c.leftOffset := first.left
  obtain ⟨rightFirst, rightRest⟩ := List.forall_mem_cons.mp right
  refine ⟨?_, .alive shape count
    (show Represents one'.arena (((p, b.popped width) :: rest) ++ spare) from rep) rep'
    (.cons (first.popped width) onward) (List.forall_mem_cons.mpr ⟨?_, rightRest⟩) empty⟩
  · by_cases inside : b.leftOffset + one'.elemSize ≤ one'.arena.blockSize
    · rw [rep.load (List.mem_cons_self ..) inside,
        rep'.load (List.mem_cons_self ..) (by rwa [← left, ← shape.size, ← shape.blocks]),
        ← shape.size]
      exact congrArg some (first.read inside)
    · have outside := Nat.not_le.mp inside
      rw [rep.load_outside (List.mem_cons_self ..) outside,
        rep'.load_outside (List.mem_cons_self ..) (by rwa [← left, ← shape.size, ← shape.blocks])]
  · refine le_trans rightFirst ?_
    simp only [Slab.popped]
    split <;> omega

/-- An empty block that is popped is used up. -/
theorem popped_over {blockSize width : ℕ} {b : Slab β} (positive : 0 < width)
    (reached : blockSize ≤ b.leftOffset) (empty : b.leftOffset = b.rightOffset) :
    blockSize < (b.popped width).leftOffset ∧
      (b.popped width).leftOffset = (b.popped width).rightOffset := by
  have raised : b.rightOffset < b.leftOffset + width := by omega
  simp only [Slab.popped, raised, ↓reduceIte, and_true]
  omega

/-- Where the used blocks have nothing left, a pop of the reserve and one of the block that
is used up find nothing. -/
theorem pop_spent {p q : BlockPtr} {b c : Slab β} {spare : Deck β} (shape : one.SameShape two)
    (counted : one.elemCount ≠ 0) (count : one.elemCount = two.elemCount)
    (rep : Represents one.arena ((p, b) :: spare)) (rep' : Represents two.arena [(q, c)])
    (past : one.arena.blockSize ≤ b.leftOffset) (same : b.leftOffset = b.rightOffset)
    (past' : one.arena.blockSize ≤ c.leftOffset) (same' : c.leftOffset = c.rightOffset)
    (empty : ∀ entry ∈ spare, entry.2.leftOffset = one.arena.blockSize ∧
      entry.2.rightOffset = one.arena.blockSize) :
    ∃ answer one' two', stackCall .pop one = some (answer, one') ∧
      stackCall .pop two = some (answer, two') ∧ one'.Agrees two' := by
  obtain ⟨two', popped', rep₂, keeps', count₂⟩ := lfPopFromStack_single (count ▸ counted) rep'
  have positive := shape.positive
  have nothing' : two'.arena.heap.load ⟨q, c.leftOffset⟩ two'.elemSize = none :=
    rep₂.load_outside (List.mem_cons_self ..) (by
      have blocks := keeps'.arena.blockSize
      rw [blocks, keeps'.size, ← shape.blocks, ← shape.size]
      omega)
  have usedUp' := popped_over (shape.padded ▸ shape.width) past' same'
  cases spare with
  | nil =>
      obtain ⟨one', popped, rep₁, keeps, count₁⟩ := lfPopFromStack_single counted rep
      have blocks := keeps.arena.blockSize
      have nothing : one'.arena.heap.load ⟨p, b.leftOffset⟩ one'.elemSize = none :=
        rep₁.load_outside (List.mem_cons_self ..) (by rw [blocks, keeps.size]; omega)
      refine ⟨_, one', two', pop_answer popped, ?_, .dead (shape.keeps keeps keeps') (by omega)
        rep₁ rep₂ ?_ ?_ (by simp)⟩
      · rw [pop_answer popped', nothing, nothing']
      · rw [blocks]
        exact popped_over shape.width past same
      · rw [blocks]
        exact usedUp'
  | cons next spare =>
      obtain ⟨r, d⟩ := next
      obtain ⟨reached, emptySpare⟩ := List.forall_mem_cons.mp empty
      obtain ⟨arena, one', rep₀, keeps₀, popped, rep₁, keeps, count₁⟩ :=
        lfPopFromStack_next counted rep same
      have kept := (Keeps.of_arena keeps₀).trans keeps
      have blocks := kept.arena.blockSize
      have nothing : one'.arena.heap.load ⟨r, d.leftOffset⟩ one'.elemSize = none :=
        rep₁.load_outside (List.mem_cons_self ..) (by
          rw [blocks, kept.size, reached.1]
          omega)
      refine ⟨_, one', two', pop_answer popped, ?_, .dead (shape.keeps kept keeps') (by omega)
        rep₁ rep₂ ?_ ?_ ?_⟩
      · rw [pop_answer popped', nothing, nothing']
      · rw [blocks]
        exact popped_over shape.width (le_of_eq reached.1.symm) (reached.1.trans reached.2.symm)
      · rw [blocks]
        exact usedUp'
      · rw [blocks]
        exact emptySpare

/-- Popping both. -/
theorem pop (agrees : one.Agrees two) :
    ∃ answer one' two', stackCall .pop one = some (answer, one') ∧
      stackCall .pop two = some (answer, two') ∧ one'.Agrees two' := by
  by_cases counted : one.elemCount = 0
  · have none := lfPopFromStack_empty counted
    have none' := lfPopFromStack_empty (agrees.count_eq.symm.trans counted)
    exact ⟨.null, one, two, by simp [stackCall, none], by simp [stackCall, none'], agrees⟩
  have counted' : two.elemCount ≠ 0 := agrees.count_eq ▸ counted
  cases agrees with
  | @dead p q b c spare shape count rep rep' past past' empty =>
      exact pop_spent shape counted count rep rep' (Nat.le_of_lt past.1) past.2
        (Nat.le_of_lt past'.1) past'.2
        empty
  | @alive used spare other shape count rep rep' alike right empty =>
      cases alike with
      | nil => exact absurd rfl rep'.nonempty
      | @cons entry entry' rest rest' first onward =>
      obtain ⟨p, b⟩ := entry
      obtain ⟨q, c⟩ := entry'
      have left : b.leftOffset = c.leftOffset := first.left
      have sameRight : b.rightOffset = c.rightOffset := first.right
      rw [List.cons_append] at rep
      by_cases nonempty : b.leftOffset = b.rightOffset
      · cases onward with
        | nil =>
            have reached : one.arena.blockSize ≤ b.leftOffset :=
              nonempty ▸ right (p, b) (List.mem_cons_self ..)
            exact pop_spent shape counted count rep rep' reached nonempty (left ▸ reached)
              (left.symm.trans (nonempty.trans sameRight)) empty
        | @cons next next' rest rest' second onward =>
            obtain ⟨r, d⟩ := next
            obtain ⟨r', d'⟩ := next'
            obtain ⟨arena, one', rep₀, keeps₀, popped, rep₁, keeps, count₁⟩ :=
              lfPopFromStack_next counted rep nonempty
            obtain ⟨arena', two', rep₀', keeps₀', popped', rep₂, keeps', count₂⟩ :=
              lfPopFromStack_next counted' rep' (left.symm.trans (nonempty.trans sameRight))
            have kept := (Keeps.of_arena keeps₀).trans keeps
            have kept' := (Keeps.of_arena keeps₀').trans keeps'
            have blocks := kept.arena.blockSize
            rw [← shape.padded] at rep₂
            obtain ⟨same, agrees'⟩ := pop_head (shape.keeps kept kept') (by omega) rep₁ rep₂
              (by rw [blocks]; exact second) (by rw [blocks]; exact onward)
              (by rw [blocks]; exact (List.forall_mem_cons.mp right).2)
              (by rw [blocks]; exact empty)
            exact ⟨_, one', two', pop_answer popped, by rw [pop_answer popped', same], agrees'⟩
      · obtain ⟨one', popped, rep₁, keeps, count₁⟩ := lfPopFromStack_head counted rep nonempty
        obtain ⟨two', popped', rep₂, keeps', count₂⟩ :=
          lfPopFromStack_head counted' rep' (by rwa [← left, ← sameRight])
        have blocks := keeps.arena.blockSize
        rw [← shape.padded] at rep₂
        obtain ⟨same, agrees'⟩ := pop_head (shape.keeps keeps keeps') (by omega) rep₁ rep₂
          (by rw [blocks]; exact first) (by rw [blocks]; exact onward) (by rw [blocks]; exact right)
          (by rw [blocks]; exact empty)
        exact ⟨_, one', two', pop_answer popped, by rw [pop_answer popped', same], agrees'⟩

/-- **One call** answers alike on both stacks, or fails on both. -/
theorem call (agrees : one.Agrees two) (op : StackCall β) :
    (stackCall op one = none ∧ stackCall op two = none) ∨
      ∃ answer one' two', stackCall op one = some (answer, one') ∧
        stackCall op two = some (answer, two') ∧ one'.Agrees two' := by
  cases op with
  | push bytes => exact agrees.push bytes
  | pop => exact .inr agrees.pop
  | isEmpty =>
      refine .inr ⟨.isEmpty (lfIsStackEmpty one), one, two, rfl, ?_, agrees⟩
      simp [stackCall, lfIsStackEmpty, agrees.count_eq]
  | elemCount =>
      refine .inr ⟨.count one.elemCount, one, two, rfl, ?_, agrees⟩
      simp [stackCall, agrees.count_eq]

end Stack.Agrees

/-! ## Reachable stacks -/

/-- A stack that some calls and resets lead to. -/
def Stack.Reachable (stack : Stack β) : Prop :=
  ∃ declared start ops answers, lfInitStack declared = some start ∧
    run stackUse ops start = some (answers, stack)

/-- A new stack for the same elements. -/
def Stack.IsNewFor (fresh stack : Stack β) : Prop :=
  ∃ declared, lfInitStack declared = some fresh ∧ declared.elemSize = stack.elemSize ∧
    declared.elemAlignment = stack.elemAlignment ∧
    declared.elemQttInBlock = stack.elemQttInBlock

/-- What a stack has at all times. -/
structure Stack.Sound (stack : Stack β) : Prop where
  represents : ∃ deck, Represents stack.arena deck
  positive : 0 < stack.elemSize
  padded : paddedSize stack.elemSize stack.elemAlignment = some stack.elemPaddedSize
  blocks : stack.arena.blockSize = sizeWrap (stack.elemQttInBlock * stack.elemPaddedSize)
  offset : stack.arena.blockOffset = .right

theorem Stack.Sound.keeps {stack stack' : Stack β} {deck : Deck β} (sound : stack.Sound)
    (keeps : stack.Keeps stack') (rep : Represents stack'.arena deck) : stack'.Sound where
  represents := ⟨deck, rep⟩
  positive := keeps.size ▸ sound.positive
  padded := by rw [keeps.size, keeps.alignment, keeps.padded]; exact sound.padded
  blocks := by rw [keeps.arena.blockSize, keeps.qtt, keeps.padded]; exact sound.blocks
  offset := keeps.arena.blockOffset.trans sound.offset

theorem Stack.Sound.wrapCount {stack : Stack β} (sound : stack.Sound) : stack.wrapCount.Sound :=
  ⟨sound.represents, sound.positive, sound.padded, sound.blocks, sound.offset⟩

theorem Stack.Sound.width {stack : Stack β} (sound : stack.Sound) : 0 < stack.elemPaddedSize := by
  obtain ⟨deck, rep⟩ := sound.represents
  apply Nat.pos_of_ne_zero
  intro zero
  have none := sound.blocks
  rw [zero, Nat.mul_zero] at none
  exact absurd none (Nat.ne_of_gt rep.positive)

/-- A new stack is one empty block. -/
theorem Stack.Sound.init {stack start : Stack β} (init : lfInitStack stack = some start) :
    start.Sound ∧ start.elemCount = 0 ∧ start.elemSize = stack.elemSize ∧
      start.elemAlignment = stack.elemAlignment ∧ start.elemQttInBlock = stack.elemQttInBlock ∧
      ∃ p b, Represents start.arena [(p, b)] ∧ b.leftOffset = start.arena.blockSize ∧
        b.rightOffset = start.arena.blockSize := by
  obtain ⟨positive, some_in_block, padded, width, blocks⟩ := lfInitStack_accepts init
  obtain ⟨start', p, b, init', rep, size, offset, left, right, qtt, elem, alignment, same, count⟩ :=
    lfInitStack_spec positive some_in_block width blocks
  obtain rfl : start = start' := Option.some.inj (init.symm.trans init')
  refine ⟨⟨⟨_, rep⟩, elem ▸ positive, ?_, ?_, offset⟩, count, elem, alignment, qtt, p, b, rep, left,
    right⟩
  · rw [elem, alignment, same, width]
  · rw [size, qtt, same]

/-- A call keeps what a stack has at all times. -/
theorem Stack.Sound.call {stack stack' : Stack β} {op : StackUse β} {answer : Answer β}
    (sound : stack.Sound) (called : stackUse op stack = some (answer, stack')) :
    stack'.Sound := by
  obtain ⟨deck, rep⟩ := sound.represents
  obtain ⟨⟨p, b⟩, rest, rfl⟩ := List.exists_cons_of_ne_nil rep.nonempty
  cases op with
  | reset =>
      obtain ⟨reset, done, rep', keeps, -⟩ := lfResetStack_spec rep
      simp only [stackUse, done, Option.bind_eq_bind, Option.bind_some, Option.some.injEq,
        Prod.mk.injEq] at called
      obtain ⟨-, rfl⟩ := called
      exact sound.keeps keeps rep'
  | alloc =>
      by_cases large : stack.arena.blockSize < stack.elemSize
      · simp [stackUse, lfAllocStackElem, lfArenaAllocAtHead, large] at called
      obtain ⟨ptr, next, deck', alloc, -, rep', keeps, -⟩ :=
        lfAllocStackElem_spec rep sound.positive (Nat.not_lt.mp large)
      simp only [stackUse, alloc, Option.bind_eq_bind, Option.bind_some, Option.some.injEq,
        Prod.mk.injEq] at called
      obtain ⟨-, rfl⟩ := called
      exact (sound.keeps keeps rep').wrapCount
  | call op =>
      cases op with
      | isEmpty =>
          cases called
          exact sound
      | elemCount =>
          cases called
          exact sound
      | pop =>
          simp only [stackUse, stackCall, Option.bind_eq_bind, Option.bind_eq_some_iff] at called
          obtain ⟨⟨ptr, next⟩, popped, answered⟩ := called
          obtain rfl : next = stack' := by
            cases ptr <;> exact (Prod.mk.inj (Option.some.inj answered)).2
          rcases lfPopFromStack_cases rep popped with
            ⟨-, -, rfl⟩ | ⟨_, _, _, -, -, -, rep', keeps, -⟩
          · exact sound
          · exact sound.keeps keeps rep'
      | push bytes =>
          by_cases sized : bytes.length = stack.elemSize
          case neg => simp [stackUse, stackCall, sized] at called
          have pushed : stack.push bytes = none ∨ ∃ ptr next deck',
              stack.push bytes = some (ptr, next) ∧ Represents next.arena deck' ∧
                stack.Keeps next := by
            by_cases large : stack.arena.blockSize < stack.elemSize
            · exact .inl (push_refused large bytes)
            have fits := Nat.not_lt.mp large
            by_cases full : b.leftOffset < stack.elemSize
            · obtain ⟨ptr, next, r, area, pushed, rep', keeps, -⟩ :=
                push_opens rep sound.positive fits full sized
              exact .inr ⟨ptr, next, _, pushed, rep', keeps⟩
            by_cases past : stack.arena.blockSize < b.leftOffset
            · exact .inl (push_outside rep sound.positive fits past sized)
            obtain ⟨ptr, next, pushed, rep', keeps, -⟩ := push_fits rep sound.positive fits
              (Nat.not_lt.mp full) (Nat.not_lt.mp past) sized
            exact .inr ⟨ptr, next, _, pushed, rep', keeps⟩
          rcases pushed with none | ⟨ptr, next, deck', pushed, rep', keeps⟩
          · simp [stackUse, stackCall, sized, none] at called
          · rw [stackUse, stackCall_push sized pushed] at called
            cases called
            exact (sound.keeps keeps rep').wrapCount

theorem Stack.Reachable.sound {stack : Stack β} (reachable : stack.Reachable) : stack.Sound := by
  obtain ⟨declared, start, ops, answers, init, runs⟩ := reachable
  exact run_invariant Stack.Sound (fun _ _ _ _ sound called => sound.call called)
    (Stack.Sound.init init).1 runs

/-- A reset stack answers as a new one exactly when it had no elements. -/
theorem Stack.reset_answers_iff {stack fresh : Stack β} (reachable : stack.Reachable)
    (new : fresh.IsNewFor stack) :
    ∃ reset, lfResetStack stack = some reset ∧
      ((∀ ops, (run stackCall ops reset).map Prod.fst = (run stackCall ops fresh).map Prod.fst) ↔
        stack.elemCount = 0) := by
  have sound := reachable.sound
  obtain ⟨deck, rep⟩ := sound.represents
  obtain ⟨reset, done, rep', keeps, count⟩ := lfResetStack_spec rep
  obtain ⟨declared, init, sameSize, sameAlignment, sameQtt⟩ := new
  obtain ⟨soundFresh, countFresh, size, alignment, qtt, q, c, repFresh, left, right⟩ :=
    Stack.Sound.init init
  refine ⟨reset, done, ?_, ?_⟩
  · intro same
    have counts := same [.elemCount]
    simp only [run, stackCall, Option.bind_eq_bind, Option.bind_some, Option.map_some,
      Option.some.injEq, List.cons.injEq, Answer.count.injEq, and_true] at counts
    rw [← count, counts, countFresh]
  · intro none ops
    have soundReset := sound.keeps keeps rep'
    have samePadded : reset.elemPaddedSize = fresh.elemPaddedSize := by
      have one := soundReset.padded
      have two := soundFresh.padded
      rw [keeps.size, keeps.alignment, ← sameSize, ← sameAlignment, ← size, ← alignment, two] at one
      exact (Option.some.inj one).symm
    have sameBlocks : reset.arena.blockSize = fresh.arena.blockSize := by
      rw [soundReset.blocks, soundFresh.blocks, samePadded, keeps.qtt, qtt, sameQtt]
    have shape : reset.SameShape fresh :=
      ⟨keeps.size.trans (sameSize.symm.trans size.symm), samePadded, sameBlocks,
        soundReset.positive, soundReset.width⟩
    have restarted : ∀ entry ∈ deck.restart (startOffset stack.arena.blockOffset
        stack.arena.blockSize), entry.2.leftOffset = reset.arena.blockSize ∧
        entry.2.rightOffset = reset.arena.blockSize := by
      intro entry member
      obtain ⟨old, -, rfl⟩ := List.mem_map.mp member
      rw [sound.offset, keeps.arena.blockSize]
      exact ⟨rfl, rfl⟩
    obtain ⟨⟨p, b⟩, spare, split⟩ := List.exists_cons_of_ne_nil rep'.nonempty
    rw [split] at rep' restarted
    obtain ⟨first, others⟩ := List.forall_mem_cons.mp restarted
    have agrees : reset.Agrees fresh := by
      refine .alive shape (by rw [count, none, countFresh])
        (show Represents reset.arena ([(p, b)] ++ spare) from rep') repFresh (.cons ?_ .nil) ?_
        others
      · refine ⟨first.1.trans (sameBlocks.trans left.symm),
          first.2.trans (sameBlocks.trans right.symm), ?_⟩
        intro i low high
        exact absurd (first.1 ▸ low) (Nat.not_le.mpr high)
      · exact List.forall_mem_singleton.mpr (le_of_eq first.2.symm)
    exact run_answers Stack.Agrees (fun op _ _ agrees => agrees.call op) ops agrees

/-! ## Reachable lists -/

/-- A list that some calls and resets lead to. -/
def ListInUse.Reachable (t : ListInUse β) : Prop :=
  ∃ declared start ops answers, lfInitList declared = some start ∧
    run listUse ops ⟨start, []⟩ = some (answers, t)

/-- A new list for the same elements. -/
def LFList.IsNewFor (fresh list : LFList β) : Prop :=
  ∃ declared, lfInitList declared = some fresh ∧ declared.elemSize = list.elemSize ∧
    declared.elemAlignment = list.elemAlignment ∧ declared.elemQttInBlock = list.elemQttInBlock

/-- A list without elements that was never used. -/
structure LFList.Unused (list : LFList β) : Prop where
  count : list.elemCount = 0
  cursor : list.arena.cursorBlock = list.arena.headBlock
  block : ∃ p b, Represents list.arena [(p, b)] ∧
    b.leftOffset = startOffset .middle list.arena.blockSize ∧
    b.rightOffset = startOffset .middle list.arena.blockSize

/-- What the fields of a list have in common with those of its declaration. -/
structure LFList.SameFields (list list' : LFList β) : Prop where
  size : list'.elemSize = list.elemSize
  alignment : list'.elemAlignment = list.elemAlignment
  padded : list'.elemPaddedSize = list.elemPaddedSize
  qtt : list'.elemQttInBlock = list.elemQttInBlock
  blocks : list'.arena.blockSize = list.arena.blockSize
  offset : list'.arena.blockOffset = list.arena.blockOffset

/-- What a list in use has at all times. -/
structure ListInUse.Sound (t : ListInUse β) : Prop where
  points : ∃ deck p, t.list.Points deck p
  positive : 0 < t.list.elemSize
  padded : paddedSize t.list.elemSize t.list.elemAlignment = some t.list.elemPaddedSize
  blocks : t.list.arena.blockSize = sizeWrap (t.list.elemQttInBlock * t.list.elemPaddedSize)
  offset : t.list.arena.blockOffset = .middle

theorem ListInUse.Sound.same {t : ListInUse β} (sound : t.Sound) {list : LFList β}
    {elems : List Ptr} {deck : Deck β} {p : BlockPtr} (same : t.list.SameFields list)
    (points : list.Points deck p) : (⟨list, elems⟩ : ListInUse β).Sound where
  points := ⟨deck, p, points⟩
  positive := same.size ▸ sound.positive
  padded := by rw [same.size, same.alignment, same.padded]; exact sound.padded
  blocks := by rw [same.blocks, same.qtt, same.padded]; exact sound.blocks
  offset := same.offset.trans sound.offset

/-- Elements have a size, as blocks have. -/
theorem ListInUse.Sound.width {t : ListInUse β} (sound : t.Sound) : 0 < t.list.elemPaddedSize := by
  obtain ⟨deck, p, points⟩ := sound.points
  apply Nat.pos_of_ne_zero
  intro zero
  have none := sound.blocks
  rw [zero, Nat.mul_zero] at none
  exact absurd none (Nat.ne_of_gt points.rep.positive)

/-- A list is initialized only with elements and room for them. -/
theorem lfInitList_accepts {list start : LFList β} (init : lfInitList list = some start) :
    0 < list.elemSize ∧ 0 < list.elemQttInBlock ∧ ∃ padded,
      paddedSize list.elemSize list.elemAlignment = some padded ∧
      0 < sizeWrap (list.elemQttInBlock * padded) := by
  obtain ⟨positive, some_in_block, padded, arena, width, initArena, -⟩ := lfInitList_eq_some init
  exact ⟨positive, some_in_block, padded, width, lfInitArena_accepts initArena⟩

/-- A new list is unused. -/
theorem LFList.Unused.init {list start : LFList β} (init : lfInitList list = some start) :
    start.Unused ∧ start.elemSize = list.elemSize ∧ start.elemAlignment = list.elemAlignment ∧
      start.elemQttInBlock = list.elemQttInBlock ∧ 0 < start.elemSize ∧
      paddedSize start.elemSize start.elemAlignment = some start.elemPaddedSize ∧
      start.arena.blockSize = sizeWrap (start.elemQttInBlock * start.elemPaddedSize) ∧
      start.arena.blockOffset = .middle := by
  obtain ⟨positive, some_in_block, padded, width, blocks⟩ := lfInitList_accepts init
  obtain ⟨start', p, b, init', rep, size, offset, cursor, left, right, qtt, elem, alignment, same,
    count⟩ := lfInitList_spec list positive some_in_block width blocks
  obtain rfl : start = start' := Option.some.inj (init.symm.trans init')
  refine ⟨⟨count, cursor.trans rep.head_eq.symm, p, b, rep, left, right⟩, elem, alignment, qtt,
    elem ▸ positive, ?_, ?_, offset⟩
  · rw [elem, alignment, same, width]
  · rw [size, qtt, same]

/-- A lookup changes nothing but the cursor. -/
theorem lfGetNextListElem_cursor {list list' : LFList β} {elem : Ptr} {answer : Option Ptr}
    (found : lfGetNextListElem list elem = some (answer, list')) :
    ∃ cursorBlock, list' = list.withCursor cursorBlock := by
  simp only [lfGetNextListElem, Option.bind_eq_bind, Option.bind_eq_some_iff] at found
  obtain ⟨address, -, start, -, curBlock, -, rest⟩ := found
  cases curBlock with
  | none =>
      cases rest
      exact ⟨_, rfl⟩
  | some p =>
      obtain ⟨node, -, rest⟩ := Option.bind_eq_some_iff.mp rest
      split at rest
      · cases rest
        exact ⟨_, rfl⟩
      · cases next : node.next with
        | none =>
            rw [next] at rest
            cases rest
            exact ⟨_, rfl⟩
        | some nextBlock =>
            rw [next] at rest
            obtain ⟨_, -, rest⟩ := Option.bind_eq_some_iff.mp rest
            cases rest
            exact ⟨_, rfl⟩

/-- Writing new elements keeps the blocks. -/
theorem Represents.of_storeElems {width : ℕ} {values : List (List β)} {arena : Arena β}
    {deck : Deck β} (rep : Represents arena deck) {p : BlockPtr} (member : p ∈ ptrs deck)
    {offset : ℕ} {heap : Heap β}
    (stored : storeElems width arena.heap ⟨p, offset⟩ values = some heap) :
    ∃ deck', Represents { arena with heap } deck' ∧ arena.Keeps { arena with heap } ∧
      ptrs deck' = ptrs deck := by
  induction values generalizing arena deck offset with
  | nil =>
      cases stored
      exact ⟨deck, rep, .refl _, rfl⟩
  | cons value values ih =>
      obtain ⟨⟨q, b⟩, inDeck, rfl⟩ := List.mem_map.mp member
      by_cases inside : offset + value.length ≤ arena.blockSize
      · obtain ⟨heap₁, first, rep₁, keeps₁⟩ := rep.store member inside
        simp only [storeElems, first, Option.bind_eq_bind, Option.bind_some] at stored
        obtain ⟨deck', rep', keeps, same⟩ := ih rep₁ (by simpa using member) stored
        exact ⟨deck', rep', keeps₁.trans keeps, same.trans (ptrs_modify ..)⟩
      · have outside := rep.store_outside inDeck (Nat.not_le.mp inside)
        simp [storeElems, outside] at stored

theorem LFList.Points.wrapCount {list : LFList β} {deck : Deck β} {p : BlockPtr}
    (points : list.Points deck p) : list.wrapCount.Points deck p :=
  ⟨points.rep, points.cursor, points.member⟩

namespace ListInUse.Sound

variable {t t' : ListInUse β}

/-- What an allocation of elements changes. -/
theorem allocElems (sound : t.Sound) {qtt : ℕ} {ptr : Ptr} {list' : LFList β}
    (allocated : lfAllocListElems t.list qtt = some (ptr, list')) :
    t.list.SameFields list' ∧ (∃ offset : ℕ, ptr.offset = offset) ∧
      ∃ deck p, list'.Points deck p ∧ ptr.block ∈ ptrs deck := by
  obtain ⟨deck, p, points⟩ := sound.points
  obtain ⟨-, arena, alloc, rfl⟩ := lfAllocListElems_eq_some allocated
  obtain ⟨-, -, deck', change, rep', keeps, -⟩ := points.rep.of_allocAtTail alloc
  have kept := change.carries.mem_ptrs points.member
  obtain ⟨front, q, b, offset, rfl, rfl, -⟩ := change.last
  exact ⟨⟨rfl, rfl, rfl, rfl, keeps.blockSize, keeps.blockOffset⟩, ⟨offset, rfl⟩, _, p,
    ⟨rep', keeps.cursor.trans points.cursor, kept⟩, by simp⟩

/-- Pushing elements. -/
theorem push (sound : t.Sound) {values : List (List β)} {ptr : Ptr} {list' : LFList β}
    (pushed : t.list.push values = some (ptr, list')) :
    t.list.SameFields list' ∧ ∃ deck p, list'.Points deck p := by
  simp only [LFList.push, Option.bind_eq_bind, Option.bind_eq_some_iff, Option.some.injEq,
    Prod.mk.injEq, Prod.exists] at pushed
  obtain ⟨⟨q, start⟩, between, allocated, heap, stored, -, rfl⟩ := pushed
  obtain ⟨same, ⟨offset, rfl⟩, deck, p, points, member⟩ := sound.allocElems allocated
  obtain ⟨deck', rep', keeps, ptrs_eq⟩ := points.rep.of_storeElems member stored
  exact ⟨⟨same.size, same.alignment, same.padded, same.qtt, same.blocks, same.offset⟩, deck', p,
    rep', points.cursor, ptrs_eq ▸ points.member⟩

/-- A list in use whose cursor was moved. -/
theorem moved (sound : t.Sound) {deck : Deck β} (rep : Represents t.list.arena deck)
    {p : BlockPtr} (member : p ∈ ptrs deck) :
    (⟨t.list.withCursor (some p), t.elems⟩ : ListInUse β).Sound :=
  sound.same ⟨rfl, rfl, rfl, rfl, rfl, rfl⟩ ⟨rep.withCursor _, rfl, member⟩

theorem call (sound : t.Sound) {op : ListCall β} {answer : Answer β}
    (called : listCall op t = some (answer, t')) : t'.Sound := by
  obtain ⟨deck, p, points⟩ := sound.points
  have rep := points.rep
  cases op with
  | alloc values =>
      simp only [listCall, Option.bind_eq_bind] at called
      split at called
      · obtain ⟨⟨ptr, list'⟩, pushed, same⟩ := Option.bind_eq_some_iff.mp called
        cases same
        obtain ⟨fields, deck', p', points'⟩ := sound.push pushed
        exact sound.same ⟨fields.size, fields.alignment, fields.padded, fields.qtt, fields.blocks,
          fields.offset⟩ points'.wrapCount
      · cases called
  | elemCount =>
      cases called
      exact sound
  | getFirst =>
      by_cases counted : t.list.elemCount = 0
      · rw [(listCall_nothing counted).1] at called
        cases called
        exact sound
      · obtain ⟨⟨q, b⟩, rest, rfl⟩ := List.exists_cons_of_ne_nil rep.nonempty
        rw [listCall_getFirst counted rep] at called
        cases called
        exact sound.moved rep (by simp)
  | getLast =>
      by_cases counted : t.list.elemCount = 0
      · rw [(listCall_nothing counted).2] at called
        cases called
        exact sound
      · obtain ⟨front, ⟨q, b⟩, rfl⟩ := (List.eq_nil_or_concat' deck).resolve_left rep.nonempty
        rw [listCall_getLast counted rep] at called
        cases called
        exact sound.moved rep (by simp)
  | getNext k =>
      simp only [listCall, Option.bind_eq_bind, Option.bind_eq_some_iff] at called
      obtain ⟨elem, here, ⟨ptr, list'⟩, found, same⟩ := called
      cases same
      obtain ⟨q, points'⟩ := points.getNext found
      obtain ⟨cursorBlock, rfl⟩ := lfGetNextListElem_cursor found
      exact sound.same ⟨rfl, rfl, rfl, rfl, rfl, rfl⟩ points'

/-- A call, an allocation or a reset keeps what a list has at all times. -/
theorem use (sound : t.Sound) {op : ListUse β} {answer : Answer β}
    (called : listUse op t = some (answer, t')) : t'.Sound := by
  obtain ⟨deck, p, points⟩ := sound.points
  cases op with
  | call op => exact sound.call called
  | alloc qtt =>
      simp only [listUse, Option.bind_eq_bind] at called
      obtain ⟨⟨ptr, list'⟩, allocated, same⟩ := Option.bind_eq_some_iff.mp called
      cases same
      obtain ⟨fields, -, deck', p', points', -⟩ := sound.allocElems allocated
      exact sound.same ⟨fields.size, fields.alignment, fields.padded, fields.qtt, fields.blocks,
        fields.offset⟩ points'.wrapCount
  | reset =>
      obtain ⟨arena, done, rep', keeps, -⟩ := points.rep.reset
      simp only [listUse, lfResetList, done, Option.bind_eq_bind, Option.bind_some,
        Option.some.injEq, Prod.mk.injEq] at called
      obtain ⟨-, rfl⟩ := called
      exact sound.same ⟨rfl, rfl, rfl, rfl, keeps.blockSize, keeps.blockOffset⟩
        ⟨rep', keeps.cursor.trans points.cursor, by simpa using points.member⟩

end ListInUse.Sound

/-- A new list is sound. -/
theorem LFList.Unused.sound {list start : LFList β} (init : lfInitList list = some start) :
    (⟨start, []⟩ : ListInUse β).Sound := by
  obtain ⟨unused, -, -, -, positive, padded, blocks, offset⟩ := LFList.Unused.init init
  obtain ⟨p, b, rep, -⟩ := unused.block
  exact ⟨⟨_, p, rep, unused.cursor.trans rep.head_eq, by simp⟩, positive, padded, blocks, offset⟩

theorem ListInUse.Reachable.sound {t : ListInUse β} (reachable : t.Reachable) : t.Sound := by
  obtain ⟨declared, start, ops, answers, init, runs⟩ := reachable
  exact run_invariant ListInUse.Sound (fun _ _ _ _ sound called => sound.use called)
    (LFList.Unused.sound init) runs

/-! ## Telling a reset list from a new one -/

/-- An element that is pushed behind the middle of an empty last block. -/
theorem LFList.push_middle {list : LFList β} {front : Deck β} {p : BlockPtr} {b : Slab β}
    (rep : Represents list.arena (front ++ [(p, b)]))
    (right : b.rightOffset = startOffset .middle list.arena.blockSize) (fits : list.MiddleFits)
    (width : 0 < list.elemPaddedSize) (small : list.elemPaddedSize < sizeModulus) {value : List β}
    (sized : value.length = list.elemSize) :
    ∃ list' c, list.push [value] =
        some (⟨p, (startOffset .middle list.arena.blockSize : ℕ)⟩, list') ∧
      Represents list'.arena (front ++ [(p, c)]) ∧ c.leftOffset = b.leftOffset ∧
      list'.elemCount = list.elemCount + 1 ∧
      list'.arena.heap.load ⟨p, (startOffset .middle list.arena.blockSize : ℕ)⟩ list'.elemSize =
        some value := by
  obtain ⟨fitsElem, fitsPadded⟩ := fits
  obtain ⟨ptr, arena, deck, alloc, change, rep₁, keeps, -⟩ :=
    rep.allocAtTail width (show list.elemPaddedSize ≤ list.arena.blockSize by omega)
  have size : b.size = list.arena.blockSize := rep.sized (p, b) (by simp)
  have room : list.elemPaddedSize ≤ sizeSub b.size b.rightOffset := by
    rw [size, right, sizeSub_of_le (startOffset_le ..)]
    omega
  rcases change.at_last with ⟨-, rfl, rfl⟩ | ⟨full, -⟩
  case inr => omega
  rw [right] at alloc
  have inside : startOffset .middle list.arena.blockSize + value.length ≤ arena.blockSize := by
    rw [keeps.blockSize, sized]
    exact fitsElem
  obtain ⟨heap, stored, rep₂, -⟩ := rep₁.store (p := p) (by simp) inside
  have distinct := rep.distinct
  rw [ptrs, List.map_append] at distinct
  have missing : p ∉ ptrs front := fun old => List.disjoint_of_nodup_append distinct old (by simp)
  rw [modify_concat _ _ _ _ missing] at rep₂
  refine ⟨{ list with arena := { arena with heap }, elemCount := list.elemCount + 1 }, _, ?_, rep₂,
    rfl, rfl, ?_⟩
  · rw [list.push_eq (List.cons_ne_nil value [])
      (show lfArenaAllocAtTail list.arena (sizeWrap (1 * list.elemPaddedSize)) = _ by
        rw [Nat.one_mul, sizeWrap_of_lt small]
        exact alloc)]
    simp [storeElems, stored]
  · have read := rep₂.load (List.mem_append_right _ (List.mem_singleton_self _)) inside
    rw [sized] at read
    refine read.trans (congrArg some ?_)
    rw [← sized]
    exact Area.read_write_same _ _ value

/-- The first element that is pushed behind the middle of the last block is found as the first
one exactly when there is no block before. -/
theorem LFList.first_of_push (list : LFList β) {front : Deck β} {p : BlockPtr} {b : Slab β}
    (rep : Represents list.arena (front ++ [(p, b)]))
    (left : b.leftOffset = startOffset .middle list.arena.blockSize)
    (right : b.rightOffset = startOffset .middle list.arena.blockSize) (fits : list.MiddleFits)
    (count : list.elemCount = 0) (width : 0 < list.elemPaddedSize)
    (small : list.elemPaddedSize < sizeModulus) {value : List β}
    (sized : value.length = list.elemSize) :
    (run listCall [.alloc [value], .getFirst] ⟨list, []⟩).map Prod.fst =
      some [.done, .elem (if front = [] then some value else none)] := by
  obtain ⟨list', c, pushed, rep', sameLeft, count', load⟩ :=
    LFList.push_middle rep right fits width small sized
  have counted : list'.wrapCount.elemCount ≠ 0 := by
    change sizeWrap list'.elemCount ≠ 0
    rw [count', count]
    decide
  obtain ⟨⟨q, d⟩, rest, split⟩ := List.exists_cons_of_ne_nil rep'.nonempty
  have first := listCall_getFirst (t := ⟨list'.wrapCount,
    [⟨p, (startOffset .middle list.arena.blockSize : ℕ)⟩]⟩) counted (split ▸ rep')
  have alloc := listCall_alloc (t := ⟨list, []⟩)
    (show ∀ v ∈ [value], v.length = list.elemSize by simpa using sized) pushed
  have answers := run_cons alloc (run_cons first (run_nil _))
  rw [answers, Option.map_some, ListInUse.answer]
  refine congrArg (fun bytes => some [Answer.done, Answer.elem bytes]) ?_
  cases front with
  | nil =>
      obtain ⟨same, -⟩ := List.cons.inj split
      cases same
      rw [sameLeft, left, if_pos (List.mem_singleton_self _), if_pos rfl]
      exact load
  | cons entry front =>
      obtain ⟨rfl, -⟩ := List.cons.inj split
      have other : q ≠ p := by
        have distinct := rep.distinct
        simp only [ptrs, List.cons_append, List.map_cons, List.nodup_cons, List.map_append,
          List.mem_append, not_or] at distinct
        intro same
        exact distinct.1.2 (by simp [same])
      simp [other]

/-- A new list for the same elements has the same sizes. -/
theorem LFList.IsNewFor.shape {t : ListInUse β} {fresh : LFList β} (sound : t.Sound)
    (new : fresh.IsNewFor t.list) :
    fresh.Unused ∧ fresh.elemSize = t.list.elemSize ∧
      fresh.elemPaddedSize = t.list.elemPaddedSize ∧
      fresh.arena.blockSize = t.list.arena.blockSize := by
  obtain ⟨declared, init, sameSize, sameAlignment, sameQtt⟩ := new
  obtain ⟨unused, size, alignment, qtt, -, padded, blocks, -⟩ := LFList.Unused.init init
  have samePadded : fresh.elemPaddedSize = t.list.elemPaddedSize := by
    have one := sound.padded
    rw [← sameSize, ← sameAlignment, ← size, ← alignment, padded] at one
    exact Option.some.inj one
  exact ⟨unused, size.trans sameSize, samePadded, by
    rw [blocks, sound.blocks, samePadded, qtt, sameQtt]⟩

/-- A list that was reset and a new one cannot be told apart, when the blocks that the first
keeps do not matter. -/
theorem LFList.reset_agrees {t : ListInUse β} {fresh : LFList β} (sound : t.Sound)
    (new : fresh.IsNewFor t.list) {deck : Deck β} {cursor : BlockPtr}
    (points : t.list.Points deck cursor) {arena : Arena β} (keeps : t.list.arena.Keeps arena)
    (rep : Represents arena
      (deck.restart (startOffset t.list.arena.blockOffset t.list.arena.blockSize)))
    (count : t.list.elemCount = 0) (only : deck.length = 1 ∨ ¬ t.list.MiddleFits) :
    (⟨{ t.list with arena }, []⟩ : ListInUse β).Agrees ⟨fresh, []⟩ := by
  obtain ⟨unused, size, padded, blocks⟩ := new.shape sound
  obtain ⟨q, c, repFresh, left, right⟩ := unused.block
  have sameBlocks : arena.blockSize = t.list.arena.blockSize := keeps.blockSize
  have atCursor : arena.cursorBlock = some cursor := keeps.cursor.trans points.cursor
  have freshCursor : fresh.arena.cursorBlock = some q := unused.cursor.trans repFresh.head_eq
  rw [blocks] at left right
  rw [sound.offset] at rep
  have restarted : ∀ entry ∈ deck.restart (startOffset .middle t.list.arena.blockSize),
      entry.2.leftOffset = startOffset .middle t.list.arena.blockSize ∧
        entry.2.rightOffset = startOffset .middle t.list.arena.blockSize := by
    intro entry member
    obtain ⟨old, -, rfl⟩ := List.mem_map.mp member
    exact ⟨rfl, rfl⟩
  have inDeck : cursor ∈ ptrs (deck.restart (startOffset .middle t.list.arena.blockSize)) := by
    simpa using points.member
  -- a single block is paired with the new one, several blocks stay idle
  rcases only with single | noRoom
  · obtain ⟨⟨p, b⟩, rfl⟩ := List.length_eq_one_iff.mp single
    obtain rfl : cursor = p := by simpa using points.member
    refine ⟨[], [], [((cursor, b.restart (startOffset .middle t.list.arena.blockSize)), (q, c))], {
      size := size
      padded := padded
      blocks := blocks.trans sameBlocks.symm
      positive := sound.positive
      width := sound.width
      small := paddedSize_lt sound.padded
      count := unused.count.trans count.symm
      rep := rep
      rep' := repFresh
      left := List.forall_mem_singleton.mpr left
      right := List.forall_mem_singleton.mpr right
      bounded := List.forall_mem_singleton.mpr ?_
      empty := by simp
      reserve := .inl ⟨rfl, rfl⟩
      cursor := ⟨cursor, q, atCursor, freshCursor, .inr ⟨_, List.mem_singleton_self _, rfl, rfl⟩⟩
      elems := .nil }⟩
    rw [sameBlocks]
    exact startOffset_le .middle t.list.arena.blockSize
  · refine ⟨deck.restart (startOffset .middle t.list.arena.blockSize), [(q, c)], [], {
      size := size
      padded := padded
      blocks := blocks.trans sameBlocks.symm
      positive := sound.positive
      width := sound.width
      small := paddedSize_lt sound.padded
      count := unused.count.trans count.symm
      rep := by simpa using rep
      rep' := repFresh
      left := by simp
      right := by simp
      bounded := by simp
      empty := ?_
      reserve := .inr ⟨rep.nonempty, by simp, ?_⟩
      cursor := ⟨cursor, q, atCursor, freshCursor, .inl ⟨inDeck, by simp⟩⟩
      elems := .nil }⟩
    · rw [sameBlocks]
      exact List.forall_mem_append.mpr ⟨restarted, List.forall_mem_singleton.mpr ⟨left, right⟩⟩
    · simpa only [LFList.MiddleFits, sameBlocks] using noRoom

/-- A reset list answers as a new one exactly when its count is zero and the blocks that it
keeps do not matter. -/
theorem LFList.reset_answers_iff {t : ListInUse β} {fresh : LFList β} (reachable : t.Reachable)
    (new : fresh.IsNewFor t.list) :
    ∃ reset, lfResetList t.list = some reset ∧
      ((∀ ops, (run listCall ops ⟨reset, []⟩).map Prod.fst =
        (run listCall ops ⟨fresh, []⟩).map Prod.fst) ↔
        t.list.elemCount = 0 ∧ (t.list.arena.blockCount = 1 ∨ ¬ t.list.MiddleFits)) := by
  have sound := reachable.sound
  obtain ⟨deck, cursor, points⟩ := sound.points
  obtain ⟨arena, done, rep', keeps, -⟩ := points.rep.reset
  have reset : lfResetList t.list = some { t.list with arena } := by simp [lfResetList, done]
  obtain ⟨unused, size, padded, blocks⟩ := new.shape sound
  rw [points.rep.count]
  refine ⟨_, reset, ?_, fun ⟨count, only⟩ ops => ?_⟩
  · intro same
    have count : t.list.elemCount = 0 := by
      have counts := same [.elemCount]
      simp only [run, listCall, Option.bind_eq_bind, Option.bind_some, Option.map_some,
        Option.some.injEq, List.cons.injEq, Answer.count.injEq, and_true] at counts
      rw [counts, unused.count]
    refine ⟨count, or_iff_not_imp_right.mpr ?_⟩
    intro fits
    replace fits := not_not.mp fits
    obtain ⟨q, c, repFresh, left, right⟩ := unused.block
    obtain ⟨front, ⟨p, b⟩, rfl⟩ := (List.eq_nil_or_concat' deck).resolve_left points.rep.nonempty
    have sized : (c.data.read 0 t.list.elemSize).length = t.list.elemSize := by simp
    have small := paddedSize_lt sound.padded
    -- a first element behind the middle is found on the new list
    have found := LFList.first_of_push fresh
      (show Represents fresh.arena ([] ++ [(q, c)]) from repFresh) left right
      (by simpa only [LFList.MiddleFits, size, padded, blocks] using fits) unused.count
      (padded ▸ sound.width) (padded ▸ small) (sized.trans size.symm)
    rw [sound.offset] at rep'
    have middle : Represents arena
        (Deck.restart front (startOffset .middle t.list.arena.blockSize) ++
        [(p, b.restart (startOffset .middle t.list.arena.blockSize))]) := by
      simpa [Deck.restart] using rep'
    have lost := LFList.first_of_push { t.list with arena } middle
      (congrArg (startOffset .middle) keeps.blockSize.symm)
      (congrArg (startOffset .middle) keeps.blockSize.symm)
      (by simpa only [LFList.MiddleFits, keeps.blockSize] using fits) count sound.width small sized
    have answers := same [.alloc [c.data.read 0 t.list.elemSize], .getFirst]
    rw [found, lost] at answers
    by_cases none : front = []
    · simp [none]
    · simp [Deck.restart, none] at answers
  · exact run_answers ListInUse.Agrees (fun op _ _ agrees => agrees.call op) ops
      (LFList.reset_agrees sound new points keeps rep' count only)

/-- **When a reset is a new start.** A stack must have no elements, by its count. A list must
also have one block, or blocks in which no element fits behind the middle. -/
theorem reset_answers_as_new_iff_empty :
    (∀ stack fresh : Stack β, stack.Reachable → fresh.IsNewFor stack →
      ∃ reset, lfResetStack stack = some reset ∧
        ((∀ ops, (run stackCall ops reset).map Prod.fst =
          (run stackCall ops fresh).map Prod.fst) ↔ stack.elemCount = 0)) ∧
    ∀ (t : ListInUse β) (fresh : LFList β), t.Reachable → fresh.IsNewFor t.list →
      ∃ reset, lfResetList t.list = some reset ∧
        ((∀ ops, (run listCall ops ⟨reset, []⟩).map Prod.fst =
          (run listCall ops ⟨fresh, []⟩).map Prod.fst) ↔
          t.list.elemCount = 0 ∧ (t.list.arena.blockCount = 1 ∨ ¬ t.list.MiddleFits)) :=
  ⟨fun _ _ reachable new => Stack.reset_answers_iff reachable new,
    fun _ _ reachable new => LFList.reset_answers_iff reachable new⟩

/-- One-byte elements, two a block. A stack from which the only element was popped again is as
new after a reset; a list with one element is not. -/
theorem reset_answers_as_new_iff_empty_bytes :
    ∃ (stack fresh : Stack UInt8) (t : ListInUse UInt8) (new : LFList UInt8),
      stack.Reachable ∧ fresh.IsNewFor stack ∧ t.Reachable ∧ new.IsNewFor t.list ∧
      (∃ reset, lfResetStack stack = some reset ∧ ∀ ops,
        (run stackCall ops reset).map Prod.fst = (run stackCall ops fresh).map Prod.fst) ∧
      ∃ reset, lfResetList t.list = some reset ∧ ¬ ∀ ops,
        (run listCall ops ⟨reset, []⟩).map Prod.fst =
          (run listCall ops ⟨new, []⟩).map Prod.fst := by
  have popped : ((lfInitStack (Stack.declared (Allocator.bump (0 : UInt8)) 2 1 1)).bind
      fun start => (run stackUse [.call (.push [7]), .call .pop] start).map fun reached =>
        (reached.2.elemSize, reached.2.elemAlignment, reached.2.elemQttInBlock,
          reached.2.elemCount)) = some (1, 1, 2, 0) := by
    decide +kernel
  have pushed : ((lfInitList (LFList.declared (Allocator.bump (0 : UInt8)) 2 1 1)).bind
      fun start => (run listUse [.call (.alloc [[7]])] ⟨start, []⟩).map fun reached =>
        (reached.2.list.elemSize, reached.2.list.elemAlignment, reached.2.list.elemQttInBlock,
          reached.2.list.elemCount)) = some (1, 1, 2, 1) := by
    decide +kernel
  obtain ⟨start, init, popped⟩ := Option.bind_eq_some_iff.mp popped
  obtain ⟨⟨answers, stack⟩, runs, shape⟩ := Option.map_eq_some_iff.mp popped
  obtain ⟨first, init', pushed⟩ := Option.bind_eq_some_iff.mp pushed
  obtain ⟨⟨answers', t⟩, runs', shape'⟩ := Option.map_eq_some_iff.mp pushed
  simp only [Prod.mk.injEq] at shape shape'
  have reachable : stack.Reachable := ⟨_, start, _, answers, init, runs⟩
  have fresh : start.IsNewFor stack :=
    ⟨_, init, shape.1.symm, shape.2.1.symm, shape.2.2.1.symm⟩
  have reachable' : t.Reachable := ⟨_, first, _, answers', init', runs'⟩
  have new : first.IsNewFor t.list :=
    ⟨_, init', shape'.1.symm, shape'.2.1.symm, shape'.2.2.1.symm⟩
  obtain ⟨reset, done, same⟩ := reset_answers_as_new_iff_empty.1 stack start reachable fresh
  obtain ⟨reset', done', same'⟩ := reset_answers_as_new_iff_empty.2 t first reachable' new
  refine ⟨stack, start, t, first, reachable, fresh, reachable', new,
    ⟨reset, done, same.mpr shape.2.2.2⟩, reset', done', ?_⟩
  intro alike
  have none := (same'.mp alike).1
  omega

/-- A stack and a list with one element each, before and after a reset: the
count of the reset ones is still one. -/
theorem reset_keeps_elem_count :
    (do
      let stack ← lfInitStack (Stack.declared (Allocator.bump (0 : UInt8)) 2 1 1)
      let (_, used) ← run stackUse [.call (.push [7]), .reset] stack
      let (after, _) ← run stackCall [.elemCount, .isEmpty] used
      let (new, _) ← run stackCall [.elemCount, .isEmpty] stack
      some (after, new)) =
        some ([.count 1, .isEmpty false], [.count 0, .isEmpty true]) ∧
    (do
      let list ← lfInitList (LFList.declared (Allocator.bump (0 : UInt8)) 2 1 1)
      let (_, used) ← run listUse [.call (.alloc [[7]]), .reset] ⟨list, []⟩
      let (after, _) ← run listCall [.elemCount, .getFirst] used
      let (new, _) ← run listCall [.elemCount, .getFirst] ⟨list, []⟩
      some (after, new)) =
        some ([.count 1, .elem none], [.count 0, .null]) := by
  decide +kernel

end LowFlow
