import LowFlow.Memory.ArenaSize

/-!
# Stacks whose elements are padded

A push moves the left offset of a block by the element size, and a pop moves it
back by the padded size. With two different sizes the used ranges of the blocks
no longer hold a whole number of elements each, as many as are counted: either
more bytes are live than the counted elements take, or less, or the last block
reaches behind its end. No operation mends that (`run_misfits`).
-/

set_option autoImplicit false

namespace LowFlow

open Library

variable {β : Type}

/-- The used ranges are too short for the counted elements: each block holds at most the
elements it is said to hold, and the last one less, or it reaches behind its end. -/
inductive Deck.Lacks (width blockSize : ℕ) : Deck β → ℕ → Prop where
  | last {p : BlockPtr} {b : Slab β} {count : ℕ}
      (short : blockSize < b.rightOffset ∨ b.rightOffset - b.leftOffset < count * width) :
      Lacks width blockSize [(p, b)] count
  | block {p : BlockPtr} {b : Slab β} {rest : Deck β} {here there count : ℕ}
      (within : b.rightOffset - b.leftOffset ≤ here * width)
      (onward : Lacks width blockSize rest there) (total : here + there ≤ count) :
      Lacks width blockSize ((p, b) :: rest) count

namespace Deck.Lacks

variable {width blockSize count : ℕ} {deck : Deck β}

theorem mono {more : ℕ} (lacks : deck.Lacks width blockSize count) (le : count ≤ more) :
    deck.Lacks width blockSize more := by
  cases lacks with
  | last short =>
      exact .last (short.imp_right fun less => Nat.lt_of_lt_of_le less (Nat.mul_le_mul_right _ le))
  | block within onward total => exact .block within onward (Nat.le_trans total le)

/-- Inside the blocks there are less bytes than the elements take. -/
theorem liveBytes_lt (lacks : deck.Lacks width blockSize count)
    (inside : ∀ entry ∈ deck, entry.2.rightOffset ≤ blockSize) :
    deck.liveBytes < count * width := by
  induction lacks with
  | last short =>
      have less := short.resolve_left (Nat.not_lt.mpr (inside _ (List.mem_singleton_self _)))
      simpa using less
  | block within onward total ih =>
      have behind := ih fun entry member => inside entry (List.mem_cons_of_mem _ member)
      have all := Nat.mul_le_mul_right width total
      rw [Nat.add_mul] at all
      rw [liveBytes_cons]
      dsimp only
      omega

/-- Pushing an element that is smaller than its slot. -/
theorem alloc {arena : Arena β} {size : ℕ} {deck' : Deck β} {ptr : Ptr}
    (lacks : deck.Lacks width blockSize count) (smaller : size ≤ width)
    (alloc : AllocHead arena size deck ptr deck')
    (ordered : ∀ entry ∈ deck, entry.2.leftOffset ≤ entry.2.rightOffset)
    (fits : size ≤ arena.blockSize) : deck'.Lacks width blockSize (count + 1) := by
  cases alloc with
  | @fits p b rest room =>
      have here : b.leftOffset ≤ b.rightOffset := ordered (p, b) (List.mem_cons_self ..)
      cases lacks with
      | last short =>
          refine .last (short.imp_right ?_)
          intro less
          rw [Nat.succ_mul]
          dsimp only
          omega
      | @block _ _ _ here there _ within onward total =>
          have wider : b.rightOffset - (b.leftOffset - size) ≤ (here + 1) * width := by
            rw [Nat.succ_mul]
            omega
          exact .block wider onward (by omega)
  | opens full =>
      have single : arena.blockSize - (arena.blockSize - size) ≤ 1 * width := by omega
      exact .block single lacks (Nat.le_of_eq (Nat.add_comm 1 count))

/-- Popping from the head block, which is empty only when it is the last one. -/
theorem pop {p : BlockPtr} {b : Slab β} {rest : Deck β}
    (lacks : Deck.Lacks width blockSize ((p, b) :: rest) count)
    (ordered : b.leftOffset ≤ b.rightOffset) (reaches : blockSize ≤ b.rightOffset)
    (inUse : b.leftOffset = b.rightOffset → rest = []) (counted : count ≠ 0) :
    Deck.Lacks width blockSize ((p, b.popped width) :: rest) (count - 1) := by
  obtain ⟨count, rfl⟩ := Nat.exists_eq_succ_of_ne_zero counted
  cases lacks with
  | last short =>
      rw [Nat.succ_mul] at short
      refine .last ?_
      simp only [Slab.popped, Nat.succ_sub_one]
      split <;> omega
  | @block _ _ _ here there _ within onward total =>
      -- a block before the last one has an element to give
      have some_used : b.leftOffset ≠ b.rightOffset := fun empty => by
        rw [inUse empty] at onward
        cases onward
      obtain ⟨here, rfl⟩ : ∃ less, here = less + 1 := by
        apply Nat.exists_eq_succ_of_ne_zero
        intro none
        rw [none, Nat.zero_mul] at within
        omega
      rw [Nat.succ_mul] at within
      have shorter : (b.popped width).rightOffset - (b.popped width).leftOffset ≤ here * width := by
        simp only [Slab.popped]
        split <;> omega
      exact .block shorter onward (by omega)

end Deck.Lacks

/-- The used ranges do not hold the counted elements, because the padded size is not the element
size. -/
structure Stack.Misfits (stack : Stack β) (deck : Deck β) : Prop where
  rep : Represents stack.arena deck
  ordered : ∀ entry ∈ deck, entry.2.leftOffset ≤ entry.2.rightOffset
  reaches : ∀ entry ∈ deck, stack.arena.blockSize ≤ entry.2.rightOffset
  /-- A block was opened because the one behind it had no room. -/
  opened : ∀ entry ∈ deck.tail, entry.2.leftOffset < stack.elemSize
  fits : stack.elemSize ≤ stack.arena.blockSize
  uneven : stack.elemPaddedSize < stack.elemSize ∧
      stack.elemCount * stack.elemPaddedSize < deck.liveBytes ∨
    stack.elemSize < stack.elemPaddedSize ∧
      deck.Lacks stack.elemPaddedSize stack.arena.blockSize stack.elemCount

namespace Stack.Misfits

variable {stack stack' : Stack β} {deck : Deck β} {answer : Option Ptr}

theorem alloc (misfits : stack.Misfits deck)
    (taken : slotStep .allocStackElem stack = some (answer, stack')) :
    ∃ deck', stack'.Misfits deck' := by
  obtain ⟨-, -, ptr, deck', -, -, change, rep, keeps, count⟩ := slotStep_alloc misfits.rep taken
  have uneven : stack.elemPaddedSize < stack.elemSize ∧
        stack'.elemCount * stack.elemPaddedSize < deck'.liveBytes ∨
      stack.elemSize < stack.elemPaddedSize ∧
        deck'.Lacks stack.elemPaddedSize stack.arena.blockSize stack'.elemCount := by
    rw [count]
    refine misfits.uneven.imp (fun ⟨less, more⟩ => ⟨less, ?_⟩) fun ⟨less, lacks⟩ =>
      ⟨less, lacks.alloc (Nat.le_of_lt less) change misfits.ordered misfits.fits⟩
    rw [change.liveBytes misfits.fits misfits.ordered, Nat.succ_mul]
    omega
  rw [← keeps.size, ← keeps.padded, ← keeps.arena.blockSize] at uneven
  have fits := misfits.fits
  refine ⟨deck', rep, ?_, ?_, ?_, by rw [keeps.size, keeps.arena.blockSize]; exact fits, uneven⟩
  · cases change with
    | fits room =>
        obtain ⟨here, others⟩ := List.forall_mem_cons.mp misfits.ordered
        exact List.forall_mem_cons.mpr ⟨Nat.le_trans (Nat.sub_le ..) here, others⟩
    | opens full => exact List.forall_mem_cons.mpr ⟨Nat.sub_le .., misfits.ordered⟩
  · rw [keeps.arena.blockSize]
    cases change with
    | fits room =>
        obtain ⟨here, others⟩ := List.forall_mem_cons.mp misfits.reaches
        exact List.forall_mem_cons.mpr ⟨here, others⟩
    | opens full => exact List.forall_mem_cons.mpr ⟨le_rfl, misfits.reaches⟩
  · rw [keeps.size]
    cases change with
    | fits room => exact misfits.opened
    | opens full => exact List.forall_mem_cons.mpr ⟨full, misfits.opened⟩

theorem pop (misfits : stack.Misfits deck)
    (taken : slotStep .popFromStack stack = some (answer, stack')) :
    ∃ deck', stack'.Misfits deck' := by
  rcases lfPopFromStack_cases misfits.rep taken with ⟨-, -, rfl⟩ |
    ⟨p, b, rest, place, counted, -, rep, keeps, count⟩
  · exact ⟨deck, misfits⟩
  -- the blocks that are left before the slot is taken
  have left : (∀ entry ∈ (p, b) :: rest, entry ∈ deck) ∧ (∀ entry ∈ rest, entry ∈ deck.tail) ∧
      deck.liveBytes = Deck.liveBytes ((p, b) :: rest) ∧
      (b.leftOffset = b.rightOffset → rest = []) ∧
      ∀ width blockSize n, deck.Lacks width blockSize n →
        Deck.Lacks width blockSize ((p, b) :: rest) n := by
    rcases place with ⟨rfl, inUse⟩ | ⟨q, c, rfl, empty⟩
    · exact ⟨fun _ => id, fun _ => id, rfl, inUse, fun _ _ _ => id⟩
    refine ⟨fun _ => List.mem_cons_of_mem _, fun _ => List.mem_cons_of_mem _, ?_, ?_,
      ?_⟩
    · rw [liveBytes_cons]
      dsimp only
      omega
    · intro none
      -- a block that another one was opened in front of is in use
      have low : b.leftOffset < stack.elemSize := misfits.opened (p, b) (by simp)
      have high : stack.arena.blockSize ≤ b.rightOffset := misfits.reaches (p, b) (by simp)
      have fits := misfits.fits
      omega
    · rintro width blockSize n (_ | ⟨-, onward, total⟩)
      exact onward.mono (by omega)
  obtain ⟨inDeck, inTail, bytes, inUse, lacking⟩ := left
  have ordered : b.leftOffset ≤ b.rightOffset := misfits.ordered (p, b) (inDeck _ (by simp))
  have reaches : stack.arena.blockSize ≤ b.rightOffset :=
    misfits.reaches (p, b) (inDeck _ (by simp))
  have ordered' : (b.popped stack.elemPaddedSize).leftOffset ≤
      (b.popped stack.elemPaddedSize).rightOffset := by
    simp only [Slab.popped]
    split <;> omega
  have reaches' : b.rightOffset ≤ (b.popped stack.elemPaddedSize).rightOffset := by
    simp only [Slab.popped]
    split <;> omega
  have uneven : stack.elemPaddedSize < stack.elemSize ∧
        stack'.elemCount * stack.elemPaddedSize <
          Deck.liveBytes ((p, b.popped stack.elemPaddedSize) :: rest) ∨
      stack.elemSize < stack.elemPaddedSize ∧
        Deck.Lacks stack.elemPaddedSize stack.arena.blockSize
          ((p, b.popped stack.elemPaddedSize) :: rest) stack'.elemCount := by
    rw [count]
    rcases misfits.uneven with ⟨less, more⟩ | ⟨less, lacks⟩
    · refine .inl ⟨less, ?_⟩
      obtain ⟨n, counts⟩ := Nat.exists_eq_succ_of_ne_zero counted
      rw [bytes, liveBytes_cons, counts, Nat.succ_mul] at more
      rw [liveBytes_cons, counts, Nat.succ_sub_one]
      simp only [Slab.popped] at more ⊢
      split <;> omega
    · exact .inr ⟨less, (lacking _ _ _ lacks).pop ordered reaches inUse counted⟩
  rw [← keeps.size, ← keeps.padded, ← keeps.arena.blockSize] at uneven
  rw [← keeps.padded] at rep ordered' reaches'
  refine ⟨_, rep, ?_, ?_, ?_, ?_, uneven⟩
  · exact List.forall_mem_cons.mpr ⟨ordered', fun entry member =>
      misfits.ordered entry (inDeck _ (List.mem_cons_of_mem _ member))⟩
  · rw [keeps.arena.blockSize]
    exact List.forall_mem_cons.mpr ⟨Nat.le_trans reaches reaches', fun entry member =>
      misfits.reaches entry (inDeck _ (List.mem_cons_of_mem _ member))⟩
  · rw [keeps.size]
    exact fun entry member => misfits.opened entry (inTail _ member)
  · rw [keeps.size, keeps.arena.blockSize]
    exact misfits.fits

/-- The first push on a new stack. -/
theorem of_first {p : BlockPtr} {b : Slab β} (rep : Represents stack.arena [(p, b)])
    (left : b.leftOffset = stack.arena.blockSize) (right : b.rightOffset = stack.arena.blockSize)
    (count : stack.elemCount = 0) (padded : stack.elemPaddedSize ≠ stack.elemSize)
    (taken : slotStep .allocStackElem stack = some (answer, stack')) :
    ∃ deck', stack'.Misfits deck' := by
  obtain ⟨positive, fits, ptr, deck', -, -, change, rep', keeps, more⟩ := slotStep_alloc rep taken
  cases change with
  | opens full => omega
  | fits room =>
      rw [count, Nat.zero_add] at more
      refine ⟨_, rep', ?_, ?_, by simp, by rw [keeps.size, keeps.arena.blockSize]; exact fits, ?_⟩
      · simp [left, right]
      · simp [right, keeps.arena.blockSize]
      · rw [keeps.size, keeps.padded, keeps.arena.blockSize, more, Nat.one_mul]
        refine (Nat.lt_or_gt_of_ne padded).imp (fun less => ⟨less, ?_⟩) fun less => ⟨less, .last ?_⟩
        · simp only [liveBytes_cons, liveBytes_nil]
          omega
        · right
          dsimp only
          omega

end Stack.Misfits

/-- Nothing happens to a new stack until the first push. -/
theorem run_first_push {start stack : Stack β} (count : start.elemCount = 0) {ops : List SlotOp}
    (pushes : .allocStackElem ∈ ops) {answers : List (Option Ptr)}
    (runs : run slotStep ops start = some (answers, stack)) :
    ∃ answer next more others, slotStep .allocStackElem start = some (answer, next) ∧
      run slotStep more next = some (others, stack) := by
  induction ops generalizing answers with
  | nil => cases pushes
  | cons op ops ih =>
      obtain ⟨answer, next, others, taken, onward, -⟩ := run_cons_iff.mp runs
      cases op with
      | allocStackElem => exact ⟨answer, next, ops, others, taken, onward⟩
      | popFromStack =>
          rw [slotStep, lfPopFromStack_empty count] at taken
          obtain ⟨-, rfl⟩ := Prod.mk.inj (Option.some.inj taken)
          exact ih (by simpa using pushes) onward

/-- **No run mends it**: a new stack that is pushed to does not hold the counted elements in whole
slots after any run. -/
theorem run_misfits {start stack : Stack β} {p : BlockPtr} {b : Slab β}
    (rep : Represents start.arena [(p, b)]) (left : b.leftOffset = start.arena.blockSize)
    (right : b.rightOffset = start.arena.blockSize) (count : start.elemCount = 0)
    (padded : start.elemPaddedSize ≠ start.elemSize) {ops : List SlotOp}
    (pushes : .allocStackElem ∈ ops) {answers : List (Option Ptr)}
    (runs : run slotStep ops start = some (answers, stack)) : ∃ deck, stack.Misfits deck := by
  obtain ⟨answer, next, more, others, taken, onward⟩ := run_first_push count pushes runs
  have misfits := Stack.Misfits.of_first rep left right count padded taken
  refine run_invariant (fun s : Stack β => ∃ deck, s.Misfits deck) ?_ misfits onward
  rintro op s answer s' ⟨deck, misfits⟩ taken
  cases op with
  | allocStackElem => exact misfits.alloc taken
  | popFromStack => exact misfits.pop taken

/-- A new stack that nothing is pushed on stays as it is. -/
theorem run_pops {start stack : Stack β} (count : start.elemCount = 0) {ops : List SlotOp}
    (pops : .allocStackElem ∉ ops) {answers : List (Option Ptr)}
    (runs : run slotStep ops start = some (answers, stack)) : stack = start := by
  induction ops generalizing answers with
  | nil =>
      cases runs
      rfl
  | cons op ops ih =>
      obtain ⟨answer, next, others, taken, onward, -⟩ := run_cons_iff.mp runs
      cases op with
      | allocStackElem => exact absurd (List.mem_cons_self ..) pops
      | popFromStack =>
          rw [slotStep, lfPopFromStack_empty count] at taken
          obtain ⟨-, rfl⟩ := Prod.mk.inj (Option.some.inj taken)
          exact ih (fun member => pops (List.mem_cons_of_mem _ member)) onward

end LowFlow
