import LowFlow.Memory.ListLookups
import Mathlib.Data.Int.GCD

/-!
# Aligned elements

A stack pushes elements of their own size, and pops the padded size; a list starts
behind the middle of its first block. So the padding does not align the elements: a
stack hands out aligned pointers only when the alignment divides the size of the
elements and that of the blocks, and a list only when it divides the offset of the
middle (`pointers_aligned_iff`).
-/

set_option autoImplicit false

namespace LowFlow

open Library

variable {β : Type}

/-- With an alignment that divides the number of `size_t` values the padded size
does not wrap around to less than the size. -/
theorem le_paddedSize {elemSize elemAlignment padded : ℕ} (small : elemSize < sizeModulus)
    (aligned : elemAlignment ∣ sizeModulus)
    (width : paddedSize elemSize elemAlignment = some padded) (positive : 0 < padded) :
    elemSize ≤ padded := by
  by_cases zero : elemAlignment = 0
  · simp [paddedSize, zero] at width
  have above : 0 < elemAlignment := Nat.pos_of_ne_zero zero
  simp only [paddedSize, zero, ↓reduceIte, Option.some.injEq] at width
  by_cases exact_ : elemSize % elemAlignment = 0
  · rw [exact_, Nat.sub_zero, Nat.mod_self, Nat.add_zero, sizeWrap_of_lt small] at width
    exact le_of_eq width
  · have below : elemSize % elemAlignment < elemAlignment := Nat.mod_lt _ above
    rw [Nat.mod_eq_of_lt (by omega)] at width
    -- the size rounded up is the next multiple, which is at most the modulus
    obtain ⟨k, modulus⟩ := aligned
    have split := Nat.div_add_mod elemSize elemAlignment
    have next : elemSize + (elemAlignment - elemSize % elemAlignment) =
        elemAlignment * (elemSize / elemAlignment + 1) := by
      rw [Nat.mul_succ]
      omega
    have bound : elemSize / elemAlignment + 1 ≤ k := by
      refine Nat.succ_le_of_lt (Nat.lt_of_mul_lt_mul_left (a := elemAlignment) ?_)
      omega
    have atMost : elemSize + (elemAlignment - elemSize % elemAlignment) ≤ sizeModulus := by
      rw [next, modulus]
      exact Nat.mul_le_mul_left _ bound
    rcases Nat.lt_or_ge (elemSize + (elemAlignment - elemSize % elemAlignment)) sizeModulus with
      less | more
    · rw [sizeWrap_of_lt less] at width
      omega
    · have whole : elemSize + (elemAlignment - elemSize % elemAlignment) = sizeModulus := by omega
      rw [whole, sizeWrap, Nat.mod_self] at width
      omega

/-- The pointer is aligned when the data of its block is. -/
def Ptr.AlignedTo (ptr : Ptr) (alignment : ℕ) : Prop :=
  (alignment : ℤ) ∣ ptr.offset

/-- The size is padded up to a multiple of the alignment, and then wraps around. -/
theorem paddedSize_eq {elemSize elemAlignment padded : ℕ}
    (width : paddedSize elemSize elemAlignment = some padded) :
    ∃ padding < elemAlignment, elemAlignment ∣ elemSize + padding ∧
      padded = sizeWrap (elemSize + padding) := by
  by_cases zero : elemAlignment = 0
  · simp [paddedSize, zero] at width
  have positive : 0 < elemAlignment := Nat.pos_of_ne_zero zero
  simp only [paddedSize, zero, ↓reduceIte, Option.some.injEq] at width
  refine ⟨_, Nat.mod_lt _ positive, ?_, width.symm⟩
  apply Nat.dvd_of_mod_eq_zero
  have below := Nat.le_of_lt (Nat.mod_lt elemSize positive)
  rw [Nat.add_mod_mod, ← Nat.mod_add_mod, Nat.add_sub_cancel' below, Nat.mod_self]

/-! ## Stacks -/

/-- Every pointer that a stack hands out is aligned. -/
def Stack.HandsOutAligned (start : Stack β) : Prop :=
  ∀ ops answers stack, run slotStep ops start = some (answers, stack) →
    ∀ ptr, some ptr ∈ answers → ptr.AlignedTo start.elemAlignment

/-- The used ranges start at multiples of a number that divides all sizes. -/
structure Stack.StartsAt (stack : Stack β) (a : ℕ) (deck : Deck β) : Prop where
  rep : Represents stack.arena deck
  lefts : ∀ entry ∈ deck, a ∣ entry.2.leftOffset
  size : a ∣ stack.elemSize
  padded : a ∣ stack.elemPaddedSize
  blocks : a ∣ stack.arena.blockSize

namespace Stack.StartsAt

variable {stack stack' : Stack β} {a : ℕ} {deck deck' : Deck β} {answer : Option Ptr}

theorem keeps (starts : stack.StartsAt a deck) (keeps : stack.Keeps stack')
    (rep : Represents stack'.arena deck') (lefts : ∀ entry ∈ deck', a ∣ entry.2.leftOffset) :
    stack'.StartsAt a deck' where
  rep := rep
  lefts := lefts
  size := keeps.size ▸ starts.size
  padded := keeps.padded ▸ starts.padded
  blocks := keeps.arena.blockSize ▸ starts.blocks

theorem alloc (starts : stack.StartsAt a deck)
    (taken : slotStep .allocStackElem stack = some (answer, stack')) :
    (∀ ptr, answer = some ptr → ptr.AlignedTo a) ∧ ∃ deck', stack'.StartsAt a deck' := by
  obtain ⟨-, -, ptr, deck', rfl, -, change, rep, keeps, -⟩ := slotStep_alloc starts.rep taken
  cases change with
  | @fits p b rest room =>
      obtain ⟨first, others⟩ := List.forall_mem_cons.mp starts.lefts
      have lower : a ∣ b.leftOffset - stack.elemSize := Nat.dvd_sub first starts.size
      refine ⟨?_, _, starts.keeps keeps rep (List.forall_mem_cons.mpr ⟨lower, others⟩)⟩
      rintro ptr ⟨rfl⟩
      exact Int.natCast_dvd_natCast.mpr lower
  | opens full =>
      have lower : a ∣ stack.arena.blockSize - stack.elemSize :=
        Nat.dvd_sub starts.blocks starts.size
      refine ⟨?_, _, starts.keeps keeps rep (List.forall_mem_cons.mpr ⟨lower, starts.lefts⟩)⟩
      rintro ptr ⟨rfl⟩
      exact Int.natCast_dvd_natCast.mpr lower

theorem pop (starts : stack.StartsAt a deck)
    (taken : slotStep .popFromStack stack = some (answer, stack')) :
    (∀ ptr, answer = some ptr → ptr.AlignedTo a) ∧ ∃ deck', stack'.StartsAt a deck' := by
  rcases lfPopFromStack_cases starts.rep taken with ⟨-, rfl, rfl⟩ |
    ⟨p, b, rest, place, -, rfl, rep', keeps, -⟩
  · exact ⟨by simp, deck, starts⟩
  have lefts : ∀ entry ∈ (p, b) :: rest, a ∣ entry.2.leftOffset := by
    rcases place with ⟨rfl, -⟩ | ⟨q, c, rfl, -⟩
    · exact starts.lefts
    · exact (List.forall_mem_cons.mp starts.lefts).2
  obtain ⟨first, others⟩ := List.forall_mem_cons.mp lefts
  have higher : a ∣ (b.popped stack.elemPaddedSize).leftOffset := Nat.dvd_add first starts.padded
  refine ⟨?_, _, starts.keeps keeps rep' (List.forall_mem_cons.mpr ⟨higher, others⟩)⟩
  rintro ptr ⟨rfl⟩
  exact Int.natCast_dvd_natCast.mpr first

/-- A stack whose used ranges start at multiples hands out pointers to multiples. -/
theorem handsOutAligned (starts : stack.StartsAt stack.elemAlignment deck) :
    stack.HandsOutAligned := by
  intro ops answers stack' runs
  have keeps : ∀ (op : SlotOp) (s : Stack β) answer s',
      (∃ deck, s.StartsAt stack.elemAlignment deck) → slotStep op s = some (answer, s') →
      (∀ ptr, answer = some ptr → ptr.AlignedTo stack.elemAlignment) ∧
        ∃ deck, s'.StartsAt stack.elemAlignment deck := by
    rintro op s answer s' ⟨deck, starts⟩ taken
    cases op with
    | allocStackElem => exact starts.alloc taken
    | popFromStack => exact starts.pop taken
  intro ptr member
  exact run_forall_answers _ _ keeps ⟨deck, starts⟩ runs _ member ptr rfl

end Stack.StartsAt

/-- The used range of the head block. -/
def Stack.HeadAt (stack : Stack β) (left right : ℕ) : Prop :=
  ∃ p b rest, Represents stack.arena ((p, b) :: rest) ∧ b.leftOffset = left ∧ b.rightOffset = right

namespace Stack.HeadAt

variable {stack : Stack β} {left right : ℕ}

theorem push (atHead : stack.HeadAt left right) (positive : 0 < stack.elemSize)
    (fits : stack.elemSize ≤ stack.arena.blockSize) :
    ∃ ptr stack', slotStep .allocStackElem stack = some (some ptr, stack') ∧ stack.Keeps stack' ∧
      stack'.elemCount = stack.elemCount + 1 ∧
      (stack.elemSize ≤ left ∧ ptr.offset = (left - stack.elemSize : ℕ) ∧
          stack'.HeadAt (left - stack.elemSize) right ∨
        left < stack.elemSize ∧ ptr.offset = (stack.arena.blockSize - stack.elemSize : ℕ) ∧
          stack'.HeadAt (stack.arena.blockSize - stack.elemSize) stack.arena.blockSize) := by
  obtain ⟨p, b, rest, rep, rfl, rfl⟩ := atHead
  obtain ⟨ptr, stack', deck', alloc, change, rep', keeps, count⟩ :=
    lfAllocStackElem_spec rep positive fits
  refine ⟨ptr, stack', by simp [slotStep, alloc], keeps, count, ?_⟩
  cases change with
  | fits room => exact .inl ⟨room, rfl, _, _, _, rep', rfl, rfl⟩
  | opens full => exact .inr ⟨full, rfl, _, _, _, rep', rfl, rfl⟩

theorem pop (atHead : stack.HeadAt left right) (nonempty : left ≠ right)
    (counted : stack.elemCount ≠ 0) :
    ∃ ptr stack', slotStep .popFromStack stack = some (some ptr, stack') ∧ stack.Keeps stack' ∧
      stack'.elemCount = stack.elemCount - 1 ∧ ptr.offset = left ∧
      stack'.HeadAt (left + stack.elemPaddedSize)
        (if right < left + stack.elemPaddedSize then left + stack.elemPaddedSize else right) := by
  obtain ⟨p, b, rest, rep, rfl, rfl⟩ := atHead
  obtain ⟨stack', pop, rep', keeps, count⟩ := lfPopFromStack_head counted rep nonempty
  exact ⟨_, stack', pop, keeps, count, rfl, p, _, rest, rep', rfl, rfl⟩

end Stack.HeadAt

namespace Stack.HandsOutAligned

variable {start : Stack β}

/-- The first slot lies an element's size below the end of the block. -/
theorem first (aligned : start.HandsOutAligned)
    (atHead : start.HeadAt start.arena.blockSize start.arena.blockSize)
    (positive : 0 < start.elemSize) (fits : start.elemSize ≤ start.arena.blockSize) :
    start.elemAlignment ∣ start.arena.blockSize - start.elemSize := by
  obtain ⟨ptr, stack, push, -, -, ⟨-, offset, -⟩ | ⟨less, -⟩⟩ := atHead.push positive fits
  · have divides := aligned [.allocStackElem] _ _ (run_cons push (run_nil _)) ptr (by simp)
    rw [Ptr.AlignedTo, offset] at divides
    exact Int.natCast_dvd_natCast.mp divides
  · omega

/-- A slot that is popped and pushed again moves by the padding. -/
theorem again (aligned : start.HandsOutAligned)
    (atHead : start.HeadAt start.arena.blockSize start.arena.blockSize)
    (empty : start.elemCount = 0)
    (positive : 0 < start.elemSize) (fits : start.elemSize ≤ start.arena.blockSize)
    (padded : start.elemSize ≤ start.elemPaddedSize) :
    start.elemAlignment ∣
      start.arena.blockSize - start.elemSize + (start.elemPaddedSize - start.elemSize) := by
  obtain ⟨one, first, push₁, keeps₁, count₁, ⟨-, -, atHead₁⟩ | ⟨less, -⟩⟩ :=
    atHead.push positive fits
  swap
  · omega
  obtain ⟨two, second, pop₂, keeps₂, -, -, atHead₂⟩ := atHead₁.pop (by omega) (by omega)
  have keeps := keeps₁.trans keeps₂
  have size : second.elemSize = start.elemSize := keeps.size
  have blocks : second.arena.blockSize = start.arena.blockSize := keeps.arena.blockSize
  obtain ⟨three, third, push₃, -, -, ⟨-, offset, -⟩ | ⟨less, -⟩⟩ :=
    atHead₂.push (size ▸ positive) (by rw [size, blocks]; exact fits)
  · have divides := aligned [.allocStackElem, .popFromStack, .allocStackElem] _ _
      (run_cons push₁ (run_cons pop₂ (run_cons push₃ (run_nil _)))) three (by simp)
    rw [Ptr.AlignedTo, offset, size, keeps₁.padded] at divides
    have offsets : start.arena.blockSize - start.elemSize + start.elemPaddedSize - start.elemSize =
        start.arena.blockSize - start.elemSize + (start.elemPaddedSize - start.elemSize) := by omega
    exact offsets ▸ Int.natCast_dvd_natCast.mp divides
  · rw [size, keeps₁.padded] at less
    omega

/-- Two slots that are popped one after the other lie the padded size apart when this
is less than the size. -/
theorem twice (aligned : start.HandsOutAligned)
    (atHead : start.HeadAt start.arena.blockSize start.arena.blockSize)
    (empty : start.elemCount = 0)
    (positive : 0 < start.elemSize) (fits : start.elemSize ≤ start.arena.blockSize)
    (wrapped : start.elemPaddedSize < start.elemSize) :
    start.elemAlignment ∣ start.elemPaddedSize := by
  obtain ⟨one, first, push₁, keeps₁, count₁, ⟨-, -, atHead₁⟩ | ⟨less, -⟩⟩ :=
    atHead.push positive fits
  swap
  · omega
  have size₁ : first.elemSize = start.elemSize := keeps₁.size
  have blocks₁ : first.arena.blockSize = start.arena.blockSize := keeps₁.arena.blockSize
  obtain ⟨two, second, push₂, keeps₂, count₂, rest⟩ :=
    atHead₁.push (size₁ ▸ positive) (by rw [size₁, blocks₁]; exact fits)
  -- in either case the second slot ends no higher than the block
  have atHead₂ : ∃ left, left + start.elemSize ≤ start.arena.blockSize ∧
      second.HeadAt left start.arena.blockSize := by
    rcases rest with ⟨room, -, atHead₂⟩ | ⟨less, -, atHead₂⟩
    · exact ⟨_, by omega, atHead₂⟩
    · rw [size₁, blocks₁] at atHead₂
      exact ⟨_, by omega, atHead₂⟩
  obtain ⟨left, below, atHead₂⟩ := atHead₂
  have padded₂ : second.elemPaddedSize = start.elemPaddedSize := (keeps₁.trans keeps₂).padded
  obtain ⟨three, third, pop₃, keeps₃, count₃, offset₃, atHead₃⟩ :=
    atHead₂.pop (by omega) (by omega)
  rw [padded₂, if_neg (by omega)] at atHead₃
  obtain ⟨four, fourth, pop₄, -, -, offset₄, -⟩ := atHead₃.pop (by omega) (by omega)
  have answered := aligned [.allocStackElem, .allocStackElem, .popFromStack, .popFromStack] _ _
    (run_cons push₁ (run_cons push₂ (run_cons pop₃ (run_cons pop₄ (run_nil _)))))
  have low := answered three (by simp)
  have high := answered four (by simp)
  rw [Ptr.AlignedTo, offset₃, Int.natCast_dvd_natCast] at low
  rw [Ptr.AlignedTo, offset₄, Int.natCast_dvd_natCast] at high
  exact (Nat.dvd_add_right low).mp high

end Stack.HandsOutAligned

/-- A stack hands out aligned pointers when the alignment divides the size of the
elements and of the blocks, or no element fits in a block. -/
theorem Stack.handsOutAligned_iff {declared start : Stack β}
    (small : declared.elemSize < sizeModulus)
    (alignment : declared.elemAlignment < sizeModulus) (init : lfInitStack declared = some start) :
    start.HandsOutAligned ↔ start.arena.blockSize < start.elemSize ∨
      start.elemAlignment ∣ start.elemSize ∧ start.elemAlignment ∣ start.arena.blockSize := by
  obtain ⟨positive, some_in_block, padded, width, blocks⟩ := lfInitStack_accepts init
  obtain ⟨start', p, b, init', rep, size, -, left, right, -, elem, align, pads, empty⟩ :=
    lfInitStack_spec positive some_in_block width blocks
  obtain rfl := Option.some.inj (init.symm.trans init')
  rw [← elem, ← align] at width
  rw [← elem] at small positive
  rw [← align] at alignment
  have atHead : start.HeadAt start.arena.blockSize start.arena.blockSize :=
    ⟨p, b, [], rep, left, right⟩
  constructor
  · intro aligned
    rcases Nat.lt_or_ge start.arena.blockSize start.elemSize with large | fits
    · exact .inl large
    have first := aligned.first atHead positive fits
    have divides : start.elemAlignment ∣ start.elemSize := by
      obtain ⟨padding, below, whole, wrap⟩ := paddedSize_eq width
      rcases Nat.lt_or_ge padded start.elemSize with wrapped | enough
      · -- the sum wraps around, although with this alignment it cannot
        have low := aligned.twice atHead empty positive fits (pads ▸ wrapped)
        rw [pads] at low
        have beyond : sizeModulus ≤ start.elemSize + padding := by
          by_contra under
          rw [sizeWrap_of_lt (Nat.not_le.mp under)] at wrap
          omega
        have modulus : start.elemSize + padding - padded = sizeModulus := by
          rw [wrap, sizeWrap, Nat.mod_eq_sub_mod beyond, Nat.mod_eq_of_lt (by omega)]
          omega
        have exact_ := modulus ▸ Nat.dvd_sub whole low
        have some_bytes : 0 < padded := Nat.pos_of_ne_zero fun zero => by
          simp [zero, sizeWrap] at blocks
        exact absurd (le_paddedSize small exact_ width some_bytes) (Nat.not_le.mpr wrapped)
      · have again := aligned.again atHead empty positive fits (pads ▸ enough)
        rw [pads] at again
        have under : start.elemSize + padding < sizeModulus := by
          by_contra beyond
          rw [sizeWrap, Nat.mod_eq_sub_mod (Nat.not_lt.mp beyond),
            Nat.mod_eq_of_lt (by omega)] at wrap
          omega
        rw [sizeWrap_of_lt under] at wrap
        have rest := Nat.dvd_sub (wrap ▸ whole) ((Nat.dvd_add_right first).mp again)
        rwa [Nat.sub_sub_self enough] at rest
    refine .inr ⟨divides, ?_⟩
    rw [← Nat.sub_add_cancel fits]
    exact Nat.dvd_add first divides
  · rintro (large | ⟨size, blocks⟩)
    · intro ops answers stack runs ptr member
      refine absurd (run_forall_answers
        (fun s : Stack β => s.elemCount = 0 ∧ s.arena.blockSize < s.elemSize) (· = none) ?_
        ⟨empty, large⟩ runs _ member) (Option.some_ne_none ptr)
      rintro op s answer s' ⟨none, large⟩ taken
      cases op with
      | allocStackElem => simp [slotStep, lfAllocStackElem, lfArenaAllocAtHead, large] at taken
      | popFromStack =>
          rw [slotStep, lfPopFromStack_empty none] at taken
          obtain ⟨rfl, rfl⟩ := Prod.mk.inj (Option.some.inj taken)
          exact ⟨rfl, none, large⟩
    · have whole := Option.some.inj (width.symm.trans (paddedSize_of_dvd size positive small))
      have starts : start.StartsAt start.elemAlignment [(p, b)] :=
        ⟨rep, List.forall_mem_singleton.mpr (left ▸ blocks), size, pads ▸ whole ▸ size, blocks⟩
      exact starts.handsOutAligned

/-! ## Lists -/

/-- Every pointer that a list hands out is aligned. -/
def LFList.HandsOutAligned (start : LFList β) : Prop :=
  ∀ calls answers t, run allocCall calls ⟨start, []⟩ = some (answers, t) →
    ∀ ptr ∈ answers, ptr.AlignedTo start.elemAlignment

/-- The least number of bytes that a call can ask for: the products of the padded size
wrap around to its multiples. -/
def LFList.leastTotal (list : LFList β) : ℕ :=
  Nat.gcd list.elemPaddedSize sizeModulus

theorem LFList.leastTotal_dvd (list : LFList β) (qtt : ℕ) :
    list.leastTotal ∣ sizeWrap (qtt * list.elemPaddedSize) :=
  (Nat.dvd_mod_iff (Nat.gcd_dvd_right ..)).mpr (Nat.dvd_mul_left_of_dvd (Nat.gcd_dvd_left ..) qtt)

/-- The tail block is used up to here. -/
def LFList.TailAt (list : LFList β) (right : ℕ) : Prop :=
  ∃ front p b, Represents list.arena (front ++ [(p, b)]) ∧ b.rightOffset = right ∧
    right ≤ list.arena.blockSize

namespace LFList.TailAt

variable {t t' : ListInUse β} {right : ℕ}

/-- An allocation at the tail: behind the last array, or in a new block. -/
theorem alloc (atTail : t.list.TailAt right) {call : AllocCall} {elem : Ptr}
    (called : allocCall call t = some (elem, t')) :
    0 < sizeWrap (call.qtt * t.list.elemPaddedSize) ∧
      sizeWrap (call.qtt * t.list.elemPaddedSize) ≤ t.list.arena.blockSize ∧
      t'.list.elemPaddedSize = t.list.elemPaddedSize ∧
      t'.list.arena.blockSize = t.list.arena.blockSize ∧
      (right + sizeWrap (call.qtt * t.list.elemPaddedSize) ≤ t.list.arena.blockSize ∧
          elem.offset = right ∧
          t'.list.TailAt (right + sizeWrap (call.qtt * t.list.elemPaddedSize)) ∨
        t.list.arena.blockSize < right + sizeWrap (call.qtt * t.list.elemPaddedSize) ∧
          elem.offset = 0 ∧ t'.list.TailAt (sizeWrap (call.qtt * t.list.elemPaddedSize))) := by
  obtain ⟨front, p, b, rep, rfl, inside⟩ := atTail
  obtain ⟨deck', grows⟩ := allocCall_grows rep called
  have sized : b.size = t.list.arena.blockSize := rep.sized (p, b) (by simp)
  have bound := grows.bound
  have blocks := grows.keeps.blockSize
  have room : sizeSub b.size b.rightOffset = t.list.arena.blockSize - b.rightOffset := by
    rw [sized, sizeSub_of_le inside]
  have rep' := grows.rep
  refine ⟨grows.some_bytes, bound, grows.padded, blocks, ?_⟩
  rcases grows.change.at_last with ⟨fits, rfl, rfl⟩ | ⟨full, rfl, rfl⟩
  · rw [room] at fits
    exact .inl ⟨by omega, rfl, _, _, _, rep', rfl, by omega⟩
  · rw [room] at full
    exact .inr ⟨by omega, rfl, _, _, _, rep', rfl, by omega⟩

/-- A call that asks for so many bytes is accepted when they fit in a block. -/
theorem allocTotal (atTail : t.list.TailAt right) {qtt width total blockSize : ℕ}
    (padded : t.list.elemPaddedSize = width) (blocks : t.list.arena.blockSize = blockSize)
    (asked : sizeWrap (qtt * width) = total) (positive : 0 < total) (fits : total ≤ blockSize) :
    ∃ elem t', allocCall (.allocListElems qtt) t = some (elem, t') ∧
      t'.list.elemPaddedSize = width ∧ t'.list.arena.blockSize = blockSize ∧
      (right + total ≤ blockSize ∧ elem.offset = right ∧ t'.list.TailAt (right + total) ∨
        blockSize < right + total ∧ elem.offset = 0 ∧ t'.list.TailAt total) := by
  subst padded blocks asked
  obtain ⟨front, p, b, rep, -, -⟩ := id atTail
  obtain ⟨elem, arena, deck', alloc, -⟩ := rep.allocAtTail positive fits
  have some_elems : qtt ≠ 0 := fun zero => by simp [zero, sizeWrap] at positive
  have accepted : ∃ t', allocCall (.allocListElems qtt) t = some (elem, t') := by
    simp [allocCall, lfAllocListElems, some_elems, alloc]
  obtain ⟨t', called⟩ := accepted
  obtain ⟨-, -, padded, blocks, change⟩ := atTail.alloc called
  exact ⟨elem, t', called, padded, blocks, change⟩

end LFList.TailAt

/-- Some number of elements takes the least number of bytes. -/
theorem LFList.exists_least (list : LFList β) (padded : list.elemPaddedSize < sizeModulus)
    (positive : 0 < list.elemPaddedSize) :
    ∃ qtt, sizeWrap (qtt * list.elemPaddedSize) = list.leastTotal := by
  have less : Nat.gcd list.elemPaddedSize sizeModulus < sizeModulus :=
    lt_of_le_of_lt (Nat.gcd_le_left _ positive) padded
  obtain ⟨qtt, -, least⟩ := Nat.exists_mul_mod_eq_gcd less
  exact ⟨qtt, by rw [Nat.mul_comm]; exact least⟩

namespace LFList.HandsOutAligned

variable {start : LFList β} {right qtt : ℕ}

/-- An array that finds room in the first block is put at its start offset. -/
theorem first (aligned : start.HandsOutAligned) (atTail : start.TailAt right)
    (least : sizeWrap (qtt * start.elemPaddedSize) = start.leastTotal)
    (positive : 0 < start.leastTotal) (room : right + start.leastTotal ≤ start.arena.blockSize) :
    start.elemAlignment ∣ right := by
  obtain ⟨elem, t, called, -, -, ⟨-, offset, -⟩ | ⟨full, -⟩⟩ :=
    atTail.allocTotal (t := ⟨start, []⟩) rfl rfl least positive (by dsimp only; omega)
  · have divides := aligned [.allocListElems qtt] _ _ (run_cons called (run_nil _)) elem (by simp)
    rw [Ptr.AlignedTo, offset] at divides
    exact Int.natCast_dvd_natCast.mp divides
  · dsimp only at full
    omega

/-- Of three arrays of the least number of bytes two lie side by side when a block holds
two of them. -/
theorem beside (aligned : start.HandsOutAligned) (atTail : start.TailAt right)
    (least : sizeWrap (qtt * start.elemPaddedSize) = start.leastTotal)
    (positive : 0 < start.leastTotal) (room : 2 * start.leastTotal ≤ start.arena.blockSize) :
    start.elemAlignment ∣ start.leastTotal := by
  have fits : start.leastTotal ≤ start.arena.blockSize := by omega
  obtain ⟨one, t₁, called₁, padded₁, blocks₁, place₁⟩ :=
    atTail.allocTotal (t := ⟨start, []⟩) rfl rfl least positive fits
  have second : ∃ right₁ : ℕ, one.offset + start.leastTotal = right₁ ∧ t₁.list.TailAt right₁ := by
    rcases place₁ with ⟨-, offset, atTail₁⟩ | ⟨-, offset, atTail₁⟩
    · exact ⟨_, by rw [offset, Int.natCast_add], atTail₁⟩
    · exact ⟨_, by rw [offset, Int.zero_add], atTail₁⟩
  obtain ⟨right₁, behind, atTail₁⟩ := second
  obtain ⟨two, t₂, called₂, padded₂, blocks₂, place₂⟩ :=
    atTail₁.allocTotal padded₁ blocks₁ least positive fits
  have both := run_cons called₁ (run_cons called₂ (@run_nil _ _ _ allocCall _))
  have answered := aligned _ _ _ both
  have first := answered one (by simp)
  rcases place₂ with ⟨-, offset, -⟩ | ⟨-, offset, atTail₂⟩
  · have divides := answered two (by simp)
    rw [Ptr.AlignedTo, offset, ← behind] at divides
    exact Int.natCast_dvd_natCast.mp ((Int.dvd_add_right first).mp divides)
  · -- the second one opened a block, and the third one lies behind it
    obtain ⟨three, t₃, called₃, -, -, ⟨-, offset₃, -⟩ | ⟨full, -⟩⟩ :=
      atTail₂.allocTotal padded₂ blocks₂ least positive fits
    · have all := run_cons called₁ (run_cons called₂ (run_cons called₃
        (@run_nil _ _ _ allocCall _)))
      have divides := aligned _ _ _ all three (by simp)
      rw [Ptr.AlignedTo, offset₃] at divides
      exact Int.natCast_dvd_natCast.mp divides
    · dsimp only at full
      omega

end LFList.HandsOutAligned

/-- Where the tail block is used up to: to a multiple of the alignment, or so far that
no array fits behind it. -/
structure LFList.EndsAligned (list : LFList β) (a g blockSize : ℕ) : Prop where
  tail : ∃ right, list.TailAt right ∧ (right + g ≤ blockSize → a ∣ right)
  least : list.leastTotal = g
  blocks : list.arena.blockSize = blockSize

/-- An array behind an aligned end ends at an aligned end again. -/
theorem LFList.EndsAligned.alloc {t t' : ListInUse β} {a g blockSize : ℕ}
    (ends : t.list.EndsAligned a g blockSize) (room : 2 * g ≤ blockSize → a ∣ g) {call : AllocCall}
    {elem : Ptr} (called : allocCall call t = some (elem, t')) :
    elem.AlignedTo a ∧ t'.list.EndsAligned a g blockSize := by
  obtain ⟨⟨right, atTail, aligned⟩, rfl, rfl⟩ := ends
  obtain ⟨positive, bound, padded, blocks, place⟩ := atTail.alloc called
  have whole := t.list.leastTotal_dvd call.qtt
  have some_bytes := Nat.le_of_dvd positive whole
  have least : t'.list.leastTotal = t.list.leastTotal := by
    rw [LFList.leastTotal, padded, LFList.leastTotal]
  generalize sizeWrap (call.qtt * t.list.elemPaddedSize) = total at *
  -- where one more array fits behind this one, the block holds two
  have divides {right' : ℕ} (behind : total ≤ right')
      (fits : right' + t.list.leastTotal ≤ t.list.arena.blockSize) :
      elem.offset + total = right' → elem.AlignedTo a → a ∣ right' := by
    intro offset here
    have array : a ∣ total := Nat.dvd_trans (room (by omega)) whole
    refine Int.natCast_dvd_natCast.mp (offset ▸ Int.dvd_add here ?_)
    exact Int.natCast_dvd_natCast.mpr array
  rcases place with ⟨fits, offset, atTail'⟩ | ⟨-, offset, atTail'⟩
  · have here : elem.AlignedTo a := by
      rw [Ptr.AlignedTo, offset]
      exact Int.natCast_dvd_natCast.mpr (aligned (by omega))
    refine ⟨here, ⟨_, atTail', ?_⟩, least, blocks⟩
    intro fits'
    exact divides (Nat.le_add_left ..) fits' (by rw [offset, Int.natCast_add]) here
  · have here : elem.AlignedTo a := by
      rw [Ptr.AlignedTo, offset]
      exact Int.dvd_zero _
    refine ⟨here, ⟨_, atTail', ?_⟩, least, blocks⟩
    intro fits'
    exact divides le_rfl fits' (by rw [offset, Int.zero_add]) here

/-- A list hands out aligned pointers when the alignment divides the middle of a block or
no array fits behind it, and divides the least number of bytes of an array or no two
arrays fit in a block. -/
theorem LFList.handsOutAligned_iff {declared start : LFList β}
    (init : lfInitList declared = some start) :
    start.HandsOutAligned ↔
      (startOffset .middle start.arena.blockSize + start.leastTotal ≤ start.arena.blockSize →
          start.elemAlignment ∣ startOffset .middle start.arena.blockSize) ∧
        (2 * start.leastTotal ≤ start.arena.blockSize →
          start.elemAlignment ∣ start.leastTotal) := by
  obtain ⟨unused, -, -, -, -, width, blocks, -⟩ := LFList.Unused.init init
  obtain ⟨p, b, rep, -, right⟩ := unused.block
  have atTail : start.TailAt (startOffset .middle start.arena.blockSize) :=
    ⟨[], p, b, rep, right, startOffset_le ..⟩
  have padded : 0 < start.elemPaddedSize := Nat.pos_of_ne_zero fun zero => by
    have some_bytes := rep.positive
    simp [blocks, zero, sizeWrap] at some_bytes
  have positive : 0 < start.leastTotal := Nat.gcd_pos_of_pos_left _ padded
  constructor
  · intro aligned
    obtain ⟨qtt, least⟩ := start.exists_least (paddedSize_lt width) padded
    exact ⟨aligned.first atTail least positive, aligned.beside atTail least positive⟩
  · rintro ⟨middle, room⟩ calls answers t runs
    have ends : start.EndsAligned start.elemAlignment start.leastTotal start.arena.blockSize :=
      ⟨⟨_, atTail, middle⟩, rfl, rfl⟩
    refine run_forall_answers (fun t : ListInUse β =>
      t.list.EndsAligned start.elemAlignment start.leastTotal start.arena.blockSize)
      (·.AlignedTo start.elemAlignment) ?_ ends runs
    exact fun call t elem t' ends called => ends.alloc room called

/-- **When the pointers are aligned.** On a stack, when the alignment divides the size of
the elements and that of the blocks, or no element fits in a block; on a list, when it
divides the middle of a block, where an array fits behind it, and the number of bytes of
the least array, where a block holds two of them. -/
theorem pointers_aligned_iff :
    (∀ declared start : Stack β, declared.elemSize < sizeModulus →
      declared.elemAlignment < sizeModulus → lfInitStack declared = some start →
      (start.HandsOutAligned ↔ start.arena.blockSize < start.elemSize ∨
        start.elemAlignment ∣ start.elemSize ∧ start.elemAlignment ∣ start.arena.blockSize)) ∧
    ∀ declared start : LFList β, lfInitList declared = some start →
      (start.HandsOutAligned ↔
        (startOffset .middle start.arena.blockSize + start.leastTotal ≤ start.arena.blockSize →
            start.elemAlignment ∣ startOffset .middle start.arena.blockSize) ∧
          (2 * start.leastTotal ≤ start.arena.blockSize →
            start.elemAlignment ∣ start.leastTotal)) :=
  ⟨fun _ _ small alignment init => Stack.handsOutAligned_iff small alignment init,
    fun _ _ init => LFList.handsOutAligned_iff init⟩

/-- Two aligned elements a block. -/
theorem pointers_aligned_iff_two : ∃ (stack : Stack UInt8) (list : LFList UInt8),
    lfInitStack (Stack.declared (Allocator.bump 0) 2 4 4) = some stack ∧
      lfInitList (LFList.declared (Allocator.bump 0) 2 4 4) = some list ∧
      (stack.HandsOutAligned ↔ stack.arena.blockSize < stack.elemSize ∨
        stack.elemAlignment ∣ stack.elemSize ∧ stack.elemAlignment ∣ stack.arena.blockSize) ∧
      (list.HandsOutAligned ↔
        (startOffset .middle list.arena.blockSize + list.leastTotal ≤ list.arena.blockSize →
            list.elemAlignment ∣ startOffset .middle list.arena.blockSize) ∧
          (2 * list.leastTotal ≤ list.arena.blockSize → list.elemAlignment ∣ list.leastTotal)) := by
  have some_stack :
      (lfInitStack (Stack.declared (Allocator.bump (0 : UInt8)) 2 4 4)).isSome = true := by
    decide +kernel
  have some_list :
      (lfInitList (LFList.declared (Allocator.bump (0 : UInt8)) 2 4 4)).isSome = true := by
    decide +kernel
  obtain ⟨stack, initStack⟩ := Option.isSome_iff_exists.mp some_stack
  obtain ⟨list, initList⟩ := Option.isSome_iff_exists.mp some_list
  exact ⟨stack, list, initStack, initList,
    pointers_aligned_iff.1 _ stack (by decide) (by decide) initStack,
    pointers_aligned_iff.2 _ list initList⟩

/-- A stack of three bytes an element and an alignment of four; a list of three elements of
two bytes a block. -/
theorem pointers_not_aligned : (∃ (stack ended : Stack UInt8) (ptr : Ptr),
    lfInitStack (Stack.declared (Allocator.bump 0) 2 3 4) = some stack ∧
      run slotStep [.allocStackElem] stack = some ([some ptr], ended) ∧
      ¬ ptr.AlignedTo stack.elemAlignment) ∧
    ∃ (list : LFList UInt8) (t : ListInUse UInt8) (ptr : Ptr),
      lfInitList (LFList.declared (Allocator.bump 0) 3 2 2) = some list ∧
        run allocCall [.allocListElem] ⟨list, []⟩ = some ([ptr], t) ∧
        ¬ ptr.AlignedTo list.elemAlignment := by
  constructor
  · have ends : ((lfInitStack (Stack.declared (Allocator.bump (0 : UInt8)) 2 3 4)).bind fun stack =>
        (run slotStep [.allocStackElem] stack).map fun reached =>
          (stack.elemAlignment, reached.1)) = some (4, [some ⟨0, 5⟩]) := by
      decide +kernel
    obtain ⟨stack, init, ends⟩ := Option.bind_eq_some_iff.mp ends
    obtain ⟨⟨answers, ended⟩, runs, ends⟩ := Option.map_eq_some_iff.mp ends
    obtain ⟨alignment, rfl⟩ := Prod.mk.inj ends
    refine ⟨stack, ended, ⟨0, 5⟩, init, runs, ?_⟩
    rw [alignment]
    exact (by decide : ¬ ((4 : ℕ) : ℤ) ∣ 5)
  · have ends : ((lfInitList (LFList.declared (Allocator.bump (0 : UInt8)) 3 2 2)).bind fun list =>
        (run allocCall [.allocListElem] ⟨list, []⟩).map fun reached =>
          (list.elemAlignment, reached.1)) = some (2, [⟨0, 3⟩]) := by
      decide +kernel
    obtain ⟨list, init, ends⟩ := Option.bind_eq_some_iff.mp ends
    obtain ⟨⟨answers, t⟩, runs, ends⟩ := Option.map_eq_some_iff.mp ends
    obtain ⟨alignment, rfl⟩ := Prod.mk.inj ends
    refine ⟨list, t, ⟨0, 3⟩, init, runs, ?_⟩
    rw [alignment]
    exact (by decide : ¬ ((2 : ℕ) : ℤ) ∣ 3)

end LowFlow
