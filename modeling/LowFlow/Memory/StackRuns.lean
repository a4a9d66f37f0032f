import LowFlow.Memory.Lifo

/-!
# A stack refines a list

Every run of pushes and pops on a new stack answers as the same run on a list
does, and the blocks behind the head block are full throughout.
-/

set_option autoImplicit false

namespace LowFlow

open Library

variable {β : Type}

/-! ## How many elements a block has -/

/-- Blocks without room for another slot hold as many as there are in a block. -/
theorem TilesDeck.length_of_full {deck : Deck β} {regions : List Region} {width size : ℕ}
    (tiles : TilesDeck deck regions) (same : ∀ r ∈ regions, r.size = width)
    (right : ∀ entry ∈ deck, entry.2.rightOffset = size)
    (full : ∀ entry ∈ deck, entry.2.leftOffset < width) :
    regions.length = deck.length * (size / width) := by
  induction deck generalizing regions with
  | nil =>
      cases (tiles : regions = [])
      simp
  | cons entry rest ih =>
      obtain ⟨here, there, rfl, first, onward⟩ := tiles
      obtain ⟨sameHere, sameThere⟩ := List.forall_mem_append.mp same
      obtain ⟨rightHere, rightThere⟩ := List.forall_mem_cons.mp right
      obtain ⟨fullHere, fullThere⟩ := List.forall_mem_cons.mp full
      have filled := first.length_eq sameHere
      rw [rightHere] at filled
      have count : size / width = here.length := by
        rw [filled, Nat.add_mul_div_left _ _ (Nat.zero_lt_of_lt fullHere),
          Nat.div_eq_of_lt fullHere, Nat.zero_add]
      rw [List.length_append, ih onward sameThere rightThere fullThere, List.length_cons, count,
        Nat.succ_mul, Nat.add_comm]

/-- A block that has no room for another slot starts with the rest that no slot fits in. -/
theorem TilesDeck.left_of_full {deck : Deck β} {regions : List Region} {width size : ℕ}
    (tiles : TilesDeck deck regions) (same : ∀ r ∈ regions, r.size = width)
    {entry : BlockPtr × Slab β} (member : entry ∈ deck) (right : entry.2.rightOffset = size)
    (full : entry.2.leftOffset < width) : entry.2.leftOffset = size % width := by
  obtain ⟨front, back, rfl⟩ := List.append_of_mem member
  obtain ⟨before, -, rfl, -, here, after, rfl, first, -⟩ := tilesDeck_append.mp tiles
  have filled := first.length_eq fun r inHere => same r (by simp [inHere])
  rw [← right, filled, Nat.add_mul_mod_self_left, Nat.mod_eq_of_lt full]

/-- The blocks behind the head block have no room for another element. -/
theorem Stack.Holds.full_behind {stack : Stack β} {used : Deck β} {live : List (Element β)}
    (holds : stack.Holds used [] live) {entry : BlockPtr × Slab β} (member : entry ∈ used.tail) :
    entry.2.leftOffset = stack.arena.blockSize % stack.elemSize ∧
      entry.2.rightOffset = stack.arena.blockSize := by
  obtain ⟨⟨p, b⟩, rest, rfl⟩ := List.exists_cons_of_ne_nil holds.nonempty
  have right : entry.2.rightOffset = stack.arena.blockSize :=
    holds.right entry (by simp [show entry ∈ rest from member])
  obtain ⟨here, there, split, -, onward⟩ := holds.tiles
  have same : ∀ r ∈ there, r.size = stack.elemSize := by
    intro r inThere
    obtain ⟨e, inLive, rfl⟩ := List.mem_map.mp (split ▸ List.mem_append_right _ inThere)
    exact holds.sized e inLive
  exact ⟨onward.left_of_full same member right (holds.full entry member), right⟩

/-- With blocks of whole slots, the blocks behind the head block are filled. -/
theorem Stack.Holds.filled_behind {stack : Stack β} {used : Deck β} {live : List (Element β)}
    (holds : stack.Holds used [] live) (whole : stack.elemSize ∣ stack.arena.blockSize)
    {entry : BlockPtr × Slab β} (member : entry ∈ used.tail) :
    entry.2.leftOffset = 0 ∧ entry.2.rightOffset = stack.arena.blockSize := by
  obtain ⟨left, right⟩ := holds.full_behind member
  exact ⟨left.trans (Nat.mod_eq_zero_of_dvd whole), right⟩

/-! ## Runs -/

/-- What can be done with a stack: pushing an element and popping one. -/
inductive StackOp (β : Type) where
  | push (bytes : List β)
  | pop

/-- The elements that are pushed have the stack's element size. -/
def StackOp.Legal (elemSize : ℕ) : StackOp β → Prop
  | .push bytes => bytes.length = elemSize
  | .pop => True

/-- What a stack is meant to be: a list of elements, the last pushed first. A
pop answers with the element it takes. -/
def lifoStep : StackOp β → List (List β) → Option (Option (List β) × List (List β))
  | .push bytes, elems => some (none, bytes :: elems)
  | .pop, [] => some (none, [])
  | .pop, top :: elems => some (some top, elems)

/-- A stack with the record of the elements pushed and not popped yet. -/
structure Pushed (β : Type) where
  stack : Stack β
  live : List (Element β)

/-- One operation. A pop answers with what it finds in the slot it returns. -/
def stackStep : StackOp β → Pushed β → Option (Option (List β) × Pushed β)
  | .push bytes, t => do
      let (ptr, stack) ← t.stack.push bytes
      some (none, ⟨stack, (ptr, bytes) :: t.live⟩)
  | .pop, t => do
      match ← lfPopFromStack t.stack with
      | (none, stack) => some (none, ⟨stack, t.live⟩)
      | (some ptr, stack) =>
          let bytes ← stack.arena.heap.load ptr stack.elemSize
          some (some bytes, ⟨stack, t.live.tail⟩)

/-- What holds of a stack whose elements are `live`, top first. -/
structure Stack.IsLifo (stack : Stack β) (live : List (Element β)) : Prop where
  /-- The count is the number of elements. -/
  count : stack.elemCount = live.length
  /-- Each slot holds its element. -/
  slots : ∀ e ∈ live, stack.arena.heap.load e.1 stack.elemSize = some e.2
  /-- The slots do not overlap. -/
  apart : (live.map slot).Pairwise Region.Apart
  /-- A pop on an empty stack returns `NULL` and changes nothing. -/
  popEmpty : live = [] → lfPopFromStack stack = some (none, stack)
  /-- A pop returns the slot of the last element pushed, which still holds it. -/
  popTop : ∀ ptr bytes rest, live = (ptr, bytes) :: rest →
    ∃ stack', lfPopFromStack stack = some (some ptr, stack') ∧
      stack'.arena.heap.load ptr stack.elemSize = some bytes ∧
      ∀ e ∈ rest, stack'.arena.heap.load e.1 stack.elemSize = some e.2
  /-- A new slot overlaps no other, and the others keep their elements. -/
  alloc : ∃ ptr stack', lfAllocStackElem stack = some (ptr, stack') ∧
    (∀ e ∈ live, Region.Apart ⟨ptr, stack.elemSize⟩ (slot e)) ∧
    ∀ e ∈ live, stack'.arena.heap.load e.1 stack.elemSize = some e.2

/-- Every block but the first has as many elements as fit in it, and there are no more blocks
than needed. -/
structure Stack.IsFilled (stack : Stack β) (deck : Deck β) : Prop where
  represents : Represents stack.arena deck
  full : ∀ entry ∈ deck.tail, entry.2.leftOffset = stack.arena.blockSize % stack.elemSize ∧
    entry.2.rightOffset = stack.arena.blockSize
  blocks : stack.arena.blockCount ≤
    stack.elemCount / (stack.arena.blockSize / stack.elemSize) + 1

/-- Every block but the first is full, and there are no more than needed for
`elem_qtt_in_block` elements a block. -/
structure Stack.IsPacked (stack : Stack β) (deck : Deck β) : Prop where
  represents : Represents stack.arena deck
  full : ∀ entry ∈ deck.tail,
    entry.2.leftOffset = 0 ∧ entry.2.rightOffset = stack.arena.blockSize
  blocks : stack.arena.blockCount ≤ stack.elemCount / stack.elemQttInBlock + 1

theorem Stack.Holds.isLifo {stack : Stack β} {used spare : Deck β} {live : List (Element β)}
    (holds : stack.Holds used spare live) (count : stack.elemCount = live.length) :
    stack.IsLifo live where
  count := count
  slots := fun e member => holds.load member
  apart := holds.apart
  popEmpty := fun none => lfPopFromStack_empty (by simp [count, none])
  popTop := by
    intro ptr bytes rest split
    subst split
    obtain ⟨stack', used', popped, holds', keeps, -, top⟩ := holds.pop (by simp [count])
    refine ⟨stack', popped, ?_, ?_⟩
    · rwa [keeps.size] at top
    · intro e member
      have loaded := holds'.load member
      rwa [keeps.size] at loaded
  alloc := by
    obtain ⟨ptr, stack', used', old, alloc, holds', keeps, -, -⟩ := holds.alloc
    have width : old.length = stack.elemSize :=
      (holds'.sized _ (List.mem_cons_self ..)).trans keeps.size
    refine ⟨ptr, stack', alloc, ?_, ?_⟩
    · intro e member
      rw [← width]
      exact (List.pairwise_cons.mp holds'.apart).1 _ (List.mem_map_of_mem member)
    · intro e member
      have loaded := holds'.load (List.mem_cons_of_mem _ member)
      rwa [keeps.size] at loaded

/-- The blocks behind the head block have as many elements as fit in them, and the head block
has the others. -/
theorem Stack.Holds.length_eq {stack : Stack β} {p : BlockPtr} {b : Slab β} {rest : Deck β}
    {live : List (Element β)} (holds : stack.Holds ((p, b) :: rest) [] live) :
    ∃ here : List Region, Tiles p b.leftOffset here b.rightOffset ∧
      live.length = here.length + rest.length * (stack.arena.blockSize / stack.elemSize) := by
  have same : ∀ r ∈ live.map slot, r.size = stack.elemSize :=
    List.forall_mem_map.mpr holds.sized
  obtain ⟨here, there, split, first, onward⟩ := holds.tiles
  have sameThere : ∀ r ∈ there, r.size = stack.elemSize := fun r member =>
    same r (by simp [split, member])
  have right : ∀ entry ∈ rest, entry.2.rightOffset = stack.arena.blockSize := fun entry member =>
    holds.right entry (by simp [member])
  have filled := onward.length_of_full sameThere right holds.full
  have total := congrArg List.length split
  rw [List.length_map, List.length_append, filled] at total
  exact ⟨here, first, total⟩

theorem Stack.Holds.isFilled {stack : Stack β} {used : Deck β} {live : List (Element β)}
    (holds : stack.Holds used [] live) (count : stack.elemCount = live.length) :
    stack.IsFilled used := by
  obtain ⟨⟨p, b⟩, rest, rfl⟩ := List.exists_cons_of_ne_nil holds.nonempty
  have rep : Represents stack.arena ((p, b) :: rest) := by simpa using holds.rep
  obtain ⟨here, -, total⟩ := holds.length_eq
  have positive : 0 < stack.arena.blockSize / stack.elemSize :=
    Nat.div_pos holds.fits holds.positive
  refine ⟨rep, fun entry member => holds.full_behind member, ?_⟩
  rw [rep.count, List.length_cons, count, total]
  refine Nat.succ_le_succ ((Nat.le_div_iff_mul_le positive).mpr ?_)
  exact Nat.le_add_left ..

/-- Elements that fit in one block take one block, when the head block is in use. -/
theorem Stack.Holds.single {stack : Stack β} {p : BlockPtr} {b : Slab β} {rest : Deck β}
    {live : List (Element β)} (holds : stack.Holds ((p, b) :: rest) [] live)
    (inUse : live ≠ [] → b.leftOffset ≠ b.rightOffset)
    (fits : live.length * stack.elemSize ≤ stack.arena.blockSize) : rest = [] := by
  obtain ⟨here, first, total⟩ := holds.length_eq
  have some_here : 0 < live.length → 0 < here.length := by
    intro some
    cases here with
    | nil => exact absurd first (inUse (List.length_pos_iff.mp some))
    | cons r here => exact Nat.succ_pos _
  have most := (Nat.le_div_iff_mul_le holds.positive).mpr fits
  have room : 0 < stack.arena.blockSize / stack.elemSize := Nat.div_pos holds.fits holds.positive
  by_contra behind
  have some_behind := List.length_pos_iff.mpr behind
  have enough := Nat.le_mul_of_pos_left (stack.arena.blockSize / stack.elemSize) some_behind
  omega

/-- With blocks of `elem_qtt_in_block` elements the blocks behind the first are full. -/
theorem Stack.IsFilled.isPacked {stack : Stack β} {deck : Deck β} (filled : stack.IsFilled deck)
    (positive : 0 < stack.elemSize)
    (blocks : stack.arena.blockSize = stack.elemQttInBlock * stack.elemSize) :
    stack.IsPacked deck where
  represents := filled.represents
  full := fun entry member => by
    obtain ⟨left, right⟩ := filled.full entry member
    rw [blocks, Nat.mul_mod_left] at left
    exact ⟨left, right⟩
  blocks := by
    have bound := filled.blocks
    rwa [blocks, Nat.mul_div_cancel _ positive] at bound

/-- **One operation** on a stack does what it does to the list of its elements. -/
theorem Stack.Holds.step {t : Pushed β} {used spare : Deck β}
    (holds : t.stack.Holds used spare t.live) (count : t.stack.elemCount = t.live.length)
    (op : StackOp β) (legal : op.Legal t.stack.elemSize) :
    ∃ answer t' used', stackStep op t = some (answer, t') ∧
      lifoStep op (t.live.map Prod.snd) = some (answer, t'.live.map Prod.snd) ∧
      t'.stack.Holds used' spare t'.live ∧ t'.stack.elemCount = t'.live.length ∧
      t.stack.Keeps t'.stack := by
  obtain ⟨stack, live⟩ := t
  dsimp only at holds count legal ⊢
  cases op with
  | push bytes =>
      obtain ⟨ptr, stack', used', pushed, holds', keeps, more, -⟩ := holds.push legal
      refine ⟨none, ⟨stack', (ptr, bytes) :: live⟩, used', by simp [stackStep, pushed], rfl, holds',
        ?_, keeps⟩
      rw [more, count, List.length_cons]
  | pop =>
      cases live with
      | nil =>
          refine ⟨none, ⟨stack, []⟩, used, ?_, rfl, holds, count, .refl _⟩
          simp [stackStep, lfPopFromStack_empty count]
      | cons top rest =>
          obtain ⟨ptr, bytes⟩ := top
          have counted : stack.elemCount ≠ 0 := by simp [count]
          obtain ⟨stack', used', popped, holds', keeps, less, loaded⟩ := holds.pop counted
          refine ⟨some bytes, ⟨stack', rest⟩, used', by simp [stackStep, popped, loaded], rfl,
            holds', ?_, keeps⟩
          rw [less, count, List.length_cons, Nat.add_sub_cancel]

/-- **A run** on a stack does what it does to the list of its elements. -/
theorem Stack.Holds.runs {t : Pushed β} {used spare : Deck β}
    (holds : t.stack.Holds used spare t.live) (count : t.stack.elemCount = t.live.length)
    {ops : List (StackOp β)} (legal : ∀ op ∈ ops, op.Legal t.stack.elemSize) :
    ∃ answers t' used', run stackStep ops t = some (answers, t') ∧
      run lifoStep ops (t.live.map Prod.snd) = some (answers, t'.live.map Prod.snd) ∧
      t'.stack.Holds used' spare t'.live ∧ t'.stack.elemCount = t'.live.length ∧
      t.stack.Keeps t'.stack := by
  let Inv (u : Pushed β) (elems : List (List β)) : Prop :=
    elems = u.live.map Prod.snd ∧ u.stack.elemCount = u.live.length ∧ t.stack.Keeps u.stack ∧
      ∃ used, u.stack.Holds used spare u.live
  have agrees : ∀ op u elems, StackOp.Legal t.stack.elemSize op → Inv u elems →
      ∃ answer u' elems', stackStep op u = some (answer, u') ∧
        lifoStep op elems = some (answer, elems') ∧ Inv u' elems' := by
    intro op u elems legal inv
    obtain ⟨rfl, count, keeps, used, holds⟩ := inv
    obtain ⟨answer, u', used', first, second, holds', count', keeps'⟩ :=
      holds.step count op (by rwa [keeps.size])
    exact ⟨answer, u', _, first, second, rfl, count', keeps.trans keeps', used', holds'⟩
  obtain ⟨answers, t', elems, runs, lifo, rfl, count', keeps, used', holds'⟩ :=
    run_agrees Inv (StackOp.Legal t.stack.elemSize) agrees legal ⟨rfl, count, .refl _, used, holds⟩
  exact ⟨answers, t', used', runs, lifo, holds', count', keeps⟩

/-- **A stack refines a list**, when a block has room for an element. Its blocks have
`elem_qtt_in_block` elements unless their size wraps around. -/
theorem stack_refines_lifo (stack : Stack β) (positive : 0 < stack.elemSize)
    (width : stack.elemSize < sizeModulus) (some_in_block : 1 ≤ stack.elemQttInBlock)
    (aligned : stack.elemAlignment ∣ stack.elemSize)
    (fits : stack.elemSize ≤ sizeWrap (stack.elemQttInBlock * stack.elemSize))
    (ops : List (StackOp β)) (legal : ∀ op ∈ ops, op.Legal stack.elemSize) :
    ∃ start answers t deck, lfInitStack stack = some start ∧
      run stackStep ops ⟨start, []⟩ = some (answers, t) ∧
      run lifoStep ops [] = some (answers, t.live.map Prod.snd) ∧
      t.stack.IsLifo t.live ∧ t.stack.IsFilled deck ∧
      (stack.elemQttInBlock * stack.elemSize < sizeModulus → t.stack.IsPacked deck) := by
  obtain ⟨start, used, init, holds, blockSize, qtt, size, -, count⟩ :=
    Stack.Holds.init positive some_in_block (paddedSize_of_dvd aligned positive width) fits
  obtain ⟨answers, t, used', runs, lifo, holds', counts, keeps⟩ :=
    Stack.Holds.runs (t := ⟨start, []⟩) holds count (size.symm ▸ legal)
  have filled := holds'.isFilled counts
  refine ⟨start, answers, t, used', init, runs, lifo, holds'.isLifo counts, filled, ?_⟩
  intro small
  refine filled.isPacked holds'.positive ?_
  rw [keeps.arena.blockSize, keeps.qtt, keeps.size, qtt, size, blockSize, sizeWrap_of_lt small]

/-- Pushes and pops across the border of two-element blocks. -/
theorem stack_refines_lifo_pairs :
    ∃ start answers t deck,
      lfInitStack (Stack.declared (Allocator.bump (0 : UInt8)) 2 2 1) = some start ∧
      run stackStep [.push [1, 2], .push [3, 4], .push [5, 6], .pop, .pop] ⟨start, []⟩ =
        some (answers, t) ∧
      run lifoStep [.push [1, 2], .push [3, 4], .push [5, 6], .pop, .pop] [] =
        some (answers, t.live.map Prod.snd) ∧
      t.stack.IsLifo t.live ∧ t.stack.IsFilled deck ∧
        (2 * 2 < sizeModulus → t.stack.IsPacked deck) :=
  stack_refines_lifo (Stack.declared (Allocator.bump 0) 2 2 1) (by decide) (by decide) (by decide)
    (by decide) (by decide) [.push [1, 2], .push [3, 4], .push [5, 6], .pop, .pop]
    (by simp [StackOp.Legal, Stack.declared])

/-- Block sizes that wrap around: with that of one element, two elements take two blocks; with
less than that of one, none can be pushed. -/
theorem stack_block_size_wraps :
    (do
      let start ← lfInitStack (Stack.declared (Allocator.bump (0 : UInt8)) ((1 <<< 61) + 1) 8 8)
      let (_, t) ← run stackStep
        [.push (List.replicate 8 1), .push (List.replicate 8 2)] ⟨start, []⟩
      some (t.stack.elemCount / t.stack.elemQttInBlock + 1, t.stack.arena.blockCount)) =
        some (1, 2) ∧
    (do
      let start ← lfInitStack
        (Stack.declared (Allocator.bump (0 : UInt8)) (((1 <<< 65) + 1) / 3) 3 1)
      some (start.arena.blockSize, (lfAllocStackElem start).isSome)) = some (1, false) := by
  decide +kernel

end LowFlow
