import LowFlow.Memory.String
import LowFlow.Memory.Typed

/-!
# Stacks that count more than they hold

A reset empties the blocks of a stack and keeps its element count. Afterwards the
stack counts more values than there are in its blocks. As long as a pop finds a
value in the blocks it answers with the last one pushed; with none left it takes a
slot behind the end of a block, which cannot be read.
-/

set_option autoImplicit false

namespace LowFlow

open Library

variable {β α : Type}

/-- So many elements are in the used ranges of the blocks. -/
def Stack.HasLive (stack : Stack β) (n : ℕ) : Prop :=
  ∃ deck, Represents stack.arena deck ∧ n * stack.elemPaddedSize ≤ deck.positions.length

/-- So many pops each return a slot in the used range of a block. -/
def Stack.PopsInside : ℕ → Stack β → Prop
  | 0, _ => True
  | n + 1, stack => ∃ deck p b offset stack', Represents stack.arena deck ∧ (p, b) ∈ deck ∧
      lfPopFromStack stack = some (some ⟨p, (offset : ℕ)⟩, stack') ∧ b.leftOffset ≤ offset ∧
      offset + stack.elemPaddedSize ≤ b.rightOffset ∧ stack'.PopsInside n

/-- The stack has these values in its blocks, top first, and counts as many or more. -/
structure Stack.Stores (stack : Stack (Cell α)) (size : ℕ) (values : List α) : Prop where
  width : stack.elemSize = size
  offset : stack.arena.blockOffset = .right
  counted : values.length ≤ stack.elemCount
  holds : ∃ used spare live, stack.Holds used spare live ∧
    live.map Prod.snd = values.map (pieces size)

/-! ## What is live -/

/-- The blocks hold the elements and nothing else. -/
theorem Stack.Holds.length_positions {stack : Stack β} {used spare : Deck β}
    {live : List (Element β)} (holds : stack.Holds used spare live) :
    (used ++ spare).positions.length = live.length * stack.elemSize := by
  have unused : spare.positions = [] := by
    apply List.flatMap_eq_nil_iff.mpr
    intro entry member
    have left := holds.empty entry member
    have right := holds.right entry (List.mem_append_right _ member)
    simp [left, right, positionsFrom]
  have even : ∀ r ∈ live.map slot, r.size = stack.elemSize := by
    intro r member
    obtain ⟨e, inLive, rfl⟩ := List.mem_map.mp member
    exact holds.sized e inLive
  have split : (used ++ spare).positions = used.positions ++ spare.positions :=
    List.flatMap_append
  rw [split, unused, List.append_nil, LowFlow.length_positions, holds.tiles.liveBytes_eq even,
    List.length_map]

/-! ## Using such a stack -/

namespace Stack.Stores

variable {stack : Stack (Cell α)} {size : ℕ} {values : List α}

theorem push (stores : stack.Stores size values) (value : α) :
    ∃ stack', stack.pushValue size value = some stack' ∧ stack'.Stores size (value :: values) ∧
      stack.Keeps stack' ∧ stack'.elemCount = stack.elemCount + 1 := by
  obtain ⟨rfl, offset, counted, used, spare, live, holds, same⟩ := stores
  obtain ⟨ptr, stack', used', pushed, holds', keeps, more, -⟩ :=
    holds.push (length_pieces stack.elemSize value)
  refine ⟨stack', by simp [pushValue, pushed], ⟨keeps.size, ?_, ?_, used', spare, _, holds', ?_⟩,
    keeps, more⟩
  · rw [keeps.arena.blockOffset, offset]
  · rw [more, List.length_cons]
    omega
  · simp [same]

theorem pop [DecidableEq α] {top : α} (stores : stack.Stores size (top :: values)) :
    ∃ stack', stack.popValue size = some (top, stack') ∧ stack'.Stores size values ∧
      stack.Keeps stack' ∧ stack'.elemCount = stack.elemCount - 1 ∧
      (∃ deck p b offset, Represents stack.arena deck ∧ (p, b) ∈ deck ∧
        lfPopFromStack stack = some (some ⟨p, (offset : ℕ)⟩, stack') ∧ b.leftOffset ≤ offset ∧
        offset + stack.elemPaddedSize ≤ b.rightOffset) := by
  obtain ⟨rfl, offset, counted, used, spare, live, holds, same⟩ := stores
  rw [List.length_cons] at counted
  obtain ⟨ptr, rest, stack', used', rfl, sameRest, popped, value, holds', keeps, less⟩ :=
    holds.popValue (by omega) same
  refine ⟨stack', value, ⟨keeps.size, ?_, ?_, used', spare, rest, holds', sameRest⟩, keeps, less,
    ?_⟩
  · rw [keeps.arena.blockOffset, offset]
  · omega
  · obtain ⟨⟨p, b⟩, inUse, block, low, high⟩ := holds.tiles.inside (List.mem_cons_self ..)
    obtain ⟨q, place⟩ := ptr
    obtain rfl : q = p := block
    obtain ⟨place, rfl⟩ := Int.eq_ofNat_of_zero_le (Int.le_trans (Int.natCast_nonneg _) low)
    refine ⟨used ++ spare, q, b, place, holds.rep, List.mem_append_left _ inUse, popped, ?_, ?_⟩
    · exact Int.ofNat_le.mp low
    · rw [holds.padded]
      have bound : (place : ℤ) + (pieces stack.elemSize top).length ≤ b.rightOffset := high
      rw [length_pieces] at bound
      omega

/-- With nothing left a pop takes a slot that cannot be read. -/
theorem pop_past [DecidableEq α] (stores : stack.Stores size []) (counted : stack.elemCount ≠ 0) :
    stack.popValue size = none := by
  obtain ⟨rfl, -, -, used, spare, live, holds, same⟩ := stores
  cases List.map_eq_nil_iff.mp same
  have outside : ∀ {p : BlockPtr} {b : Slab (Cell α)} {deck : Deck (Cell α)}
      {stack' : Stack (Cell α)},
      lfPopFromStack stack = some (some ⟨p, b.leftOffset⟩, stack') →
      Represents stack'.arena deck → p ∈ ptrs deck →
      stack'.arena.blockSize = stack.arena.blockSize → b.leftOffset = stack.arena.blockSize →
      stack.popValue stack.elemSize = none := by
    intro p b deck stack' popped rep member blocks left
    obtain ⟨⟨q, c⟩, inDeck, rfl⟩ := List.mem_map.mp member
    have unread := rep.load_outside inDeck
      (show stack'.arena.blockSize < b.leftOffset + stack.elemSize by
        have positive := holds.positive
        omega)
    simp [popValue, popped, unread]
  obtain ⟨⟨p, b⟩, rest, rfl⟩ := List.exists_cons_of_ne_nil holds.nonempty
  have empty : b.leftOffset = b.rightOffset := holds.tiles.first_empty
  have right : b.rightOffset = stack.arena.blockSize := holds.right (p, b) (by simp)
  obtain rfl : rest = [] := by
    cases rest with
    | nil => rfl
    | cons next rest =>
        exact absurd (holds.tiles.skipEmpty empty).first_empty holds.next_nonempty
  cases spare with
  | nil =>
      obtain ⟨stack', popped, rep', keeps, -⟩ := lfPopFromStack_single counted holds.rep
      exact outside popped rep' (by simp) keeps.arena.blockSize (empty.trans right)
  | cons next rest =>
      obtain ⟨q, c⟩ := next
      obtain ⟨arena, stack', -, keeps₁, popped, rep', keeps, -⟩ :=
        lfPopFromStack_next counted holds.rep empty
      have left : c.leftOffset = stack.arena.blockSize := holds.empty (q, c) (by simp)
      have blocks : arena.blockSize = stack.arena.blockSize := keeps₁.blockSize
      exact outside popped rep' (by simp) (keeps.arena.blockSize.trans blocks) left

/-- Popping no more values than there are. -/
theorem popValues [DecidableEq α] {n : ℕ} (stores : stack.Stores size values)
    (enough : n ≤ values.length) :
    ∃ stack', Stack.popValues size n stack = some (values.take n, stack') ∧
      stack'.Stores size (values.drop n) ∧ stack.Keeps stack' ∧
      stack'.elemCount = stack.elemCount - n ∧ stack.PopsInside n := by
  induction n generalizing stack values with
  | zero => exact ⟨stack, rfl, by simpa using stores, .refl _, rfl, trivial⟩
  | succ n ih =>
      cases values with
      | nil => simp at enough
      | cons top rest =>
          obtain ⟨stack₁, popped, stores₁, keeps₁, count₁, inside⟩ := stores.pop
          obtain ⟨stack', others, stores', keeps, count, insides⟩ :=
            ih stores₁ (by simpa using enough)
          obtain ⟨deck, p, b, offset, rep, member, slot, low, high⟩ := inside
          refine ⟨stack', by simp [Stack.popValues, popped, others], stores', keeps₁.trans keeps,
            by omega, deck, p, b, offset, stack₁, rep, member, slot, low, high, insides⟩

/-- Popping more values than there are. -/
theorem popValues_past [DecidableEq α] {n : ℕ} (stores : stack.Stores size values)
    (few : values.length < n) (counted : n ≤ stack.elemCount) :
    Stack.popValues size n stack = none := by
  induction n generalizing stack values with
  | zero => simp at few
  | succ n ih =>
      cases values with
      | nil => simp [Stack.popValues, stores.pop_past (by omega)]
      | cons top rest =>
          obtain ⟨stack₁, popped, stores₁, keeps₁, count₁, -⟩ := stores.pop
          have onward := ih stores₁ (by simpa using few) (by omega)
          simp [Stack.popValues, popped, onward]

/-- A reset empties the blocks and keeps the count. -/
theorem reset (stores : stack.Stores size values) :
    ∃ stack', lfResetStack stack = some stack' ∧ stack'.Stores size [] ∧ stack.Keeps stack' ∧
      stack'.elemCount = stack.elemCount := by
  obtain ⟨rfl, offset, -, used, spare, live, holds, -⟩ := stores
  obtain ⟨stack', reset, rep, keeps, count⟩ := lfResetStack_spec holds.rep
  have blocks : stack'.arena.blockSize = stack.arena.blockSize := keeps.arena.blockSize
  rw [offset] at rep
  have place : startOffset .right stack.arena.blockSize = stack'.arena.blockSize := blocks.symm
  rw [place] at rep
  obtain ⟨⟨p, b⟩, rest, split⟩ : ∃ entry rest, used ++ spare = entry :: rest :=
    List.exists_cons_of_ne_nil holds.rep.nonempty
  rw [split] at rep
  refine ⟨stack', reset, ⟨keeps.size, keeps.arena.blockOffset.trans offset, Nat.zero_le _,
    [(p, b.restart stack'.arena.blockSize)], Deck.restart rest stack'.arena.blockSize, [], ?_, rfl⟩,
    keeps, count⟩
  have even : ∀ entry ∈ Deck.restart ((p, b) :: rest) stack'.arena.blockSize,
      entry.2.leftOffset = stack'.arena.blockSize ∧
        entry.2.rightOffset = stack'.arena.blockSize := by
    intro entry member
    obtain ⟨before, -, rfl⟩ := List.mem_map.mp member
    exact ⟨rfl, rfl⟩
  exact {
    rep := rep
    padded := keeps.padded.trans (holds.padded.trans keeps.size.symm)
    positive := by rw [keeps.size]; exact holds.positive
    fits := by rw [keeps.size, blocks]; exact holds.fits
    nonempty := List.cons_ne_nil _ _
    right := fun entry member => (even entry member).2
    full := by simp
    empty := fun entry member => (even entry (List.mem_cons_of_mem _ member)).1
    sized := by simp
    tiles := tilesDeck_singleton.mpr rfl
    reads := by simp }

/-- A new stack has no values. -/
theorem init (declared : Stack (Cell α)) (width : declared.elemSize = size) (positive : 0 < size)
    (small : size < sizeModulus) (aligned : declared.elemAlignment ∣ size)
    (fits : size ≤ sizeWrap (declared.elemQttInBlock * size)) :
    ∃ start, lfInitStack declared = some start ∧ start.Stores size [] ∧ start.elemCount = 0 := by
  subst width
  have some_in_block : 0 < declared.elemQttInBlock := Nat.pos_of_ne_zero fun zero => by
    simp [zero, sizeWrap] at fits
    omega
  have padded := paddedSize_of_dvd aligned positive small
  obtain ⟨start, used, init, holds, -, -, width, -, count⟩ :=
    Holds.init positive some_in_block padded fits
  obtain ⟨start', -, -, init', -, -, offset, -⟩ :=
    lfInitStack_spec positive some_in_block padded (by omega)
  obtain rfl : start = start' := Option.some.inj (init.symm.trans init')
  exact ⟨start, init, ⟨width, offset, Nat.zero_le _, used, [], [], holds, rfl⟩, count⟩

/-- As many values as there are are live. -/
theorem hasLive_iff (stores : stack.Stores size values) {n : ℕ} :
    stack.HasLive n ↔ n ≤ values.length := by
  obtain ⟨rfl, -, -, used, spare, live, holds, same⟩ := stores
  have counts : live.length = values.length := by
    have lengths := congrArg List.length same
    simpa using lengths
  have positions := holds.length_positions
  constructor
  · rintro ⟨deck, rep, enough⟩
    obtain rfl := rep.deck_eq holds.rep
    rw [holds.padded, positions, counts] at enough
    exact Nat.le_of_mul_le_mul_right enough holds.positive
  · intro enough
    refine ⟨_, holds.rep, ?_⟩
    rw [holds.padded, positions, counts]
    exact Nat.mul_le_mul_right _ enough

end Stack.Stores

end LowFlow
