import LowFlow.Memory.Conversion
import LowFlow.Memory.ListValues
import LowFlow.Memory.Overcounted

/-!
# Values that are moved to a new list

A stack of values is moved to a new list, which has one block. When the values fit
in it the list can be walked through from the top value on (`moved_walks`). Else
the last of the new blocks links to what `malloc` left there, which need not be a
block, and the lookup after the last value fails (`moved_breaks`).
-/

set_option autoImplicit false

namespace LowFlow

open Library

variable {β α : Type}

/-! ## Walking through a list of values -/

section Lists

variable [DecidableEq α] {list : LFList (Cell α)} {after : Option BlockPtr} {deck : Deck (Cell α)}
  {size : ℕ} {elems : List (Ptr × α)} {p : BlockPtr} {b : Slab (Cell α)}
  {later : Deck (Cell α)}

/-- The list with its cursor at any of its blocks. -/
def LFList.AnyCursor (list : LFList β) (deck : Deck β) (list' : LFList β) : Prop :=
  ∃ p ∈ ptrs deck, list' = list.withCursor (some p)

theorem LFList.Lists.passes (lists : list.Lists after deck (elems.map Prod.fst))
    (split : deck = (p, b) :: later) (nonempty : b.leftOffset ≠ b.rightOffset)
    (some_elems : elems ≠ [])
    (positive : 0 < size) (fits : size ≤ list.elemPaddedSize)
    (reads : ∀ e ∈ elems, deck.Reads e.1 (pieces size e.2)) :
    LFList.Passes (list.AnyCursor deck) size elems where
  read := by
    rintro _ ⟨q, member, rfl⟩ e inElems
    have loaded := lists.load (List.mem_map_of_mem inElems) (reads e inElems) (by simpa using fits)
    rw [length_pieces] at loaded
    simp [LFList.read, loaded, whole_pieces positive]
  first := by
    rintro _ ⟨q, member, rfl⟩
    obtain ⟨e, rest, rfl⟩ := List.exists_cons_of_ne_nil some_elems
    have found := (lists.withCursor member).first split nonempty
    exact ⟨list.withCursor (some p), found, p, by simp [split], rfl⟩
  next := by
    rintro _ front e e' back ⟨q, member, rfl⟩ rfl
    have moved := lists.withCursor member
    rw [List.map_append, List.map_cons, List.map_cons] at moved
    obtain ⟨r, member', found⟩ := moved.next
    exact ⟨list.withCursor (some r), found, r, member', rfl⟩

/-- A list whose last block has no next one can be walked through. -/
theorem LFList.Lists.walks (lists : list.Lists none deck (elems.map Prod.fst))
    (passes : LFList.Passes (list.AnyCursor deck) size elems) :
    LFList.Walks (list.AnyCursor deck) size elems where
  toPasses := passes
  last := by
    rintro _ front e ⟨q, member, rfl⟩ rfl
    have moved := lists.withCursor member
    rw [List.map_append, List.map_singleton] at moved
    obtain ⟨r, member', found⟩ := moved.next_last
    exact ⟨list.withCursor (some r), found, r, member', rfl⟩

/-- A list whose last block links to no block cannot. -/
theorem LFList.Lists.breaks {dangling : BlockPtr}
    (lists : list.Lists (some dangling) deck (elems.map Prod.fst))
    (missing : list.arena.heap.block dangling = none)
    (passes : LFList.Passes (list.AnyCursor deck) size elems) :
    LFList.Breaks (list.AnyCursor deck) size elems where
  toPasses := passes
  last := by
    rintro _ front e ⟨q, member, rfl⟩ rfl
    have moved := lists.withCursor member
    rw [List.map_append, List.map_singleton] at moved
    exact moved.next_dangling missing

end Lists

/-! ## Moving the values -/

/-- The values with where they are. -/
theorem exists_placed {R : Ptr → List (Cell α) → Prop} {size : ℕ} {live : List (Element (Cell α))}
    {places : List Ptr} {values : List α} (each : List.Forall₂ (fun e ptr => R ptr e.2) live places)
    (same : live.map Prod.snd = values.map (pieces size)) :
    ∃ elems : List (Ptr × α), elems.map Prod.fst = places ∧ elems.map Prod.snd = values ∧
      ∀ e ∈ elems, R e.1 (pieces size e.2) := by
  induction each generalizing values with
  | nil =>
      obtain rfl : values = [] := by simpa using same.symm
      exact ⟨[], rfl, rfl, by simp⟩
  | @cons e ptr live places here _ ih =>
      cases values with
      | nil => cases same
      | cons value values =>
          simp only [List.map_cons, List.cons.injEq] at same
          obtain ⟨first, others⟩ := same
          obtain ⟨elems, rfl, rfl, there⟩ := ih others
          exact ⟨(ptr, value) :: elems, rfl, rfl, List.forall_mem_cons.mpr ⟨first ▸ here, there⟩⟩

/-- A pushed value is in the head block. -/
theorem Stack.Contains.push_inUse {stack stack' : Stack (Cell α)} {size : ℕ} {values : List α}
    {value : α} (contains : stack.Contains size values)
    (pushed : stack.pushValue size value = some stack') :
    stack'.Contains size (value :: values) ∧ stack.Keeps stack' ∧ stack'.HeadInUse := by
  obtain ⟨stack₁, pushed₁, contains', keeps⟩ := contains.push value
  obtain rfl := Option.some.inj (pushed₁.symm.trans pushed)
  refine ⟨contains', keeps, ?_⟩
  obtain ⟨rfl, -, used, live, holds, -⟩ := contains
  obtain ⟨ptr, stack₂, used', pushed₂, holds', -, -, atHead⟩ :=
    holds.push (length_pieces stack.elemSize value)
  have same : stack.pushValue stack.elemSize value = some stack₂ := by
    simp [Stack.pushValue, pushed₂]
  obtain rfl := Option.some.inj (same.symm.trans pushed)
  obtain ⟨⟨p, b⟩, rest, rfl⟩ := List.exists_cons_of_ne_nil holds'.nonempty
  have rep : Represents stack₂.arena ((p, b) :: rest) := by simpa using holds'.rep
  have here : p = ptr.block := by simpa using atHead
  exact rep.headInUse_iff.mpr (holds'.head_nonempty here.symm)

/-- The elements are in one block when there is room for them. -/
theorem Stack.Holds.one_block_iff {stack : Stack β} {p : BlockPtr} {b : Slab β} {rest : Deck β}
    {live : List (Element β)} (holds : stack.Holds ((p, b) :: rest) [] live)
    (whole : stack.elemSize ∣ stack.arena.blockSize) (inUse : b.leftOffset ≠ b.rightOffset) :
    rest = [] ↔ live.length * stack.elemSize ≤ stack.arena.blockSize := by
  have positions := holds.length_positions
  have right : b.rightOffset = stack.arena.blockSize := holds.right (p, b) (by simp)
  have low := holds.tiles.left_le (List.mem_cons_self ..)
  rw [List.append_nil, positions_cons, List.length_append, length_positionsFrom] at positions
  dsimp only at low positions
  cases rest with
  | nil =>
      simp only [Deck.positions, List.flatMap_nil, List.length_nil] at positions
      simp only [true_iff]
      omega
  | cons entry rest =>
      obtain ⟨q, c⟩ := entry
      obtain ⟨left', right'⟩ : c.leftOffset = 0 ∧ c.rightOffset = stack.arena.blockSize :=
        @Stack.Holds.filled_behind _ _ _ _ holds whole (q, c) (by simp)
      rw [positions_cons, List.length_append, length_positionsFrom, left', right'] at positions
      simp only [reduceCtorEq, false_iff]
      omega

/-- The list that a stack of values becomes. -/
theorem Stack.Contains.moved [DecidableEq α] {stack : Stack (Cell α)} {size : ℕ} {values : List α}
    (contains : stack.Contains size values) (some_values : values ≠ []) (inUse : stack.HeadInUse)
    (whole : size ∣ stack.arena.blockSize) {list : LFList (Cell α)} {h : BlockPtr}
    {hb : Slab (Cell α)} (fresh : Represents list.arena [(h, hb)])
    (cursor : list.arena.cursorBlock = some h) (geometry : SameGeometry stack list) :
    ∃ list' after deck elems, lfStackToList stack list = some (stack, list') ∧
      list'.Lists after deck (elems.map Prod.fst) ∧ elems.map Prod.snd = values ∧
      list'.AnyCursor deck list' ∧ LFList.Passes (list'.AnyCursor deck) size elems ∧
      (values.length * size ≤ stack.arena.blockSize → after = none) ∧
      (∀ unset, (∀ q, (list.arena.heap.malloc.header q).next = unset) →
        stack.arena.blockSize < values.length * size → after = unset) := by
  obtain ⟨rfl, count, used, live, holds, same⟩ := contains
  have lengths : live.length = values.length := by simpa using congrArg List.length same
  obtain ⟨⟨p, b⟩, rest, rfl⟩ := List.exists_cons_of_ne_nil holds.nonempty
  have rep : Represents stack.arena ((p, b) :: rest) := by simpa using holds.rep
  have head : b.leftOffset ≠ b.rightOffset := rep.headInUse_iff.mp inUse
  have one_block := holds.one_block_iff whole head
  rw [lengths] at one_block
  obtain ⟨list', after, c, copies, places, moved, lists, reads, copied, -, padded, ends, left⟩ :=
    lfStackToList_spec holds (count.trans lengths.symm) (.inr whole) fresh cursor geometry.size
      geometry.alignment geometry.padded geometry.qtt geometry.blockSize
  obtain ⟨elems, rfl, sameValues, reads'⟩ := exists_placed reads same
  have fits : stack.elemSize ≤ list'.elemPaddedSize := by
    rw [padded, geometry.padded, holds.padded]
  have some_elems : elems ≠ [] := by
    rintro rfl
    exact some_values sameValues.symm
  have nonempty : c.leftOffset ≠ c.rightOffset := by
    rw [show c.leftOffset = _ from copied.left, show c.rightOffset = _ from copied.right]
    exact head
  obtain ⟨q, member, atCursor⟩ := lists.cursor
  refine ⟨list', after, _, elems, moved, lists, sameValues, ⟨q, member, ?_⟩,
    lists.passes rfl nonempty some_elems holds.positive fits reads', ?_, ?_⟩
  · rw [← atCursor]
    rfl
  · intro room
    exact ends (one_block.mpr room)
  · intro unset unlinked large
    exact left unset unlinked fun one => absurd (one_block.mp one) (Nat.not_le.mpr large)

/-! ## The blocks that there are -/

/-- The blocks of a new list are known to its heap. -/
theorem lfInitList_heap {list fresh : LFList β} (init : lfInitList list = some fresh) :
    fresh.arena.heap.malloc = list.arena.heap.malloc ∧
      fresh.arena.heap.serial = list.arena.heap.serial + 2 ∧
      ∀ p b, fresh.arena.heap.block p = some b →
        p = list.arena.heap.serial ∨ list.arena.heap.block p = some b := by
  obtain ⟨-, -, padded, arena, -, initArena, rfl⟩ := lfInitList_eq_some init
  have some_bytes : ¬ sizeWrap (list.elemQttInBlock * padded) = 0 :=
    (lfInitArena_accepts initArena).ne'
  simp only [lfInitArena, lfAllocArenaHeadBlock, some_bytes, ↓reduceIte, Heap.modify,
    Heap.mallocHeader, Heap.mallocArea, Function.update_self, Option.map_some,
    Option.bind_eq_bind, Option.bind_some, Option.some.injEq] at initArena
  subst initArena
  refine ⟨rfl, rfl, ?_⟩
  intro p b found
  by_cases new : p = list.arena.heap.serial
  · exact .inl new
  · simp only [Function.update_of_ne new] at found
    exact .inr found

/-- The blocks of a list that a stack was moved to. -/
theorem lfStackToList_known {stack stack' : Stack β} {list list' : LFList β}
    (done : lfStackToList stack list = some (stack', list')) {p : BlockPtr} {b' : MemBlock β}
    (found : list'.arena.heap.block p = some b') :
    (∃ b, list.arena.heap.block p = some b) ∨
      p < list.arena.heap.serial + (stack.arena.blockCount - list.arena.blockCount) := by
  obtain ⟨-, _, _, _, s₁, s₂, remaining, first, second, rfl⟩ := lfStackToList_copied done
  simp only [mallocRemaining, Prod.mk.injEq] at remaining
  obtain ⟨rfl, rfl, rfl⟩ := remaining
  obtain ⟨b₁, found₁, -⟩ := (copyToNewBlocks_sizes second).1 _ _ found
  obtain ⟨b₀, found₀, -⟩ := copyToOwnBlocks_sizes first _ _ found₁
  split at found₀
  · simp only [Heap.mallocArea, Heap.mallocHeaders] at found₀
    split at found₀
    · rename_i new
      exact .inr new.2
    · exact .inl ⟨b₀, found₀⟩
  · exact .inl ⟨b₀, found₀⟩

end LowFlow
