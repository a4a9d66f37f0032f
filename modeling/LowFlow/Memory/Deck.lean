import LowFlow.Memory.Arena

/-!
# What an arena's chain of blocks is

An arena represents a deck: the list of its blocks from head to tail, each with
the header fields and the area that its pointer leads to. `Represents` is the
invariant of the data structure. Each function of the arena is given one lemma
that says which deck it leads to. Everything above the arena is reasoned about
on decks.
-/

set_option autoImplicit false

namespace LowFlow

open Library

variable {β : Type}

/-- The blocks of an arena from head to tail. -/
abbrev Deck (β : Type) := List (BlockPtr × Slab β)

/-- The blocks form one doubly linked, null-terminated chain from the head
block to the tail block, all of the arena's block size, in areas of their own. -/
structure Represents (arena : Arena β) (deck : Deck β) : Prop where
  chain : Segment (blockView β) arena.heap.block none none arena.headBlock deck
  distinct : (ptrs deck).Nodup
  tail : arena.tailBlock = (ptrs deck).getLast?
  count : arena.blockCount = deck.length
  nonempty : deck ≠ []
  positive : 0 < arena.blockSize
  sized : ∀ entry ∈ deck, entry.2.size = arena.blockSize
  extent : ∀ entry ∈ deck, entry.2.data.extent = arena.blockSize
  known : ∀ p ∈ ptrs deck, p < arena.heap.serial
  owned : ∀ entry ∈ deck, entry.2.data.place ∈ arena.heap.areas
  apart : deck.Pairwise fun one two => Area.Apart one.2.data.place two.2.data.place

/-- The chain of blocks from a pointer on, of at most this length. -/
def blocksFrom (heap : Heap β) : ℕ → Option BlockPtr → Option (Deck β)
  | _, none => some []
  | 0, some _ => none
  | n + 1, some p => do
      let block ← heap.block p
      some ((p, block.toSlab) :: (← blocksFrom heap n block.next))

/-- What no operation on the chain changes. -/
structure Arena.Keeps (arena arena' : Arena β) : Prop where
  blockSize : arena'.blockSize = arena.blockSize
  blockOffset : arena'.blockOffset = arena.blockOffset
  cursor : arena'.cursorBlock = arena.cursorBlock
  malloc : arena'.heap.malloc = arena.heap.malloc
  serial : arena.heap.serial ≤ arena'.heap.serial

theorem Arena.Keeps.refl (arena : Arena β) : arena.Keeps arena :=
  ⟨rfl, rfl, rfl, rfl, le_rfl⟩

theorem Arena.Keeps.trans {one two three : Arena β} (first : one.Keeps two)
    (second : two.Keeps three) : one.Keeps three where
  blockSize := second.blockSize.trans first.blockSize
  blockOffset := second.blockOffset.trans first.blockOffset
  cursor := second.cursor.trans first.cursor
  malloc := second.malloc.trans first.malloc
  serial := le_trans first.serial second.serial

theorem Arena.Keeps.withSize {one two : Arena β} (keeps : one.Keeps two) (size : ℕ) :
    one.Keeps { two with size } :=
  ⟨keeps.blockSize, keeps.blockOffset, keeps.cursor, keeps.malloc, keeps.serial⟩

/-! ## Following a pointer of the chain -/

namespace Represents

variable {arena : Arena β} {deck : Deck β}

theorem head_eq {p : BlockPtr} {b : Slab β} {rest : Deck β}
    (rep : Represents arena ((p, b) :: rest)) : arena.headBlock = some p :=
  rep.chain.1

theorem tail_eq {p : BlockPtr} {b : Slab β} {front : Deck β}
    (rep : Represents arena (front ++ [(p, b)])) : arena.tailBlock = some p := by
  simpa using rep.tail

/-- Each block of the deck is found under its pointer. -/
theorem lookup (rep : Represents arena deck) {p : BlockPtr} {b : Slab β}
    (member : (p, b) ∈ deck) :
    ∃ node, arena.heap.block p = some node ∧ node.toSlab = b :=
  rep.chain.lookup member

theorem load (rep : Represents arena deck) {p : BlockPtr} {b : Slab β} (member : (p, b) ∈ deck)
    {offset n : ℕ} (inside : offset + n ≤ arena.blockSize) :
    arena.heap.load ⟨p, offset⟩ n = some (b.data.read offset n) := by
  obtain ⟨node, found, rfl⟩ := rep.lookup member
  have bound : node.data.extent = arena.blockSize := rep.extent _ member
  simp [Heap.load, found, Heap.InArea, bound, inside]

/-- An access past the end of a block's area fails. -/
theorem load_outside (rep : Represents arena deck) {p : BlockPtr} {b : Slab β}
    (member : (p, b) ∈ deck) {offset n : ℕ} (outside : arena.blockSize < offset + n) :
    arena.heap.load ⟨p, offset⟩ n = none := by
  obtain ⟨node, found, rfl⟩ := rep.lookup member
  have bound : node.data.extent = arena.blockSize := rep.extent _ member
  simp [Heap.load, found, Heap.InArea, bound, outside]

/-- Blocks of a deck with one pointer are one block. -/
theorem same_block (rep : Represents arena deck) {p : BlockPtr} {b c : Slab β}
    (one : (p, b) ∈ deck) (two : (p, c) ∈ deck) : b = c :=
  congrArg Prod.snd (List.inj_on_of_nodup_map rep.distinct one two rfl)

/-- The blocks of an arena are determined by its links. -/
theorem deck_eq {other : Deck β} (rep : Represents arena deck) (rep' : Represents arena other) :
    deck = other :=
  rep.chain.nodes_eq rep'.chain

/-- Walking the chain of an arena finds its blocks. -/
theorem blocksFrom_eq (rep : Represents arena deck) :
    blocksFrom arena.heap arena.blockCount arena.headBlock = some deck := by
  have walk : ∀ (nodes : Deck β) (before first : Option BlockPtr),
      Segment (blockView β) arena.heap.block none before first nodes →
      blocksFrom arena.heap nodes.length first = some nodes := by
    intro nodes
    induction nodes with
    | nil =>
        intro before first chain
        cases (show first = none from chain)
        rfl
    | cons entry rest ih =>
        intro before first chain
        obtain ⟨p, b⟩ := entry
        obtain ⟨rfl, node, found, carried, -, onward⟩ := chain
        cases (show node.toSlab = b from carried)
        have walked : blocksFrom arena.heap rest.length node.next = some rest := ih _ _ onward
        simp [blocksFrom, found, walked]
  rw [rep.count]
  exact walk deck _ _ rep.chain

end Represents

/-! ## Updating one block -/

/-- The deck with one block changed. -/
def Deck.modify (deck : Deck β) (p : BlockPtr) (g : Slab β → Slab β) : Deck β :=
  deck.map fun entry => (entry.1, if entry.1 = p then g entry.2 else entry.2)

@[simp] theorem ptrs_modify (deck : Deck β) (p : BlockPtr) (g : Slab β → Slab β) :
    ptrs (deck.modify p g) = ptrs deck := by
  simp [ptrs, Deck.modify]

theorem modify_of_notMem {deck : Deck β} {p : BlockPtr} (g : Slab β → Slab β)
    (missing : p ∉ ptrs deck) : deck.modify p g = deck := by
  refine (List.map_congr_left ?_).trans (List.map_id deck)
  intro entry member
  have other : entry.1 ≠ p := fun same => missing (same ▸ List.mem_map_of_mem member)
  simp [other]

theorem modify_cons (p : BlockPtr) (b : Slab β) (rest : Deck β) (g : Slab β → Slab β)
    (missing : p ∉ ptrs rest) : Deck.modify ((p, b) :: rest) p g = (p, g b) :: rest := by
  have unchanged := modify_of_notMem g missing
  simp only [Deck.modify] at unchanged
  simp [Deck.modify, unchanged]

theorem modify_concat (p : BlockPtr) (b : Slab β) (front : Deck β) (g : Slab β → Slab β)
    (missing : p ∉ ptrs front) : Deck.modify (front ++ [(p, b)]) p g = front ++ [(p, g b)] := by
  have unchanged := modify_of_notMem g missing
  simp only [Deck.modify] at unchanged
  simp [Deck.modify, unchanged]

theorem modify_append (front back : Deck β) (p : BlockPtr) (g : Slab β → Slab β) :
    Deck.modify (front ++ back) p g = front.modify p g ++ back.modify p g :=
  List.map_append

/-- Writing to a block, with its links kept, changes that block of the deck. -/
theorem Represents.modify {arena : Arena β} {deck : Deck β} (rep : Represents arena deck)
    {p : BlockPtr} (member : p ∈ ptrs deck) {f : MemBlock β → MemBlock β} {g : Slab β → Slab β}
    (prev_f : ∀ b, (f b).prev = b.prev) (next_f : ∀ b, (f b).next = b.next)
    (slab_f : ∀ b, (f b).toSlab = g b.toSlab)
    (size_g : ∀ b, (g b).size = b.size) (place_g : ∀ b, (g b).data.place = b.data.place) :
    ∃ heap, arena.heap.modify p f = some heap ∧
      Represents { arena with heap } (deck.modify p g) ∧
      arena.Keeps { arena with heap } := by
  obtain ⟨⟨q, b⟩, inDeck, rfl⟩ := List.mem_map.mp member
  obtain ⟨node, found, rfl⟩ := rep.lookup inDeck
  have entries : ∀ entry ∈ deck.modify q g, ∃ old ∈ deck, entry.1 = old.1 ∧
      entry.2.size = old.2.size ∧ entry.2.data.place = old.2.data.place := by
    intro entry member
    obtain ⟨old, inOld, rfl⟩ := List.mem_map.mp member
    refine ⟨old, inOld, rfl, ?_⟩
    dsimp only
    split
    · exact ⟨size_g _, place_g _⟩
    · exact ⟨rfl, rfl⟩
  obtain ⟨heap, modified, block, malloc, areas, serial⟩ := Heap.modify_spec found f
  refine ⟨heap, modified, ?_, ⟨rfl, rfl, rfl, malloc, by simp [serial]⟩⟩
  refine ⟨?_, by simpa using rep.distinct, by simpa using rep.tail, ?_, ?_, rep.positive, ?_, ?_,
    by simpa [serial] using rep.known, ?_, ?_⟩
  · have changed := rep.chain.modify (p := q) (f := f) (g := g) prev_f next_f slab_f
    simpa [found, block, Deck.modify] using changed
  · simpa [Deck.modify] using rep.count
  · simpa [Deck.modify] using rep.nonempty
  · intro entry member
    obtain ⟨old, inOld, -, size, -⟩ := entries entry member
    exact size.trans (rep.sized old inOld)
  · intro entry member
    obtain ⟨old, inOld, -, -, place⟩ := entries entry member
    exact (congrArg Prod.snd place).trans (rep.extent old inOld)
  · intro entry member
    obtain ⟨old, inOld, -, -, place⟩ := entries entry member
    rw [place]
    exact areas ▸ rep.owned old inOld
  · refine List.pairwise_map.mpr (rep.apart.imp fun {one two} apart => ?_)
    dsimp only
    split <;> split <;> simpa [place_g] using apart

end LowFlow
