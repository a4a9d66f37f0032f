import Mathlib.Data.List.Chain
import LowFlow.Memory.Growth
import LowFlow.Memory.String

/-!
# The text of a source

What the lexer relies on in its source: the iterator goes through a text, each
character stands at its position, and each position is followed by the next one.
A string with even blocks is such a source of its live characters
(`LFString.holds`).
-/

set_option autoImplicit false

namespace LowFlow

open Library

/-- A character and its position. -/
abbrev Placed := Position × UInt8

/-- The character stands at its position, in the used range of a block. -/
def Deck.Shows (deck : Deck UInt8) (x : Placed) : Prop :=
  ∃ b, (x.1.1, b) ∈ deck ∧ b.leftOffset ≤ x.1.2 ∧ x.1.2 < b.rightOffset ∧ b.data.byte x.1.2 = x.2

/-- The characters that an iteration of the source meets. -/
structure LFString.Holds (src : LFString UInt8) (deck : Deck UInt8)
    (text : List Placed) : Prop where
  rep : Represents src.arena deck
  bounded : ∀ entry ∈ deck, entry.2.rightOffset ≤ src.arena.blockSize
  starts : src.Starts (text.map Prod.fst)
  shows : ∀ x ∈ text, deck.Shows x
  follows : (text.map Prod.fst).IsChain deck.Follows
  short : text.length < sizeModulus

theorem LFString.Holds.next {src : LFString UInt8} {deck : Deck UInt8}
    {text before after : List Placed} {x y : Placed} (holds : src.Holds deck text)
    (split : text = before ++ x :: y :: after) : deck.Follows x.1 y.1 := by
  have follows := holds.follows
  rw [split, List.map_append] at follows
  exact (List.isChain_cons_cons.mp follows.right_of_append).1

/-- The characters of some blocks. -/
def Deck.chars (deck : Deck UInt8) : List Placed :=
  deck.flatMap fun entry =>
    (positionsFrom entry.1 entry.2.leftOffset (entry.2.rightOffset - entry.2.leftOffset)).map
      fun x => (x, entry.2.data.byte x.2)

theorem Deck.chars_positions (deck : Deck UInt8) : deck.chars.map Prod.fst = deck.positions := by
  simp [chars, positions, List.map_flatMap, Function.comp_def]

/-- The live characters of a string. -/
def LFString.text (str : LFString UInt8) (deck : Deck UInt8) : List Placed :=
  (str.blocks deck).chars

/-! ## What follows what -/

section Following

variable {β : Type} {deck before blocks after : Deck β} {slice : ArenaSlice}

/-- In a block each position follows the one before it. -/
theorem follows_block {p : BlockPtr} {b : Slab β} (inDeck : (p, b) ∈ deck) {offset n : ℕ}
    (bound : offset + n ≤ b.rightOffset) : (positionsFrom p offset n).IsChain deck.Follows := by
  induction n generalizing offset with
  | zero => exact .nil
  | succ n ih =>
      rw [positionsFrom_succ]
      have onward : (positionsFrom p (offset + 1) n).IsChain deck.Follows := ih (by omega)
      apply onward.cons
      intro y atHead
      cases n with
      | zero => cases atHead
      | succ n =>
          rw [positionsFrom_succ] at atHead
          obtain rfl : (p, offset + 1) = y := by simpa using atHead
          exact .within inDeck (by dsimp only; omega)

/-- The first and the last position from an offset on. -/
theorem positionsFrom_ends (p : BlockPtr) (offset : ℕ) {n : ℕ} (positive : 0 < n) :
    (positionsFrom p offset n).head? = some (p, offset) ∧
      (positionsFrom p offset n).getLast? = some (p, offset + n - 1) := by
  obtain ⟨m, rfl⟩ : ∃ m, n = m + 1 := ⟨n - 1, by omega⟩
  constructor
  · rw [positionsFrom_succ]
    rfl
  · rw [positionsFrom_add, positionsFrom_succ]
    exact List.getLast?_concat ..

/-- What is left of a block after trimming is inside its used range. -/
theorem ArenaSlice.Spans.trim_within (spans : slice.Spans blocks) {entry : BlockPtr × Slab β}
    (member : entry ∈ blocks) :
    entry.2.leftOffset ≤ (slice.trim entry).2.leftOffset ∧
      (slice.trim entry).2.rightOffset ≤ entry.2.rightOffset := by
  have low := spans.low entry member
  have high := spans.high entry member
  constructor
  · by_cases head : some entry.1 = slice.headBlock
    · simpa [trim, head] using low head
    · simp [trim, head]
  · by_cases tail : some entry.1 = slice.tailBlock
    · simpa [trim, tail] using high tail
    · simp [trim, tail]

/-- Between two blocks of a slice nothing is cut off. -/
theorem ArenaSlice.Spans.trim_inner (spans : slice.Spans blocks) (distinct : (ptrs blocks).Nodup)
    {front rest : Deck β} {x y : BlockPtr × Slab β} (split : blocks = front ++ x :: y :: rest) :
    (slice.trim x).2.rightOffset = x.2.rightOffset ∧
      (slice.trim y).2.leftOffset = y.2.leftOffset := by
  have arranged : ptrs blocks = ptrs (front ++ [x]) ++ ptrs (y :: rest) := by simp [split]
  rw [arranged] at distinct
  have apart := (List.nodup_append'.mp distinct).2.2
  have notTail : some x.1 ≠ slice.tailBlock := by
    intro same
    rw [spans.tail, arranged, List.getLast?_append_of_ne_nil _ (by simp)] at same
    exact apart (by simp) (List.mem_of_getLast? same.symm)
  have notHead : some y.1 ≠ slice.headBlock := by
    intro same
    rw [spans.head, arranged, List.head?_append_of_ne_nil _ (by simp)] at same
    exact apart (List.mem_of_head? same.symm) (by simp)
  simp [trim, notTail, notHead]

/-- The positions of a slice follow one another when no block of it is empty. -/
theorem ArenaSlice.Spans.follows (spans : slice.Spans blocks)
    (distinct : (ptrs (before ++ blocks ++ after)).Nodup)
    (left : ∀ entry ∈ blocks, entry.2.leftOffset = 0)
    (nonempty : ∀ entry ∈ blocks,
      (slice.trim entry).2.leftOffset < (slice.trim entry).2.rightOffset) :
    (Deck.positions (blocks.map slice.trim)).IsChain
      (Deck.Follows (before ++ blocks ++ after)) := by
  have suffixes : ∀ front rest, blocks = front ++ rest →
      (Deck.positions (rest.map slice.trim)).IsChain
        (Deck.Follows (before ++ blocks ++ after)) := by
    intro front rest
    induction rest generalizing front with
    | nil =>
        intro _
        exact .nil
    | cons entry rest ih =>
        intro split
        obtain ⟨p, b⟩ := entry
        have here : (p, b) ∈ blocks := by simp [split]
        have filled := nonempty (p, b) here
        obtain ⟨-, high⟩ := spans.trim_within here
        have inDeck : (p, b) ∈ before ++ blocks ++ after := by simp [here]
        have onward := ih (front ++ [(p, b)]) (by simp [split])
        have block := @follows_block _ _ p b inDeck (slice.trim (p, b)).2.leftOffset
          ((slice.trim (p, b)).2.rightOffset - (slice.trim (p, b)).2.leftOffset)
          (by dsimp only at high; omega)
        rw [List.map_cons, positions_cons]
        apply List.IsChain.append block onward
        intro x atEnd y atStart
        rw [(positionsFrom_ends p _ (by omega)).2] at atEnd
        cases rest with
        | nil => cases atStart
        | cons entry rest =>
            obtain ⟨q, c⟩ := entry
            have there : (q, c) ∈ blocks := by simp [split]
            have filled' := nonempty (q, c) there
            rw [List.map_cons, positions_cons, List.head?_append,
              (positionsFrom_ends _ _ (by omega)).1] at atStart
            obtain ⟨stop, start⟩ := spans.trim_inner (distinct_middle distinct) split
            obtain rfl := Option.some.inj atEnd
            obtain rfl := Option.some.inj atStart
            rw [start, left (q, c) there]
            refine @Deck.Follows.next _ _ _ (before ++ front) (rest ++ after) q b c ?_ ?_ ?_ ?_
            · simp [split]
            · dsimp only at stop ⊢
              omega
            · exact left (q, c) there
            · have bound := (spans.trim_within there).2
              dsimp only at bound
              omega
  exact suffixes [] blocks rfl

end Following

/-! ## Strings as sources -/

/-- Both kinds of strings have a filled deck, and are cut from it by a slice. -/
theorem LFString.cut {β : Type} {str : LFString β} (built : str.Owned ∨ str.Backed) :
    ∃ (deck : Deck β) (slice : ArenaSlice), Filled str.arena deck ∧ slice.LiesIn deck ∧
      str.blocks deck = slice.cut deck ∧ str.Over deck := by
  rcases built with owned | backed
  · obtain ⟨backing, deck, filled⟩ := owned.filled
    obtain ⟨slice, -, -, lies, -, cut⟩ :=
      ArenaSlice.of_init filled.rep filled.ordered ⟨none, none, 0, 0, 0⟩
    refine ⟨deck, slice, filled, lies, ?_, filled.rep, filled.ordered, by simp [backing]⟩
    simp [blocks, backing, cut]
  · obtain ⟨deck, slice, filled, backing, lies, -⟩ := backed.slice
    refine ⟨deck, slice, filled, lies, by simp [blocks, backing], filled.rep, filled.ordered, ?_⟩
    intro other same
    rw [backing, Option.some.injEq] at same
    exact same ▸ lies

/-- The characters that a slice covers stand at their positions. -/
theorem shows_cut {deck : Deck UInt8} {slice : ArenaSlice} (distinct : (ptrs deck).Nodup)
    (lies : slice.LiesIn deck) {x : Placed} (member : x ∈ (slice.cut deck).chars) :
    deck.Shows x := by
  obtain ⟨before, blocks, after, rfl, spans⟩ := lies
  simp only [spans.cut_eq distinct, Deck.chars, List.mem_flatMap, List.mem_map] at member
  obtain ⟨-, ⟨⟨p, b⟩, here, rfl⟩, place, inside, rfl⟩ := member
  obtain ⟨i, inRange, rfl⟩ := List.mem_map.mp inside
  obtain ⟨low, high⟩ := spans.trim_within here
  obtain ⟨above, below⟩ := List.mem_range'_1.mp inRange
  refine ⟨b, by simp [here, ArenaSlice.trim], le_trans low above, ?_, rfl⟩
  dsimp only at high below ⊢
  omega

/-- What stands at some positions is determined by the positions. -/
theorem eq_of_shows {arena : Arena UInt8} {deck : Deck UInt8} (rep : Represents arena deck)
    {one two : List Placed} (same : one.map Prod.fst = two.map Prod.fst)
    (shown : ∀ x ∈ one, deck.Shows x) (shown' : ∀ x ∈ two, deck.Shows x) : one = two := by
  induction one generalizing two with
  | nil => exact (List.map_eq_nil_iff.mp same.symm).symm
  | cons x one ih =>
      cases two with
      | nil => cases same
      | cons y two =>
          obtain ⟨⟨b, inDeck, -, -, byte⟩, shown⟩ := List.forall_mem_cons.mp shown
          obtain ⟨⟨c, inDeck', -, -, byte'⟩, shown'⟩ := List.forall_mem_cons.mp shown'
          obtain ⟨place, same⟩ := List.cons.inj same
          rw [← place] at inDeck' byte'
          rw [rep.same_block inDeck' inDeck] at byte'
          rw [Prod.ext place (byte.symm.trans byte'), ih same shown shown']

/-- A string with even blocks is a source of its live characters. -/
theorem LFString.holds {str : LFString UInt8} {deck : Deck UInt8}
    (built : str.Owned ∨ str.Backed) (rep : Represents str.arena deck)
    (ends : ∀ entry ∈ str.blocks deck,
      entry.2.rightOffset = max (lastRight (str.blocks deck)) (entry.2.leftOffset + 1))
    (short : (str.text deck).length < sizeModulus) : str.Holds deck (str.text deck) := by
  obtain ⟨other, slice, filled, lies, cut, source⟩ := LFString.cut built
  obtain rfl := filled.rep.deck_eq rep
  obtain ⟨distinct, ordered⟩ := source.blocks_sound
  have positions : (str.text other).map Prod.fst = (str.blocks other).positions :=
    (str.blocks other).chars_positions
  have starts := source.starts
  rw [(swept_eq_positions_iff _ distinct ordered).mpr ends, ← positions] at starts
  obtain ⟨before, within, after, rfl, spans⟩ := id lies
  have blocks := cut.trans (spans.cut_eq rep.distinct)
  have nonempty : ∀ entry ∈ within,
      (slice.trim entry).2.leftOffset < (slice.trim entry).2.rightOffset := by
    intro entry member
    have right := ends (slice.trim entry) (blocks ▸ List.mem_map_of_mem member)
    omega
  refine ⟨rep, filled.right, starts, ?_, ?_, short⟩
  · intro x member
    rw [text, cut] at member
    exact shows_cut rep.distinct lies member
  · rw [positions, blocks]
    apply spans.follows rep.distinct _ nonempty
    intro entry member
    exact filled.left entry (by simp [member])

/-- A string in one block is a source of its live characters. -/
theorem LFString.holds_block {str : LFString UInt8} {deck : Deck UInt8} {p : BlockPtr}
    {b : Slab UInt8} (built : str.Owned ∨ str.Backed) (rep : Represents str.arena deck)
    (single : str.blocks deck = [(p, b)]) (nonempty : str.text deck ≠ []) :
    str.Holds deck (str.text deck) ∧ ∀ x ∈ str.text deck, x.1.1 = p := by
  have text : str.text deck =
      (positionsFrom p b.leftOffset (b.rightOffset - b.leftOffset)).map
        fun x => (x, b.data.byte x.2) := by
    simp [LFString.text, single, Deck.chars]
  have inBlock : ∀ x ∈ str.text deck, x.1.1 = p := by
    rw [text]
    intro x member
    obtain ⟨place, inside, rfl⟩ := List.mem_map.mp member
    obtain ⟨i, -, rfl⟩ := List.mem_map.mp inside
    rfl
  have filled : b.leftOffset < b.rightOffset := by
    by_contra empty
    apply nonempty
    rw [text, Nat.sub_eq_zero_of_le (Nat.not_lt.mp empty)]
    rfl
  have short : (str.text deck).length < sizeModulus := by
    obtain ⟨other, slice, whole, lies, cut, -⟩ := LFString.cut built
    obtain rfl := whole.rep.deck_eq rep
    have last : ((p, b.rightOffset - 1), b.data.byte (b.rightOffset - 1)) ∈ str.text other := by
      rw [text]
      refine List.mem_map.mpr ⟨_, List.mem_map.mpr ⟨b.rightOffset - 1, ?_, rfl⟩, rfl⟩
      exact List.mem_range'_1.mpr (by omega)
    rw [LFString.text, cut] at last
    obtain ⟨c, inDeck, -, high, -⟩ := shows_cut rep.distinct lies last
    have bound := whole.right _ inDeck
    have small := whole.small
    rw [text, List.length_map, length_positionsFrom]
    dsimp only at high bound
    omega
  have ends : ∀ entry ∈ str.blocks deck,
      entry.2.rightOffset = max (lastRight (str.blocks deck)) (entry.2.leftOffset + 1) := by
    intro entry member
    rw [single] at member ⊢
    obtain rfl := List.mem_singleton.mp member
    simp only [lastRight, List.getLast?_singleton, Option.map_some, Option.getD_some]
    omega
  exact ⟨LFString.holds built rep ends short, inBlock⟩

end LowFlow
