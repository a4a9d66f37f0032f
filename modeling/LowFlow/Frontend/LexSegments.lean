import LowFlow.Frontend.LexerRefines
import LowFlow.Frontend.Segments

/-!
# Lexing a source in one block

In one block every character is next to the one before it, so the layout of the
source lets every scan through. The lexer makes a token of each segment
(`lfLex_segments`).
-/

set_option autoImplicit false

namespace LowFlow

open Library

/-- In one block the layout lets everything through. -/
theorem stored_lets (blockSize : ℕ) (p : BlockPtr) :
    (stored blockSize).Lets fun x => x.1.1 = p where
  adjoins x y here there := by simp [stored, here, there]
  joins x y here there := by simp [stored, here, there]
  comparable chars all := by
    have same : ∀ x ∈ chars, ∀ y ∈ chars, x.1.1 = y.1.1 :=
      fun x inChars y inChars' => (all x inChars).trans (all y inChars').symm
    simp only [stored, decide_eq_true_eq]
    exact .inr same

/-- **Lexing the segments of a text.** Of a source in one block with well placed
quotes, the lexer appends one token for each segment, in their order, and the
last token; and one lexeme and one slice for each literal and each run, whose
live bytes are its characters. -/
theorem lfLex_segments (src : LFString UInt8) (built : src.Owned ∨ src.Backed) (deck : Deck UInt8)
    (rep : Represents src.arena deck) (p : BlockPtr) (b : Slab UInt8)
    (single : src.blocks deck = [(p, b)]) (nonempty : src.text deck ≠ [])
    (quoted : WellQuoted Prod.snd (src.text deck)) (lists : LexLists) (old : LexContents)
    (contains : lists.Contains old) :
    ∃ segments, Segmented Prod.snd (src.text deck) segments ∧
      (∀ other, Segmented Prod.snd (src.text deck) other → other = segments) ∧
      ∃ fuel lists' entries, lfLex fuel lists src = some lists' ∧
        LexMemory src deck old lists' entries (segments.filterMap Segment.lexeme)
          (segmentTokens Prod.snd 0 segments) ∧
        List.Forall₂ (fun e chars => (e.value.cut deck).chars = chars) entries
          (segments.filterMap Segment.lexeme) := by
  obtain ⟨segments, segmented⟩ := quoted.segmented
  obtain ⟨holds, inBlock⟩ := LFString.holds_block built rep single nonempty
  have scanned := scan_segmented (stored_lets src.arena.blockSize p) segmented inBlock [] []
  obtain ⟨fuel, lists', entries, lexed, memory⟩ := lfLex_refines holds contains scanned
  have result : LexMemory src deck old lists' entries (segments.filterMap Segment.lexeme)
      (segmentTokens Prod.snd 0 segments) := by
    simpa [Scan.lexemes, stored] using memory
  exact ⟨segments, segmented, fun other same => same.unique segmented, fuel, lists', entries,
    lexed, result, result.contents rep⟩

/-- The source `use "a" x(!`, in one block. -/
theorem lfLex_segments_mixed : ∃ (src : LFString UInt8) (deck : Deck UInt8) (lists : LexLists),
    src.Owned ∧ (src.text deck).map Prod.snd = [117, 115, 101, 32, 34, 97, 34, 32, 120, 40, 33] ∧
    ∃ segments, Segmented Prod.snd (src.text deck) segments ∧
      (∀ other, Segmented Prod.snd (src.text deck) other → other = segments) ∧
      ∃ fuel lists' entries, lfLex fuel lists src = some lists' ∧
        LexMemory src deck ⟨[], [], []⟩ lists' entries (segments.filterMap Segment.lexeme)
          (segmentTokens Prod.snd 0 segments) ∧
        List.Forall₂ (fun e chars => (e.value.cut deck).chars = chars) entries
          (segments.filterMap Segment.lexeme) := by
  let chars : List UInt8 := [117, 115, 101, 32, 34, 97, 34, 32, 120, 40, 33]
  let declared : LFString UInt8 := LFString.declared (Allocator.bump 0) 16
  let check (str : LFString UInt8) : Option Bool := do
    let deck ← blocksFrom str.arena.heap str.arena.blockCount str.arena.headBlock
    some (decide (deck.length = 1 ∧ deck.chars.map Prod.snd = chars ∧
      WellQuoted Prod.snd deck.chars))
  have ends : ((lfInitString declared).bind fun start =>
      (run stringCall [.alloc 11 chars] start).bind fun (_, str) => check str) = some true := by
    decide +kernel
  obtain ⟨start, init, ends⟩ := Option.bind_eq_some_iff.mp ends
  obtain ⟨⟨answers, src⟩, runs, ends⟩ := Option.bind_eq_some_iff.mp ends
  have owned : src.Owned := ⟨declared, start, _, answers, rfl, by decide, init, runs⟩
  obtain ⟨backing, deck, filled⟩ := owned.filled
  simp only [check, filled.rep.blocksFrom_eq, Option.bind_eq_bind, Option.bind_some,
    Option.some.injEq, decide_eq_true_eq] at ends
  obtain ⟨one, same, quoted⟩ := ends
  obtain ⟨⟨p, b⟩, rfl⟩ := List.length_eq_one_iff.mp one
  have single : src.blocks [(p, b)] = [(p, b)] := by
    simp [LFString.blocks, backing]
  have text : src.text [(p, b)] = Deck.chars [(p, b)] := by
    rw [LFString.text, single]
  obtain ⟨lists, -, -, -, contains⟩ := LexLists.of_init 4 (by decide) (by decide)
  rw [← text] at same quoted
  have nonempty : src.text [(p, b)] ≠ [] := by
    intro empty
    rw [empty] at same
    exact List.cons_ne_nil _ _ same.symm
  exact ⟨src, _, lists, owned, same, lfLex_segments src (.inl owned) _ filled.rep p b
    single nonempty quoted lists _ contains⟩

end LowFlow
