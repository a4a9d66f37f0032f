import LowFlow.Frontend.Scan
import LowFlow.Frontend.Source

/-!
# The memory of the lexer

The lexer keeps in its lists what a scan of the source text keeps: a token for
each token, and for each lexeme a string and a slice that covers its characters.
Here are the changes that a round of the loop makes to the lists: a new token, a
new lexeme, a lexeme that grows, and a lexeme that is flushed.
-/

set_option autoImplicit false

namespace LowFlow

open Library

/-- What a source with blocks of this size lets the lexer do: a literal starts
in the block of its quote, a lexeme leaves a block only at its end, and is
compared with a keyword in one block only. -/
def stored (blockSize : ℕ) : Layout Placed where
  char := Prod.snd
  adjoins x y := x.1.1 = y.1.1
  joins x y := x.1.1 = y.1.1 ∨ x.1.2 + 1 = blockSize
  comparable chars := ¬ (3 ≤ chars.length ∧ chars.length ≤ 5) ∨
    ∀ x ∈ chars, ∀ y ∈ chars, x.1.1 = y.1.1

theorem forall₂_concat {α β : Type} {R : α → β → Prop} {front : List α} {back : List β} {a : α}
    {b : β} (both : List.Forall₂ R (front ++ [a]) (back ++ [b])) :
    List.Forall₂ R front back ∧ R a b := by
  rw [← List.forall₂_reverse_iff, List.reverse_concat, List.reverse_concat, List.forall₂_cons,
    List.forall₂_reverse_iff] at both
  exact both.symm

/-! ## What the lists contain -/

/-- The elements of the three lists. -/
structure LexContents where
  tokens : List (Ptr × Token Ptr)
  lexemes : List (Ptr × Lexeme)
  slices : List (Ptr × ArenaSlice)

structure LexLists.Contains (lists : LexLists) (contents : LexContents) : Prop where
  tokens : lists.tokens.Values tokenSize contents.tokens
  lexemes : lists.lexemes.Values stringSize contents.lexemes
  slices : lists.slices.Values arenaSliceSize contents.slices

section Adding

variable {lists : LexLists} {contents : LexContents}

/-- A new token comes behind the others. -/
theorem LexLists.Contains.addToken (contains : lists.Contains contents) (t : Token Ptr) :
    ∃ ptr lists', lists.addToken t = some lists' ∧
      lists'.Contains { contents with tokens := contents.tokens ++ [(ptr, t)] } := by
  obtain ⟨ptr, between, tokens, alloc, written, values, -⟩ := contains.tokens.push t
  exact ⟨ptr, { lists with tokens }, by simp [LexLists.addToken, alloc, written], values,
    contains.lexemes, contains.slices⟩

/-- A new lexeme and its slice come behind the others. -/
theorem LexLists.Contains.addLexeme {src : LFString UInt8} (contains : lists.Contains contents)
    {p : BlockPtr} {node : MemBlock UInt8} (found : src.arena.heap.block p = some node)
    (width : node.size = src.arena.blockSize) (offset : ℕ) :
    ∃ lexeme slice lists',
      lists.addLexeme src ⟨some p, some p, offset, offset + 1, 0⟩ = some (lexeme, lists') ∧
      lists'.Contains ⟨contents.tokens,
        contents.lexemes ++ [(lexeme, ⟨slice, src.arena.blockSize⟩)],
        contents.slices ++ [(slice, ⟨some p, some p, offset, offset + 1, 1⟩)]⟩ := by
  let borders : ArenaSlice := ⟨some p, some p, offset, offset + 1, 0⟩
  let value : ArenaSlice := { borders with size := 1 }
  obtain ⟨slice, between, slices, allocSlice, writtenSlice, slicesValues, -⟩ :=
    contains.slices.push borders
  obtain ⟨slices', writtenSize, slicesValues'⟩ := slicesValues.write value
  obtain ⟨lexeme, between', lexemes', allocLexeme, writtenLexeme, lexemesValues, -⟩ :=
    contains.lexemes.push (Lexeme.mk slice src.arena.blockSize)
  have readBack : slices.read arenaSliceSize slice = some borders := slicesValues.read (by simp)
  have init : lfInitStringFromSlice ⟨src.arena, none, 0⟩ borders =
      some ⟨src.arena, some value, src.arena.blockSize⟩ := by
    simp [lfInitStringFromSlice, lfInitArenaSlice, lfGetArenaSliceSize, borders, value, found,
      width, sizeSub]
  refine ⟨lexeme, slice, { lists with lexemes := lexemes', slices := slices' }, ?_,
    contains.tokens, lexemesValues, slicesValues'⟩
  simp only [LexLists.addLexeme, allocSlice, Option.bind_eq_bind, Option.bind_some]
  simp only [borders, writtenSlice, allocLexeme, readBack, init, writtenSize, writtenLexeme,
    Option.bind_some]

/-- The string of a lexeme. -/
theorem LexLists.Contains.string {src : LFString UInt8} (contains : lists.Contains contents)
    {lexeme slice : Ptr} {value : ArenaSlice} {charQttInBlock : ℕ}
    (inLexemes : (lexeme, ⟨slice, charQttInBlock⟩) ∈ contents.lexemes)
    (inSlices : (slice, value) ∈ contents.slices) :
    lists.string src lexeme = some ⟨src.arena, some value, charQttInBlock⟩ := by
  have readLexeme := contains.lexemes.read inLexemes
  have readSlice := contains.slices.read inSlices
  simp only [LexLists.string, readLexeme, readSlice, Option.bind_eq_bind, Option.bind_some]

end Adding

/-- New lists, with this number of elements in a block. -/
theorem LexLists.of_init (qtt : ℕ) (positive : 0 < qtt) (small : qtt * 48 < sizeModulus) :
    ∃ lists : LexLists,
      lfInitList (LFList.declared (Allocator.bump (.raw 0)) qtt tokenSize 8) = some lists.tokens ∧
      lfInitList (LFList.declared (Allocator.bump (.raw 0)) qtt stringSize 8) = some lists.lexemes ∧
      lfInitList (LFList.declared (Allocator.bump (.raw 0)) qtt arenaSliceSize 8) =
        some lists.slices ∧
      lists.Contains ⟨[], [], []⟩ := by
  have list : ∀ {α : Type} {size : ℕ}, 0 < size → 8 ∣ size → size ≤ 48 → ∃ list : LFList (Cell α),
      lfInitList (LFList.declared (Allocator.bump (.raw 0)) qtt size 8) = some list ∧
        list.Values size [] := by
    intro α size some aligned bound
    have fits : qtt * size < sizeModulus := Nat.lt_of_le_of_lt (Nat.mul_le_mul_left _ bound) small
    exact @LFList.Values.of_init _ (LFList.declared (Allocator.bump (.raw 0)) qtt size 8) some
      positive aligned fits
  obtain ⟨tokens, initTokens, noTokens⟩ := @list (Token Ptr) tokenSize (by decide) (by decide)
    (by decide)
  obtain ⟨lexemes, initLexemes, noLexemes⟩ := @list Lexeme stringSize (by decide) (by decide)
    (by decide)
  obtain ⟨slices, initSlices, noSlices⟩ := @list ArenaSlice arenaSliceSize (by decide) (by decide)
    (by decide)
  exact ⟨⟨tokens, lexemes, slices⟩, initTokens, initLexemes, initSlices, noTokens, noLexemes,
    noSlices⟩

/-- Where a lexeme and its slice are kept, and the slice. -/
structure LexEntry where
  lexeme : Ptr
  slice : Ptr
  value : ArenaSlice

/-- The element of the list of lexemes. -/
def LexEntry.string (charQttInBlock : ℕ) (e : LexEntry) : Ptr × Lexeme :=
  (e.lexeme, ⟨e.slice, charQttInBlock⟩)

/-- The element of the list of slices. -/
def LexEntry.range (e : LexEntry) : Ptr × ArenaSlice := (e.slice, e.value)

/-- A token points to the lexeme with the number that the token of the scan has. -/
inductive Token.Names (ptrs : List Ptr) : Token Ptr → Token ℕ → Prop where
  | unset (type : TokenType) : Names ptrs ⟨type, none⟩ ⟨type, none⟩
  | null (type : TokenType) : Names ptrs ⟨type, some none⟩ ⟨type, some none⟩
  | lexeme (type : TokenType) {ptr : Ptr} {k : ℕ} (here : ptrs[k]? = some ptr) :
      Names ptrs ⟨type, some (some ptr)⟩ ⟨type, some (some k)⟩

theorem Token.Names.append {ptrs : List Ptr} {t : Token Ptr} {a : Token ℕ} (names : t.Names ptrs a)
    (more : List Ptr) : t.Names (ptrs ++ more) a := by
  cases names with
  | unset type => exact .unset type
  | null type => exact .null type
  | lexeme type here =>
      have bound := (List.getElem?_eq_some_iff.mp here).1
      exact .lexeme type (by rwa [List.getElem?_append_left bound])

/-- The lists contain, behind what they had, these tokens and these lexemes. -/
structure LexMemory (src : LFString UInt8) (deck : Deck UInt8) (old : LexContents)
    (lists : LexLists)
    (entries : List LexEntry) (lexemes : List (List Placed)) (tokens : List (Token ℕ)) : Prop where
  contains : ∃ elems : List (Ptr × Token Ptr), lists.Contains
      ⟨old.tokens ++ elems,
        old.lexemes ++ entries.map (LexEntry.string src.arena.blockSize),
        old.slices ++ entries.map LexEntry.range⟩ ∧
    List.Forall₂ (fun e a => Token.Names (entries.map LexEntry.lexeme) e.2 a) elems tokens
  covers : List.Forall₂ (fun e chars => e.value.Covers deck (chars.map Prod.fst)) entries lexemes
  shows : ∀ chars ∈ lexemes, ∀ x ∈ chars, deck.Shows x

namespace LexMemory

variable {src : LFString UInt8} {deck : Deck UInt8} {old : LexContents} {lists : LexLists}
  {entries : List LexEntry} {lexemes : List (List Placed)} {tokens : List (Token ℕ)}

/-- A new token. -/
theorem addToken (memory : LexMemory src deck old lists entries lexemes tokens) {t : Token Ptr}
    {a : Token ℕ} (names : t.Names (entries.map LexEntry.lexeme) a) :
    ∃ lists', lists.addToken t = some lists' ∧
      LexMemory src deck old lists' entries lexemes (tokens ++ [a]) := by
  obtain ⟨⟨elems, contains, tokenNames⟩, covers, shows⟩ := memory
  obtain ⟨ptr, lists', added, contains'⟩ := contains.addToken t
  refine ⟨lists', added, ⟨elems ++ [(ptr, t)], ?_, ?_⟩, covers, shows⟩
  · rw [← List.append_assoc]
    exact contains'
  · exact List.rel_append tokenNames (.cons names .nil)

/-- A new lexeme of one character. -/
theorem addLexeme (memory : LexMemory src deck old lists entries lexemes tokens)
    (rep : Represents src.arena deck) {x : Placed} (shown : deck.Shows x) :
    ∃ lexeme slice value lists',
      lists.addLexeme src ⟨some x.1.1, some x.1.1, x.1.2, x.1.2 + 1, 0⟩ = some (lexeme, lists') ∧
      LexMemory src deck old lists' (entries ++ [LexEntry.mk lexeme slice value]) (lexemes ++ [[x]])
        tokens := by
  obtain ⟨⟨elems, contains, tokenNames⟩, covers, shows⟩ := memory
  obtain ⟨b, inDeck, low, high, -⟩ := id shown
  obtain ⟨node, found, rfl⟩ := rep.lookup inDeck
  have width : node.size = src.arena.blockSize := rep.sized _ inDeck
  obtain ⟨lexeme, slice, lists', added, contains'⟩ := contains.addLexeme found width x.1.2
  let value : ArenaSlice := ⟨some x.1.1, some x.1.1, x.1.2, x.1.2 + 1, 1⟩
  refine ⟨lexeme, slice, value, lists', added, ⟨elems, ?_, ?_⟩, ?_, ?_⟩
  · rw [List.map_append, List.map_append, ← List.append_assoc, ← List.append_assoc]
    exact contains'
  · refine tokenNames.imp ?_
    intro _ _ names
    rw [List.map_append]
    exact names.append _
  · exact List.rel_append covers (.cons (.single rep.distinct inDeck low high) .nil)
  · refine List.forall_mem_append.mpr ⟨shows, ?_⟩
    intro chars member y inChars
    obtain rfl := List.mem_singleton.mp member
    obtain rfl := List.mem_singleton.mp inChars
    exact shown

/-- Reading the open lexeme and its slice. -/
theorem read {front : List LexEntry} {e : LexEntry}
    (memory : LexMemory src deck old lists (front ++ [e]) lexemes tokens) :
    lists.lexemes.read stringSize e.lexeme = some ⟨e.slice, src.arena.blockSize⟩ ∧
      lists.slices.read arenaSliceSize e.slice = some e.value := by
  obtain ⟨⟨elems, contains, -⟩, -, -⟩ := memory
  exact ⟨contains.lexemes.read (by simp [LexEntry.string]),
    contains.slices.read (by simp [LexEntry.range])⟩

/-- The string of the open lexeme. -/
theorem string {front : List LexEntry} {e : LexEntry}
    (memory : LexMemory src deck old lists (front ++ [e]) lexemes tokens) :
    lists.string src e.lexeme = some ⟨src.arena, some e.value, src.arena.blockSize⟩ := by
  obtain ⟨⟨elems, contains, -⟩, -, -⟩ := memory
  have inSlices : (e.slice, e.value) ∈ old.slices ++ (front ++ [e]).map LexEntry.range := by
    simp [LexEntry.range]
  exact contains.string (by simp [LexEntry.string]) inSlices

/-- The open lexeme grown by the next character. -/
theorem growLexeme {front : List LexEntry} {e : LexEntry} {past : List (List Placed)}
    {chars init : List Placed} {x y : Placed}
    (memory : LexMemory src deck old lists (front ++ [e]) (past ++ [chars]) tokens)
    (rep : Represents src.arena deck)
    (bounded : ∀ entry ∈ deck, entry.2.rightOffset ≤ src.arena.blockSize)
    (ends : chars = init ++ [x]) (follows : deck.Follows x.1 y.1)
    (joins : (stored src.arena.blockSize).joins x y = true) (shown : deck.Shows y)
    (small : chars.length + 1 < sizeModulus) :
    ∃ value lists', lists.growLexeme src e.lexeme = some lists' ∧
      LexMemory src deck old lists' (front ++ [{ e with value }]) (past ++ [chars ++ [y]])
        tokens := by
  obtain ⟨readLexeme, readSlice⟩ := memory.read
  obtain ⟨⟨elems, contains, names⟩, covers, shows⟩ := memory
  obtain ⟨showsPast, showsLast⟩ := List.forall_mem_append.mp shows
  obtain ⟨coversPast, coversLast⟩ := forall₂_concat covers
  have split : chars.map Prod.fst = init.map Prod.fst ++ [x.1] := by simp [ends]
  have full : x.1.1 ≠ y.1.1 → x.1.2 + 1 = src.arena.blockSize := by
    intro other
    simpa [stored, other] using joins
  obtain ⟨value, grown, coversGrown⟩ :=
    coversLast.grow rep bounded split follows full (by simpa using small)
  have slices : lists.slices.Values arenaSliceSize
      ((old.slices ++ front.map LexEntry.range) ++ [(e.slice, e.value)]) := by
    simpa [LexEntry.range] using contains.slices
  obtain ⟨slices', written, values⟩ := slices.write value
  refine ⟨value, { lists with slices := slices' }, ?_,
    ⟨elems, ⟨contains.tokens, ?_, ?_⟩, ?_⟩, List.rel_append coversPast (.cons ?_ .nil),
    List.forall_mem_append.mpr ⟨showsPast, ?_⟩⟩
  · simp [LexLists.growLexeme, readLexeme, readSlice, grown, written]
  · simpa [LexEntry.string] using contains.lexemes
  · change slices'.Values arenaSliceSize
      (old.slices ++ (front ++ [{ e with value }]).map LexEntry.range)
    rw [List.map_append, ← List.append_assoc]
    exact values
  · simpa using names
  · simpa using coversGrown
  · intro grown member z inGrown
    obtain rfl := List.mem_singleton.mp member
    rcases List.mem_append.mp inGrown with before | here
    · exact showsLast chars (List.mem_singleton_self _) z before
    · obtain rfl := List.mem_singleton.mp here
      exact shown

end LexMemory

/-! ## Flushing a lexeme -/

section Flushing

variable {src : LFString UInt8} {deck : Deck UInt8}

/-- The character that the lexer reads at a position. -/
theorem loadChar_shown (rep : Represents src.arena deck)
    (bounded : ∀ entry ∈ deck, entry.2.rightOffset ≤ src.arena.blockSize) {x : Placed}
    (shown : deck.Shows x) : loadChar src x.1.ptr = some x.2 := by
  obtain ⟨b, inDeck, -, high, byte⟩ := shown
  have bound := bounded _ inDeck
  dsimp only at bound
  have loaded := rep.load inDeck (show x.1.2 + 1 ≤ src.arena.blockSize by omega)
  simp [loadChar, Position.ptr, loaded, Area.read, byte]

/-- The characters in one block from an offset on. -/
theorem content_read {chars : List Placed} {p : BlockPtr} {b : Slab UInt8}
    (rep : Represents src.arena deck) (inDeck : (p, b) ∈ deck) {offset n : ℕ}
    (positions : chars.map Prod.fst = positionsFrom p offset n)
    (shown : ∀ x ∈ chars, deck.Shows x) : chars.map Prod.snd = b.data.read offset n := by
  have values : chars.map Prod.snd = (chars.map Prod.fst).map fun place => b.data.byte place.2 := by
    rw [List.map_map]
    apply List.map_congr_left
    intro x member
    obtain ⟨c, inDeck', -, -, byte⟩ := shown x member
    have place : x.1.1 = p := by
      have here : x.1 ∈ positionsFrom p offset n := positions ▸ List.mem_map_of_mem member
      obtain ⟨i, -, same⟩ := List.mem_map.mp here
      rw [← same]
    rw [place] at inDeck'
    rw [← byte, rep.same_block inDeck' inDeck]
    rfl
  rw [values, positions, positionsFrom, List.map_map, Area.read, List.range'_eq_map_range,
    List.map_map]
  rfl

variable {slice : ArenaSlice} {chars : List Placed}

/-- A comparable lexeme is compared with its characters. -/
theorem lfCompareString_covers (covers : slice.Covers deck (chars.map Prod.fst))
    (rep : Represents src.arena deck)
    (bounded : ∀ entry ∈ deck, entry.2.rightOffset ≤ src.arena.blockSize)
    (shown : ∀ x ∈ chars, deck.Shows x)
    (comparable : (stored src.arena.blockSize).comparable chars = true) {word : List UInt8}
    (low : 3 ≤ word.length) (high : word.length ≤ 5) (width : ℕ) :
    lfCompareString ⟨.strChar, ⟨src.arena, some slice, width⟩, some word, word.length⟩ =
      some (decide (chars.map Prod.snd = word)) := by
  have size : slice.size = chars.length := by simpa using covers.size
  by_cases between : 3 ≤ chars.length ∧ chars.length ≤ 5
  · have same : ∀ x ∈ chars, ∀ y ∈ chars, x.1.1 = y.1.1 := by
      simp only [stored, decide_eq_true_eq] at comparable
      exact comparable.resolve_left fun other => other between
    obtain ⟨first, rest, begins, -⟩ := covers.first
    have oneBlock : ∀ x ∈ chars.map Prod.fst, x.1 = first.1 := by
      have firstHere : first ∈ chars.map Prod.fst := begins ▸ List.mem_cons_self ..
      obtain ⟨y, here, rfl⟩ := List.mem_map.mp firstHere
      intro x member
      obtain ⟨z, there, rfl⟩ := List.mem_map.mp member
      exact same z there y here
    obtain ⟨b, inDeck, head, tail, positions, borders, bound⟩ :=
      covers.oneBlock rep.distinct oneBlock
    obtain ⟨node, found, carried⟩ := rep.lookup inDeck
    have fits := bounded _ inDeck
    have wide : node.size = src.arena.blockSize := by
      have sized := rep.sized _ inDeck
      rwa [← carried] at sized
    have known : 0 < src.arena.heap.serial := by
      have length := rep.length_le
      have some := List.length_pos_of_mem inDeck
      omega
    have loaded := rep.load inDeck
      (show slice.headOffset + slice.size ≤ src.arena.blockSize by dsimp only at fits; omega)
    rw [← content_read rep inDeck positions shown] at loaded
    have within : slice.tailOffset ≤ node.size := by
      dsimp only at fits
      omega
    have counted : (chars.map Prod.snd).length = slice.size := by rw [List.length_map, size]
    let str : LFString UInt8 := ⟨src.arena, some slice, width⟩
    have backing : str.slice = some slice := rfl
    exact lfCompareString_block backing head tail found known borders within loaded counted word
  · have other : slice.size ≠ word.length := by omega
    have different : chars.map Prod.snd ≠ word := by
      rintro rfl
      exact other (by rw [List.length_map, size])
    let str : LFString UInt8 := ⟨src.arena, some slice, width⟩
    have otherSize : lfGetStringSize str ≠ word.length := other
    rw [lfCompareString_size otherSize]
    simp [different]

/-- The type of a lexeme of several characters is the one of its word. -/
theorem lfGetTokenTypeFromBigLexeme_covers (covers : slice.Covers deck (chars.map Prod.fst))
    (rep : Represents src.arena deck)
    (bounded : ∀ entry ∈ deck, entry.2.rightOffset ≤ src.arena.blockSize)
    (shown : ∀ x ∈ chars, deck.Shows x)
    (comparable : (stored src.arena.blockSize).comparable chars = true) (width : ℕ) :
    lfGetTokenTypeFromBigLexeme ⟨src.arena, some slice, width⟩ =
      some (wordType (chars.map Prod.snd)) := by
  have compares := fun word (low : 3 ≤ List.length word) (high : word.length ≤ 5) =>
    lfCompareString_covers covers rep bounded shown comparable low high width
  have isUse : lfCompareString ⟨.strChar, ⟨src.arena, some slice, width⟩, some useWord, 3⟩ = _ :=
    compares useWord (by decide) (by decide)
  have isFunc : lfCompareString ⟨.strChar, ⟨src.arena, some slice, width⟩, some funcWord, 4⟩ = _ :=
    compares funcWord (by decide) (by decide)
  have isEntry :
      lfCompareString ⟨.strChar, ⟨src.arena, some slice, width⟩, some entryWord, 5⟩ = _ :=
    compares entryWord (by decide) (by decide)
  simp only [lfGetTokenTypeFromBigLexeme, isUse, isFunc, isEntry, Option.bind_eq_bind,
    Option.bind_some, decide_eq_true_eq, wordType]
  split_ifs <;> rfl

/-- A slice of one character starts at it. -/
theorem lfInitStringIteration_covers {x : Placed} (covers : slice.Covers deck [x.1])
    (rep : Represents src.arena deck) (shown : deck.Shows x) (width : ℕ) :
    ∃ iter, lfInitStringIteration ⟨src.arena, some slice, width⟩ = some (x.1.ptr, iter) := by
  obtain ⟨first, rest, begins, head, offset⟩ := covers.first
  obtain ⟨rfl, rfl⟩ := List.cons.inj begins
  obtain ⟨b, inDeck, -⟩ := shown
  obtain ⟨node, found, -⟩ := rep.lookup inDeck
  simp [lfInitStringIteration, LFString.headBorder, StringIteration.ptr, head, offset, found,
    Position.ptr]

end Flushing

namespace LexMemory

variable {src : LFString UInt8} {deck : Deck UInt8} {old : LexContents} {lists : LexLists}
  {front : List LexEntry} {e : LexEntry} {past : List (List Placed)} {chars : List Placed}
  {tokens : List (Token ℕ)}

/-- The open lexeme becomes a token. -/
theorem flushLexeme
    (memory : LexMemory src deck old lists (front ++ [e]) (past ++ [chars]) tokens)
    (rep : Represents src.arena deck)
    (bounded : ∀ entry ∈ deck, entry.2.rightOffset ≤ src.arena.blockSize)
    (comparable : (stored src.arena.blockSize).comparable chars = true) :
    ∃ lists', lfFlushLexeme src lists e.lexeme = some lists' ∧
      LexMemory src deck old lists' (front ++ [e]) (past ++ [chars])
        (tokens ++ [lexemeToken (chars.map Prod.snd) past.length]) := by
  have string := memory.string
  have shown : ∀ x ∈ chars, deck.Shows x := memory.shows chars (by simp)
  obtain ⟨coversPast, covers⟩ := forall₂_concat memory.covers
  have size : e.value.size = chars.length := by simpa using covers.size
  by_cases one : chars.length ≤ 1
  · obtain ⟨x, rfl⟩ : ∃ x, chars = [x] := by
      obtain ⟨first, rest, begins, -⟩ := covers.first
      apply List.length_eq_one_iff.mp
      have counts := congrArg List.length begins
      simp only [List.length_map, List.length_cons] at counts
      omega
    obtain ⟨iter, starts⟩ :=
      lfInitStringIteration_covers covers rep (shown x (by simp)) src.arena.blockSize
    have loaded := loadChar_shown rep bounded (shown x (by simp))
    obtain ⟨lists', added, memory'⟩ :=
      memory.addToken (.null (charType x.2))
    refine ⟨lists', ?_, ?_⟩
    · simp only [lfFlushLexeme, string, lfGetStringSize, size, List.length_singleton, le_refl,
        ↓reduceIte, starts, loaded, Option.bind_eq_bind, Option.bind_some]
      exact added
    · simpa [lexemeToken] using memory'
  · have type := lfGetTokenTypeFromBigLexeme_covers covers rep bounded shown comparable
      src.arena.blockSize
    have number : (((front ++ [e]).map LexEntry.lexeme))[past.length]? = some e.lexeme := by
      rw [← coversPast.length_eq]
      simp
    have names : Token.Names ((front ++ [e]).map LexEntry.lexeme)
        ⟨wordType (chars.map Prod.snd),
          if wordType (chars.map Prod.snd) = .identifier then some (some e.lexeme) else none⟩
        (lexemeToken (chars.map Prod.snd) past.length) := by
      simp only [lexemeToken, List.length_map, one, ↓reduceIte]
      split
      · exact .lexeme _ number
      · exact .unset _
    obtain ⟨lists', added, memory'⟩ := memory.addToken names
    refine ⟨lists', ?_, memory'⟩
    simp only [lfFlushLexeme, string, lfGetStringSize, size, one, ↓reduceIte, type,
      Option.bind_eq_bind, Option.bind_some]
    exact added

/-- The live bytes of the slice of a lexeme are its characters. -/
theorem contents {entries : List LexEntry} {lexemes : List (List Placed)}
    (memory : LexMemory src deck old lists entries lexemes tokens)
    (rep : Represents src.arena deck) :
    List.Forall₂ (fun e chars => (e.value.cut deck).chars = chars) entries lexemes := by
  obtain ⟨-, covers, shows⟩ := memory
  induction covers with
  | nil => exact .nil
  | cons covers _ ih =>
      obtain ⟨here, shows⟩ := List.forall_mem_cons.mp shows
      refine .cons (eq_of_shows rep ?_ (fun x => shows_cut rep.distinct covers.lies) here)
        (ih shows)
      exact (Deck.chars_positions _).trans covers.live

theorem contents_eq {entries : List LexEntry} {lexemes : List (List Placed)}
    (memory : LexMemory src deck old lists entries lexemes tokens)
    (rep : Represents src.arena deck) :
    entries.map (fun e => (e.value.cut deck).chars) = lexemes := by
  have live := memory.contents rep
  rwa [← List.forall₂_map_left_iff (f := fun e : LexEntry => (e.value.cut deck).chars),
    List.forall₂_eq_eq_eq] at live

end LexMemory

end LowFlow
