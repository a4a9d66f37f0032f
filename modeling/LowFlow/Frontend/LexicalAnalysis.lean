import LowFlow.Memory.Comparison
import LowFlow.Memory.Growth
import LowFlow.Memory.ListValues

/-!
# The lexer

`frontend/lexical_analysis.c`. The lexer iterates over the source. It keeps one
open lexeme, a slice of the source that is grown character by character, and
appends a token when the lexeme is closed. Tokens, lexemes and slices are kept in
three lists of the caller.
-/

set_option autoImplicit false

namespace LowFlow

open Library

/-- `LF_TokenType`. -/
inductive TokenType where
  | unknown
  | identifier
  | str
  | use
  | entry
  | func
  | comma
  | equal
  | slash
  | colon
  | bang
  | parenBeg
  | parenEnd
  | braceBeg
  | braceEnd
  | eof
deriving DecidableEq, Repr

/-- `LF_Token`. The lexeme is `none` where the code does not set it, and `NULL`
is `some none`. -/
structure Token (ρ : Type) where
  type : TokenType
  lexeme : Option (Option ρ)
deriving DecidableEq, Repr

/-- `LF_String`, as it is kept for a lexeme: its arena is the one of the source,
and its slice is an element of the list of slices. -/
structure Lexeme where
  slice : Ptr
  charQttInBlock : ℕ
deriving DecidableEq, Repr

/-- `sizeof(LF_Token)`. -/
def tokenSize : ℕ := 16

/-- `sizeof(LF_String)`. -/
def stringSize : ℕ := 24

/-- `sizeof(LF_ArenaSlice)`. -/
def arenaSliceSize : ℕ := 48

/-! ## Characters -/

/-- The double quote. -/
def quote : UInt8 := 34

/-- Space, line feed, carriage return and tab. -/
def lfIsWhitespace (c : UInt8) : Bool :=
  c = 32 || c = 10 || c = 13 || c = 9

/-- The type of a character that is a token wherever it stands. -/
def lfGetTokenTypeFromHardBoundaryLexeme (c : UInt8) : TokenType :=
  if c = 47 then .slash
  else if c = 40 then .parenBeg
  else if c = 41 then .parenEnd
  else if c = 123 then .braceBeg
  else if c = 125 then .braceEnd
  else if c = 58 then .colon
  else if c = 44 then .comma
  else .unknown

/-- The type of a character that is a token when it stands alone: `=` and `!`. -/
def lfGetTokenTypeFromSoftBoundaryLexeme (c : UInt8) : TokenType :=
  if c = 61 then .equal
  else if c = 33 then .bang
  else .unknown

/-- The letters of `use`. -/
def useWord : List UInt8 := [117, 115, 101]

/-- The letters of `func`. -/
def funcWord : List UInt8 := [102, 117, 110, 99]

/-- The letters of `entry`. -/
def entryWord : List UInt8 := [101, 110, 116, 114, 121]

/-! ## Lexemes -/

/-- The lists that the lexer fills. -/
structure LexLists where
  tokens : LFList (Cell (Token Ptr))
  lexemes : LFList (Cell Lexeme)
  slices : LFList (Cell ArenaSlice)

/-- The character at a pointer into the source. -/
def loadChar (src : LFString UInt8) (ptr : Ptr) : Option UInt8 := do
  (← src.arena.heap.load ptr 1).head?

/-- The string of a lexeme. -/
def LexLists.string (lists : LexLists) (src : LFString UInt8) (lexeme : Ptr) :
    Option (LFString UInt8) := do
  let str ← lists.lexemes.read stringSize lexeme
  let slice ← lists.slices.read arenaSliceSize str.slice
  some ⟨src.arena, some slice, str.charQttInBlock⟩

def lfGetTokenTypeFromBigLexeme (str : LFString UInt8) : Option TokenType := do
  if ← lfCompareString ⟨.strChar, str, some useWord, 3⟩ then some .use
  else if ← lfCompareString ⟨.strChar, str, some funcWord, 4⟩ then some .func
  else if ← lfCompareString ⟨.strChar, str, some entryWord, 5⟩ then some .entry
  else some .identifier

/-- `lf_alloc_list_elem` for a token, and setting its members. -/
def LexLists.addToken (lists : LexLists) (value : Token Ptr) : Option LexLists := do
  let (token, tokens) ← lfAllocListElem lists.tokens
  some { lists with tokens := ← tokens.write tokenSize token value }

def lfFlushLexeme (src : LFString UInt8) (lists : LexLists) (lexeme : Ptr) : Option LexLists := do
  let str ← lists.string src lexeme
  if lfGetStringSize str ≤ 1 then
    let (fstChar, _) ← lfInitStringIteration str
    let c ← loadChar src fstChar
    let soft := lfGetTokenTypeFromSoftBoundaryLexeme c
    let type := if soft = .unknown then lfGetTokenTypeFromHardBoundaryLexeme c else soft
    lists.addToken ⟨type, some none⟩
  else
    let type ← lfGetTokenTypeFromBigLexeme str
    lists.addToken ⟨type, if type = .identifier then some (some lexeme) else none⟩

/-- A new slice with these borders, and a new lexeme for it. -/
def LexLists.addLexeme (lists : LexLists) (src : LFString UInt8) (borders : ArenaSlice) :
    Option (Ptr × LexLists) := do
  let (slice, slices) ← lfAllocListElem lists.slices
  let slices ← slices.write arenaSliceSize slice borders
  let (lexeme, lexemes) ← lfAllocListElem lists.lexemes
  let str ← lfInitStringFromSlice ⟨src.arena, none, 0⟩ (← slices.read arenaSliceSize slice)
  let slices ← slices.write arenaSliceSize slice (← str.slice)
  let lexemes ← lexemes.write stringSize lexeme ⟨slice, str.charQttInBlock⟩
  some (lexeme, { lists with lexemes, slices })

/-- `lf_grow_arena_slice_tail` for the slice of a lexeme, by one character. -/
def LexLists.growLexeme (lists : LexLists) (src : LFString UInt8) (lexeme : Ptr) :
    Option LexLists := do
  let str ← lists.lexemes.read stringSize lexeme
  let slice ← lists.slices.read arenaSliceSize str.slice
  let (_, slice) ← lfGrowArenaSliceTail src.arena.heap slice 1
  some { lists with slices := ← lists.slices.write arenaSliceSize str.slice slice }

/-! ## The loop -/

/-- The variables of the loop of `lf_lex`. -/
structure LexState where
  lists : LexLists
  curLexeme : Option Ptr
  isReadingStr : Bool
  srcIter : StringIteration UInt8
  curChar : Option Ptr

/-- Flushing the open lexeme, if there is one. -/
def flushOpen (src : LFString UInt8) (lists : LexLists) : Option Ptr → Option LexLists
  | some lexeme => lfFlushLexeme src lists lexeme
  | none => some lists

/-- One round of the loop of `lf_lex`, on the character `c`. -/
def lexChar (src : LFString UInt8) (s : LexState) (c : UInt8) : Option LexState := do
  if c = quote ∧ ¬ s.isReadingStr then
    let iter := s.srcIter
    let borders : ArenaSlice :=
      { headBlock := iter.curBlock, tailBlock := iter.curBlock
        headOffset := iter.blockOffset + 1, tailOffset := iter.blockOffset + 2, size := 0 }
    let (lexeme, lists) ← s.lists.addLexeme src borders
    -- the quote and the first character of the literal are skipped
    let (_, iter) ← lfIterateString iter
    let (curChar, srcIter) ← lfIterateString iter
    some ⟨lists, some lexeme, true, srcIter, curChar⟩
  else if c = quote then
    let lists ← s.lists.addToken ⟨.str, some s.curLexeme⟩
    let (curChar, srcIter) ← lfIterateString s.srcIter
    some ⟨lists, none, false, srcIter, curChar⟩
  else if s.isReadingStr then
    let lists ← s.lists.growLexeme src (← s.curLexeme)
    let (curChar, srcIter) ← lfIterateString s.srcIter
    some ⟨lists, s.curLexeme, true, srcIter, curChar⟩
  else if lfIsWhitespace c then
    let lists ← flushOpen src s.lists s.curLexeme
    let (curChar, srcIter) ← lfIterateString s.srcIter
    some ⟨lists, none, false, srcIter, curChar⟩
  else if lfGetTokenTypeFromHardBoundaryLexeme c ≠ .unknown then
    let lists ← flushOpen src s.lists s.curLexeme
    let lists ← lists.addToken ⟨lfGetTokenTypeFromHardBoundaryLexeme c, none⟩
    let (curChar, srcIter) ← lfIterateString s.srcIter
    some ⟨lists, none, false, srcIter, curChar⟩
  else
    match s.curLexeme with
    | none =>
        let iter := s.srcIter
        let borders : ArenaSlice :=
          { headBlock := iter.curBlock, tailBlock := iter.curBlock
            headOffset := iter.blockOffset, tailOffset := iter.blockOffset + 1, size := 0 }
        let (lexeme, lists) ← s.lists.addLexeme src borders
        let (curChar, srcIter) ← lfIterateString iter
        some ⟨lists, some lexeme, false, srcIter, curChar⟩
    | some lexeme =>
        let lists ← s.lists.growLexeme src lexeme
        let (curChar, srcIter) ← lfIterateString s.srcIter
        some ⟨lists, some lexeme, false, srcIter, curChar⟩

/-- One round of the loop of `lf_lex`, or the end of the loop. -/
def lexStep (src : LFString UInt8) (s : LexState) : Option (LexState ⊕ LexState) := do
  match s.curChar with
  | none => some (.inr s)
  | some curChar => some (.inl (← lexChar src s (← loadChar src curChar)))

/-- Behind the text the loop ends. -/
theorem lexStep_ended {src : LFString UInt8} {s : LexState} (ended : s.curChar = none) :
    lexStep src s = some (.inr s) := by
  simp [lexStep, ended]

/-- Before that there is a round on the current character. -/
theorem lexStep_current {src : LFString UInt8} {s : LexState} {curChar : Ptr}
    (current : s.curChar = some curChar) :
    lexStep src s = (loadChar src curChar).bind fun c => (lexChar src s c).map Sum.inl := by
  simp only [lexStep, current, Option.bind_eq_bind, Option.map_eq_bind]
  rfl

/-- What follows the loop: the open lexeme is flushed, and the last token added. -/
def lexEnd (src : LFString UInt8) (s : LexState) : Option LexLists := do
  let lists ← flushOpen src s.lists s.curLexeme
  lists.addToken ⟨.eof, some none⟩

/-- `lf_lex`, for at most `fuel` rounds of its loop. -/
def lfLex (fuel : ℕ) (lists : LexLists) (src : LFString UInt8) : Option LexLists := do
  let (curChar, srcIter) ← lfInitStringIteration src
  lexEnd src (← iterate (lexStep src) fuel ⟨lists, none, false, srcIter, some curChar⟩)

end LowFlow
