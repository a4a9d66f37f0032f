import LowFlow.Frontend.Printing
import LowFlow.Runtime.Flow

/-!
# The parser

`frontend/syntax_analysis.c`, as far as it is written. An expression is a string
literal: its value is appended to a list of the caller and points to the lexeme of
the token. The parser gives up on every other token, and the values that it makes of
a lexed text hold the literals of the text (`parse_gives_literals`).
-/

set_option autoImplicit false

namespace LowFlow

open Library

/-- `LF_Value`, with the members that the parser sets. -/
structure ParsedValue where
  type : ValueType
  asStr : Option Ptr
deriving DecidableEq

def lfParseString (vals : LFList (Cell ParsedValue)) (val : Ptr) (token : Token Ptr) :
    Option (LFList (Cell ParsedValue)) := do
  if token.type ≠ .str then none
  else vals.write valueSize val ⟨.str, ← token.lexeme⟩

def lfParseExpr (vals : LFList (Cell ParsedValue)) (tokens : LFList (Cell (Token Ptr)))
    (curToken : Ptr) : Option (LFList (Cell ParsedValue)) := do
  let (newVal, vals) ← lfAllocListElem vals
  let token ← tokens.read tokenSize curToken
  match token.type with
  | .str => lfParseString vals newVal token
  | _ => none

/-- A call of `lf_parse_expr` on a token. -/
def parseCall (tokens : LFList (Cell (Token Ptr))) (curToken : Ptr)
    (vals : LFList (Cell ParsedValue)) : Option (Unit × LFList (Cell ParsedValue)) := do
  some ((), ← lfParseExpr vals tokens curToken)

section Calls

variable {vals : LFList (Cell ParsedValue)} {before : List (Ptr × ParsedValue)}
  {tokens : LFList (Cell (Token Ptr))} {elems : List (Ptr × Token Ptr)} {curToken : Ptr}
  {token : Token Ptr}

/-- A string token becomes a value behind the others. -/
theorem lfParseExpr_str (values : vals.Values valueSize before)
    (lexed : tokens.Values tokenSize elems) {lexeme : Option Ptr}
    (member : (curToken, ⟨.str, some lexeme⟩) ∈ elems) :
    ∃ val vals', lfParseExpr vals tokens curToken = some vals' ∧
      vals'.Values valueSize (before ++ [(val, ⟨.str, lexeme⟩)]) := by
  obtain ⟨val, between, vals', alloc, written, values', -⟩ :=
    values.push (ParsedValue.mk .str lexeme)
  refine ⟨val, vals', ?_, values'⟩
  simp only [lfParseExpr, alloc, lexed.read member, lfParseString, written, Option.bind_eq_bind,
    Option.bind_some, ne_eq, not_true_eq_false, ↓reduceIte]

/-- Any other token is refused. -/
theorem lfParseExpr_other (lexed : tokens.Values tokenSize elems)
    (member : (curToken, token) ∈ elems) (other : token.type ≠ .str) :
    lfParseExpr vals tokens curToken = none := by
  cases alloc : lfAllocListElem vals with
  | none => simp [lfParseExpr, alloc]
  | some allocated =>
      simp only [lfParseExpr, alloc, lexed.read member, Option.bind_eq_bind, Option.bind_some]

end Calls

/-- The value holds the literal that the segment is. -/
def ParsedValue.Holds (lists : LexLists) (src : LFString UInt8) (deck : Deck UInt8)
    (value : ParsedValue) (segment : Segment UInt8) : Prop :=
  ∃ ptr str, value = ⟨.str, some ptr⟩ ∧ lists.string src ptr = some str ∧
    segment = .literal (str.content deck)

section Runs

variable {src : LFString UInt8} {deck : Deck UInt8} {lists : LexLists}
  {segments : List (Segment UInt8)} {added : List (Ptr × Token Ptr)}

/-- Only literals are shown by string tokens. -/
theorem Segment.seen_type_iff {segment : Segment UInt8} :
    segment.seen.type = .str ↔ ∃ chars, segment = .literal chars := by
  cases segment with
  | boundary c =>
      apply iff_of_false
      · simp only [Segment.seen, lfGetTokenTypeFromHardBoundaryLexeme]
        split_ifs <;> simp
      · simp
  | literal chars => simp [Segment.seen, literalSeen]
  | run chars =>
      apply iff_of_false
      · simp only [Segment.seen, lexemeSeen, charType, wordType,
          lfGetTokenTypeFromSoftBoundaryLexeme, lfGetTokenTypeFromHardBoundaryLexeme]
        split_ifs <;> simp_all
      · simp

/-- The tokens show the segments one by one. -/
theorem shows_zip (shows : List.Forall₂ (fun e shown => e.2.Shows lists src deck shown) added
      (segments.map Segment.seen ++ [eofSeen])) :
    ∀ pick ∈ (added.map Prod.fst).zip segments, ∃ token, (pick.1, token) ∈ added ∧
      token.Shows lists src deck pick.2.seen := by
  induction segments generalizing added with
  | nil => simp
  | cons segment segments ih =>
      cases shows with
      | @cons e _ added _ here shows =>
          rw [List.map_cons, List.zip_cons_cons, List.forall_mem_cons]
          refine ⟨⟨e.2, List.mem_cons_self .., here⟩, ?_⟩
          intro pick member
          obtain ⟨token, inAdded, shown⟩ := ih shows pick member
          exact ⟨token, List.mem_cons_of_mem _ inAdded, shown⟩

/-- A token that shows a literal points to a lexeme with its characters. -/
theorem Token.Shows.literal {token : Token Ptr} {chars : List UInt8}
    (shows : token.Shows lists src deck (literalSeen chars)) : ∃ ptr str,
      token = ⟨.str, some (some ptr)⟩ ∧ lists.string src ptr = some str ∧
        str.content deck = chars := by
  generalize same : literalSeen chars = seen at shows
  cases shows with
  | unset type => cases congrArg Seen.content same
  | null type => cases congrArg Seen.content same
  | @lexeme type ptr str found =>
      obtain ⟨rfl, content⟩ := Seen.mk.inj same
      exact ⟨ptr, str, rfl, found, (Option.some.inj content).symm⟩

theorem Token.Shows.type_eq {token : Token Ptr} {seen : Seen}
    (shows : token.Shows lists src deck seen) : token.type = seen.type := by
  cases shows <;> rfl

/-- The calls on tokens of literals go through, and the values hold the literals. -/
theorem parse_literals {vals : LFList (Cell ParsedValue)} {before : List (Ptr × ParsedValue)}
    {elems : List (Ptr × Token Ptr)} (values : vals.Values valueSize before)
    (lexed : lists.tokens.Values tokenSize elems) {picks : List (Ptr × Segment UInt8)}
    (shown : ∀ pick ∈ picks, ∃ token, (pick.1, token) ∈ elems ∧
      token.Shows lists src deck pick.2.seen)
    (literal : ∀ pick ∈ picks, ∃ chars, pick.2 = .literal chars) :
    ∃ answers vals' made, run (parseCall lists.tokens) (picks.map Prod.fst) vals =
        some (answers, vals') ∧ vals'.Values valueSize (before ++ made) ∧
      List.Forall₂ (fun e pick => ParsedValue.Holds lists src deck e.2 pick.2) made picks := by
  induction picks generalizing vals before with
  | nil => exact ⟨[], vals, [], rfl, by rwa [List.append_nil], .nil⟩
  | cons pick picks ih =>
      obtain ⟨⟨token, member, here⟩, shown⟩ := List.forall_mem_cons.mp shown
      obtain ⟨⟨chars, isLiteral⟩, literal⟩ := List.forall_mem_cons.mp literal
      rw [isLiteral] at here
      obtain ⟨ptr, str, rfl, found, content⟩ := here.literal
      obtain ⟨val, vals₁, parsed, values₁⟩ := lfParseExpr_str values lexed member
      obtain ⟨answers, vals', made, runs, values', holds⟩ := ih values₁ shown literal
      have call : parseCall lists.tokens pick.1 vals = some ((), vals₁) := by
        simp [parseCall, parsed]
      refine ⟨() :: answers, vals', (val, ⟨.str, some ptr⟩) :: made, run_cons call runs, ?_,
        .cons ⟨ptr, str, rfl, found, by rw [isLiteral, content]⟩ holds⟩
      simpa using values'

/-- A call on any other token ends the run. -/
theorem literal_of_parse {vals : LFList (Cell ParsedValue)} {elems : List (Ptr × Token Ptr)}
    (lexed : lists.tokens.Values tokenSize elems) {picks : List (Ptr × Segment UInt8)}
    (shown : ∀ pick ∈ picks, ∃ token, (pick.1, token) ∈ elems ∧
      token.Shows lists src deck pick.2.seen)
    {result : List Unit × LFList (Cell ParsedValue)}
    (runs : run (parseCall lists.tokens) (picks.map Prod.fst) vals = some result) :
    ∀ pick ∈ picks, ∃ chars, pick.2 = .literal chars := by
  induction picks generalizing vals result with
  | nil => simp
  | cons pick picks ih =>
      obtain ⟨⟨token, member, here⟩, shown⟩ := List.forall_mem_cons.mp shown
      obtain ⟨answer, vals₁, others, call, onward, -⟩ := run_cons_iff.mp runs
      refine List.forall_mem_cons.mpr ⟨?_, ih shown onward⟩
      apply Segment.seen_type_iff.mp
      by_contra other
      rw [← here.type_eq] at other
      simp [parseCall, lfParseExpr_other lexed member other] at call

/-- **From a text to values.** The lexer makes a token of each segment of a text in one
block. Calls of `lf_parse_expr` on tokens, in any order and any number, go through
exactly when all these tokens come from literals. Each call then appends a string
value, whose string has the characters of the literal. -/
theorem parse_gives_literals {text : List UInt8} (spells : src.Spells deck text)
    (nonempty : text ≠ []) (segmented : Segmented id text segments) {old : LexContents}
    (contains : lists.Contains old) {vals : LFList (Cell ParsedValue)}
    {before : List (Ptr × ParsedValue)} (values : vals.Values valueSize before) :
    ∃ fuel lists' added, lfLex fuel lists src = some lists' ∧
      lists'.tokens.Values tokenSize (old.tokens ++ added) ∧
      added.length = segments.length + 1 ∧
      ∀ picks : List (Ptr × Segment UInt8),
        (∀ pick ∈ picks, pick ∈ (added.map Prod.fst).zip segments) →
        ((∃ result, run (parseCall lists'.tokens) (picks.map Prod.fst) vals = some result) ↔
          ∀ pick ∈ picks, ∃ chars, pick.2 = .literal chars) ∧
        ∀ answers vals', run (parseCall lists'.tokens) (picks.map Prod.fst) vals =
            some (answers, vals') →
          ∃ made, vals'.Values valueSize (before ++ made) ∧
            List.Forall₂ (fun e pick => ParsedValue.Holds lists' src deck e.2 pick.2) made
              picks := by
  obtain ⟨fuel, lists', added, lexed, tokens, shows⟩ :=
    spells.lexes_segmented nonempty segmented lists old contains
  have length : added.length = segments.length + 1 := by
    rw [shows.length_eq, List.length_append, List.length_map, List.length_singleton]
  refine ⟨fuel, lists', added, lexed, tokens, length, ?_⟩
  intro picks picked
  have shown : ∀ pick ∈ picks, ∃ token, (pick.1, token) ∈ old.tokens ++ added ∧
      token.Shows lists' src deck pick.2.seen := by
    intro pick member
    obtain ⟨token, inAdded, here⟩ := shows_zip shows pick (picked pick member)
    exact ⟨token, List.mem_append_right _ inAdded, here⟩
  constructor
  · constructor
    · rintro ⟨result, runs⟩
      exact literal_of_parse tokens shown runs
    · intro literal
      obtain ⟨answers, vals', -, runs, -⟩ := parse_literals values tokens shown literal
      exact ⟨_, runs⟩
  · intro answers vals' runs
    have literal := literal_of_parse tokens shown runs
    obtain ⟨answers', vals'', made, runs', values', holds⟩ :=
      parse_literals values tokens shown literal
    obtain ⟨-, rfl⟩ := Prod.mk.inj (Option.some.inj (runs.symm.trans runs'))
    exact ⟨made, values', holds⟩

end Runs

/-- The text `"a" b`. -/
theorem parse_gives_literals_one : ∃ (src : LFString UInt8) (deck : Deck UInt8) (lists : LexLists)
    (vals : LFList (Cell ParsedValue)), src.Spells deck [34, 97, 34, 32, 98] ∧
    ∃ fuel lists' added, lfLex fuel lists src = some lists' ∧
      lists'.tokens.Values tokenSize ([] ++ added) ∧
      added.length = [Segment.literal [(97 : UInt8)], .run [98]].length + 1 ∧
      ∀ picks : List (Ptr × Segment UInt8),
        (∀ pick ∈ picks, pick ∈ (added.map Prod.fst).zip [.literal [97], .run [98]]) →
        ((∃ result, run (parseCall lists'.tokens) (picks.map Prod.fst) vals = some result) ↔
          ∀ pick ∈ picks, ∃ chars, pick.2 = .literal chars) ∧
        ∀ answers vals', run (parseCall lists'.tokens) (picks.map Prod.fst) vals =
            some (answers, vals') →
          ∃ made, vals'.Values valueSize ([] ++ made) ∧
            List.Forall₂ (fun e pick => ParsedValue.Holds lists' src deck e.2 pick.2) made
              picks := by
  obtain ⟨src, deck, spells⟩ := @exists_spells [34, 97, 34, 32, 98] (by decide) 16 (by decide)
    (by decide)
  obtain ⟨lists, -, -, -, contains⟩ := LexLists.of_init 4 (by decide) (by decide)
  obtain ⟨vals, -, values⟩ := @LFList.Values.of_init ParsedValue
    (LFList.declared (Allocator.bump (.raw 0)) 4 valueSize 8) (by decide) (by decide) (by decide)
    (by decide)
  have name : Segmented id ([98] : List UInt8) [.run [98]] := by
    apply Segmented.single (by decide)
    rw [List.forall_mem_singleton]
    decide
  have segmented : Segmented id ([34, 97, 34, 32, 98] : List UInt8) [.literal [97], .run [98]] :=
    @Segmented.literal _ id 34 34 [97] [32, 98] _ rfl rfl (by decide)
      (List.forall_mem_singleton.mpr (by decide)) (.blank (by decide) name)
  exact ⟨src, deck, lists, vals, spells,
    parse_gives_literals spells (by decide) segmented contains values⟩

end LowFlow
