import LowFlow.Frontend.Lexes

/-!
# The members of the tokens

A token is written into memory that the list of tokens has just allocated, and
a member that the lexer does not set keeps what this memory held. Two runs of the
lexer, on lists of tokens in different memory, stay side by side: they keep the
same lexemes, and append the same tokens up to the members that are not set. So
their tokens agree in every member exactly when every token has its lexeme set,
which is when no round of the loop meets a hard boundary outside of a literal, and
no keyword is flushed (`lfLex_fields_iff`).
-/

set_option autoImplicit false

namespace LowFlow

open Library

/-! ## Tokens in memory -/

/-- The members of a token, where its slot held this in the place of the lexeme. -/
def Token.inMemory (left : Option Ptr) (t : Token Ptr) : TokenType × Option Ptr :=
  (t.type, t.lexeme.getD left)

/-- The lexeme is set, and to `NULL` unless the token is an identifier or a literal. -/
def Token.Settled (t : Token Ptr) : Prop :=
  t.lexeme ≠ none ∧ (t.type ≠ .identifier → t.type ≠ .str → t.lexeme = some none)

/-- The tokens of two runs, over memory that held this before, are the same in every
member, and point to a lexeme only where they are identifiers or literals. -/
def FieldsAgree (left₁ left₂ : Ptr → Option Ptr) (added₁ added₂ : List (Ptr × Token Ptr)) : Prop :=
  List.Forall₂ (fun e₁ e₂ => e₁.2.inMemory (left₁ e₁.1) = e₂.2.inMemory (left₂ e₂.1))
    added₁ added₂ ∧
  ∀ e ∈ added₁, e.2.type ≠ .identifier → e.2.type ≠ .str → (e.2.inMemory (left₁ e.1)).2 = none

/-- The list has these tokens behind the old elements. -/
def LFList.Adds (tokens : LFList (Cell (Token Ptr))) (old : List (Ptr × Token Ptr))
    (added : List (Token Ptr)) : Prop :=
  ∃ elems, tokens.Values tokenSize (old ++ elems) ∧ elems.map Prod.snd = added

/-- The lists of two runs: the same lexemes, and the same tokens behind the old ones. -/
structure Beside (old₁ old₂ : List (Ptr × Token Ptr)) (lists₁ lists₂ : LexLists)
    (added : List (Token Ptr)) : Prop where
  lexemes : lists₂.lexemes = lists₁.lexemes
  slices : lists₂.slices = lists₁.slices
  first : lists₁.tokens.Adds old₁ added
  second : lists₂.tokens.Adds old₂ added

/-- A flush of this lexeme sets the lexeme of its token: the lexeme is one character,
or no keyword. -/
def LexLists.FlushSets (lists : LexLists) (src : LFString UInt8) (lexeme : Ptr) : Prop :=
  ∀ str, lists.string src lexeme = some str →
    lfGetStringSize str ≤ 1 ∨ lfGetTokenTypeFromBigLexeme str = some .identifier

/-- A round of the loop on this character sets the lexemes of its tokens: outside of
literals the character is no hard boundary, and flushes no keyword. -/
def LexState.RoundSets (src : LFString UInt8) (s : LexState) (c : UInt8) : Prop :=
  c ≠ quote → s.isReadingStr = false →
    lfGetTokenTypeFromHardBoundaryLexeme c = .unknown ∧
      (lfIsWhitespace c = true → ∀ lexeme, s.curLexeme = some lexeme → s.lists.FlushSets src lexeme)

/-- What is done in this state of the loop, or behind the loop, sets the lexemes of its
tokens. -/
def LexState.Sets (src : LFString UInt8) (s : LexState) : Prop :=
  match s.curChar with
  | some curChar => ∀ c, loadChar src curChar = some c → s.RoundSets src c
  | none => ∀ lexeme, s.curLexeme = some lexeme → s.lists.FlushSets src lexeme

section Rounds

variable {old₁ old₂ : List (Ptr × Token Ptr)} {lists₁ lists₁' lists₂ : LexLists}
  {added : List (Token Ptr)} {src : LFString UInt8}

theorem LFList.Adds.push {tokens : LFList (Cell (Token Ptr))} {old : List (Ptr × Token Ptr)}
    (adds : tokens.Adds old added) (t : Token Ptr) :
    ∃ ptr between tokens', lfAllocListElem tokens = some (ptr, between) ∧
      between.write tokenSize ptr t = some tokens' ∧ tokens'.Adds old (added ++ [t]) := by
  obtain ⟨elems, values, rfl⟩ := adds
  obtain ⟨ptr, between, tokens', alloc, written, values', -⟩ := values.push t
  exact ⟨ptr, between, tokens', alloc, written, elems ++ [(ptr, t)],
    by rw [← List.append_assoc]; exact values', by simp⟩

namespace Beside

/-- Both runs add a token. -/
theorem addToken (beside : Beside old₁ old₂ lists₁ lists₂ added) {t : Token Ptr}
    (ran : lists₁.addToken t = some lists₁') :
    ∃ lists₂', lists₂.addToken t = some lists₂' ∧
      Beside old₁ old₂ lists₁' lists₂' (added ++ [t]) := by
  obtain ⟨ptr₁, between₁, tokens₁, alloc₁, written₁, first⟩ := beside.first.push t
  obtain ⟨ptr₂, between₂, tokens₂, alloc₂, written₂, second⟩ := beside.second.push t
  obtain rfl : { lists₁ with tokens := tokens₁ } = lists₁' := by
    simpa [LexLists.addToken, alloc₁, written₁] using ran
  exact ⟨{ lists₂ with tokens := tokens₂ }, by simp [LexLists.addToken, alloc₂, written₂],
    beside.lexemes, beside.slices, first, second⟩

theorem string (beside : Beside old₁ old₂ lists₁ lists₂ added) (lexeme : Ptr) :
    lists₂.string src lexeme = lists₁.string src lexeme := by
  simp only [LexLists.string, beside.lexemes, beside.slices]

/-- Both runs flush a lexeme. -/
theorem flush (beside : Beside old₁ old₂ lists₁ lists₂ added) {lexeme : Ptr}
    (ran : lfFlushLexeme src lists₁ lexeme = some lists₁') :
    ∃ lists₂' t, lfFlushLexeme src lists₂ lexeme = some lists₂' ∧
      Beside old₁ old₂ lists₁' lists₂' (added ++ [t]) ∧
      (t.Settled ↔ lists₁.FlushSets src lexeme) := by
  simp only [lfFlushLexeme, Option.bind_eq_bind, Option.bind_eq_some_iff] at ran
  obtain ⟨str, string, ran⟩ := ran
  have string₂ := (beside.string lexeme).trans string
  by_cases small : lfGetStringSize str ≤ 1
  · rw [if_pos small] at ran
    obtain ⟨⟨fstChar, iter⟩, begins, c, loaded, ran⟩ := Option.bind_eq_some_iff.mp ran |>.imp
      fun _ => And.imp_right Option.bind_eq_some_iff.mp
    obtain ⟨lists₂', ran₂, beside'⟩ := beside.addToken ran
    refine ⟨lists₂', _, ?_, beside', iff_of_true ?_ ?_⟩
    · simp only [lfFlushLexeme, string₂, Option.bind_eq_bind, Option.bind_some, if_pos small,
        begins, loaded, ran₂]
    · exact ⟨Option.some_ne_none _, fun _ _ => rfl⟩
    · intro str' string'
      obtain rfl := Option.some.inj (string.symm.trans string')
      exact .inl small
  · rw [if_neg small] at ran
    obtain ⟨type, typed, ran⟩ := Option.bind_eq_some_iff.mp ran
    obtain ⟨lists₂', ran₂, beside'⟩ := beside.addToken ran
    refine ⟨lists₂', _, ?_, beside', ?_⟩
    · simp only [lfFlushLexeme, string₂, Option.bind_eq_bind, Option.bind_some, if_neg small, typed,
        ran₂]
    · constructor
      · rintro ⟨set, -⟩ str' string'
        obtain rfl := Option.some.inj (string.symm.trans string')
        have name : type = .identifier := by
          by_contra other
          simp [other] at set
        exact .inr (name ▸ typed)
      · intro sets
        have name : type = .identifier := by
          have named := (sets str string).resolve_left small
          exact Option.some.inj (typed.symm.trans named)
        exact ⟨by simp [name], fun notName => absurd name notName⟩

/-- Both runs flush the open lexeme, if one is open. -/
theorem flushOpen (beside : Beside old₁ old₂ lists₁ lists₂ added) {curLexeme : Option Ptr}
    (ran : LowFlow.flushOpen src lists₁ curLexeme = some lists₁') :
    ∃ lists₂' more, LowFlow.flushOpen src lists₂ curLexeme = some lists₂' ∧
      Beside old₁ old₂ lists₁' lists₂' (added ++ more) ∧
      ((∀ t ∈ more, t.Settled) ↔ ∀ lexeme, curLexeme = some lexeme →
        lists₁.FlushSets src lexeme) := by
  cases curLexeme with
  | none =>
      cases ran
      exact ⟨lists₂, [], rfl, by simpa using beside, by simp⟩
  | some lexeme =>
      obtain ⟨lists₂', t, ran₂, beside', sets⟩ := beside.flush ran
      exact ⟨lists₂', [t], ran₂, beside', by simpa using sets⟩

/-- Both runs add the same lexeme. -/
theorem addLexeme (beside : Beside old₁ old₂ lists₁ lists₂ added) {borders : ArenaSlice}
    {lexeme : Ptr} (ran : lists₁.addLexeme src borders = some (lexeme, lists₁')) :
    ∃ lists₂', lists₂.addLexeme src borders = some (lexeme, lists₂') ∧
      Beside old₁ old₂ lists₁' lists₂' added := by
  simp only [LexLists.addLexeme, Option.bind_eq_bind, Option.bind_eq_some_iff, Option.some.injEq,
    Prod.mk.injEq] at ran
  obtain ⟨⟨slice, slices⟩, allocSlice, slices', written, ⟨ptr, lexemes⟩, allocLexeme, read,
    readBack, str, init, value, backed, slices'', sized, lexemes', writtenLexeme, rfl, rfl⟩ := ran
  refine ⟨{ lists₂ with lexemes := lexemes', slices := slices'' }, ?_, rfl, rfl, beside.first,
    beside.second⟩
  simp [LexLists.addLexeme, beside.lexemes, beside.slices, allocSlice, written, allocLexeme,
    readBack, init, backed, sized, writtenLexeme]

/-- Both runs grow the same lexeme. -/
theorem growLexeme (beside : Beside old₁ old₂ lists₁ lists₂ added) {lexeme : Ptr}
    (ran : lists₁.growLexeme src lexeme = some lists₁') :
    ∃ lists₂', lists₂.growLexeme src lexeme = some lists₂' ∧
      Beside old₁ old₂ lists₁' lists₂' added := by
  simp only [LexLists.growLexeme, Option.bind_eq_bind, Option.bind_eq_some_iff, Option.some.injEq]
    at ran
  obtain ⟨str, readLexeme, slice, readSlice, ⟨elem, grown⟩, grows, slices, written, rfl⟩ := ran
  refine ⟨{ lists₂ with slices }, ?_, beside.lexemes, rfl, beside.first, beside.second⟩
  simp [LexLists.growLexeme, beside.lexemes, beside.slices, readLexeme, readSlice, grows, written]

/-- Both runs take a round of the loop. -/
theorem lexChar {st₁ st₁' : LexState} {c : UInt8}
    (beside : Beside old₁ old₂ st₁.lists lists₂ added)
    (ran : LowFlow.lexChar src st₁ c = some st₁') :
    ∃ lists₂' more,
      LowFlow.lexChar src { st₁ with lists := lists₂ } c = some { st₁' with lists := lists₂' } ∧
      Beside old₁ old₂ st₁'.lists lists₂' (added ++ more) ∧
      ((∀ t ∈ more, t.Settled) ↔ st₁.RoundSets src c) := by
  unfold LowFlow.lexChar at ran ⊢
  by_cases opening : c = quote ∧ ¬ st₁.isReadingStr = true
  · simp only [if_pos opening, Option.bind_eq_bind, Option.bind_eq_some_iff,
      Option.some.injEq] at ran ⊢
    obtain ⟨⟨lexeme, lists⟩, adds, ⟨skipped, iter⟩, goes, ⟨curChar, iter'⟩, onward, rfl⟩ := ran
    obtain ⟨lists₂', adds₂, beside'⟩ := beside.addLexeme adds
    exact ⟨lists₂', [], by simp [adds₂, goes, onward], by simpa using beside',
      iff_of_true (by simp) fun notQuote => absurd opening.1 notQuote⟩
  rw [if_neg opening] at ran ⊢
  by_cases closing : c = quote
  · simp only [if_pos closing, Option.bind_eq_bind, Option.bind_eq_some_iff,
      Option.some.injEq] at ran ⊢
    obtain ⟨lists, adds, ⟨curChar, iter⟩, goes, rfl⟩ := ran
    obtain ⟨lists₂', adds₂, beside'⟩ := beside.addToken adds
    refine ⟨lists₂', _, by simp [adds₂, goes], beside',
      iff_of_true ?_ fun notQuote => absurd closing notQuote⟩
    rintro t member
    obtain rfl := List.mem_singleton.mp member
    exact ⟨Option.some_ne_none _, fun _ notLiteral => absurd rfl notLiteral⟩
  rw [if_neg closing] at ran ⊢
  by_cases inside : st₁.isReadingStr = true
  · simp only [if_pos inside, Option.bind_eq_bind, Option.bind_eq_some_iff,
      Option.some.injEq] at ran ⊢
    obtain ⟨lexeme, current, lists, grows, ⟨curChar, iter⟩, goes, rfl⟩ := ran
    obtain ⟨lists₂', grows₂, beside'⟩ := beside.growLexeme grows
    refine ⟨lists₂', [], by simp [current, grows₂, goes], by simpa using beside',
      iff_of_true (by simp) ?_⟩
    intro _ outside
    rw [inside] at outside
    cases outside
  rw [if_neg inside] at ran ⊢
  have outside : st₁.isReadingStr = false := by simpa using inside
  by_cases white : lfIsWhitespace c = true
  · simp only [if_pos white, Option.bind_eq_bind, Option.bind_eq_some_iff,
      Option.some.injEq] at ran ⊢
    obtain ⟨lists, flushed, ⟨curChar, iter⟩, goes, rfl⟩ := ran
    obtain ⟨lists₂', more, flushed₂, beside', sets⟩ := beside.flushOpen flushed
    refine ⟨lists₂', more, by simp [flushed₂, goes], beside', sets.trans ⟨?_, ?_⟩⟩
    · intro allSet _ _
      exact ⟨hard_of_white white, fun _ => allSet⟩
    · intro roundSets
      exact (roundSets closing outside).2 white
  rw [if_neg white] at ran ⊢
  by_cases hard : lfGetTokenTypeFromHardBoundaryLexeme c ≠ .unknown
  · simp only [if_pos hard, Option.bind_eq_bind, Option.bind_eq_some_iff,
      Option.some.injEq] at ran ⊢
    obtain ⟨lists, flushed, lists', adds, ⟨curChar, iter⟩, goes, rfl⟩ := ran
    obtain ⟨lists₂', more, flushed₂, beside', -⟩ := beside.flushOpen flushed
    obtain ⟨lists₂'', adds₂, beside''⟩ := beside'.addToken adds
    refine ⟨lists₂'', more ++ [_], by simp [flushed₂, adds₂, goes],
      by simpa using beside'', iff_of_false ?_ ?_⟩
    · intro settled
      exact (settled _ (List.mem_append_right more (List.mem_singleton_self _))).1 rfl
    · intro roundSets
      exact hard (roundSets closing outside).1
  rw [if_neg hard] at ran ⊢
  have sets : st₁.RoundSets src c :=
    fun _ _ => ⟨not_not.mp hard, fun isWhite => absurd isWhite white⟩
  cases current : st₁.curLexeme with
  | none =>
      simp only [current, Option.bind_eq_bind, Option.bind_eq_some_iff, Option.some.injEq] at ran ⊢
      obtain ⟨⟨lexeme, lists⟩, adds, ⟨curChar, iter⟩, goes, rfl⟩ := ran
      obtain ⟨lists₂', adds₂, beside'⟩ := beside.addLexeme adds
      exact ⟨lists₂', [], by simp [adds₂, goes], by simpa using beside', iff_of_true (by simp) sets⟩
  | some lexeme =>
      simp only [current, Option.bind_eq_bind, Option.bind_eq_some_iff, Option.some.injEq] at ran ⊢
      obtain ⟨lists, grows, ⟨curChar, iter⟩, goes, rfl⟩ := ran
      obtain ⟨lists₂', grows₂, beside'⟩ := beside.growLexeme grows
      exact ⟨lists₂', [], by simp [grows₂, goes], by simpa using beside',
        iff_of_true (by simp) sets⟩

/-- Both runs end the lexing. -/
theorem lexEnd {st : LexState} (beside : Beside old₁ old₂ st.lists lists₂ added)
    (ran : LowFlow.lexEnd src st = some lists₁') :
    ∃ lists₂' more, LowFlow.lexEnd src { st with lists := lists₂ } = some lists₂' ∧
      Beside old₁ old₂ lists₁' lists₂' (added ++ more) ∧
      ((∀ t ∈ more, t.Settled) ↔
        ∀ lexeme, st.curLexeme = some lexeme → st.lists.FlushSets src lexeme) := by
  simp only [LowFlow.lexEnd, Option.bind_eq_bind, Option.bind_eq_some_iff] at ran ⊢
  obtain ⟨lists, flushed, adds⟩ := ran
  obtain ⟨lists₂', more, flushed₂, beside', sets⟩ := beside.flushOpen flushed
  obtain ⟨lists₂'', adds₂, beside''⟩ := beside'.addToken adds
  refine ⟨lists₂'', more ++ [_], ⟨lists₂', flushed₂, adds₂⟩, by simpa using beside'', ?_⟩
  rw [← sets, List.forall_mem_append, List.forall_mem_singleton]
  exact and_iff_left ⟨Option.some_ne_none _, fun _ _ => rfl⟩

/-- Both runs go through the loop and end. The induction is on the rounds. -/
theorem loop {fuel : ℕ} {st : LexState} (beside : Beside old₁ old₂ st.lists lists₂ added)
    (ran : (iterate (lexStep src) fuel st).bind (LowFlow.lexEnd src) = some lists₁') :
    ∃ lists₂' more, (iterate (lexStep src) fuel { st with lists := lists₂ }).bind
        (LowFlow.lexEnd src) = some lists₂' ∧
      Beside old₁ old₂ lists₁' lists₂' (added ++ more) ∧
      ((∀ t ∈ more, t.Settled) ↔ ∀ s ∈ states (lexStep src) fuel st, s.Sets src) := by
  induction fuel generalizing st lists₂ added with
  | zero => cases ran
  | succ fuel ih =>
      let again : LexState := { st with lists := lists₂ }
      rcases Option.eq_none_or_eq_some st.curChar with ended | ⟨curChar, current⟩
      · have done : lexStep src st = some (.inr st) := lexStep_ended ended
        have done₂ : lexStep src again = some (.inr again) := lexStep_ended ended
        rw [iterate_done done, Option.bind_some] at ran
        obtain ⟨lists₂', more, ran₂, beside', sets⟩ := beside.lexEnd ran
        refine ⟨lists₂', more, by rw [iterate_done done₂, Option.bind_some, ran₂], beside', ?_⟩
        rw [states_done done, List.forall_mem_singleton, sets]
        simp [LexState.Sets, ended]
      · have round : lexStep src st =
            (loadChar src curChar).bind fun c => (LowFlow.lexChar src st c).map Sum.inl :=
          lexStep_current current
        have round₂ : lexStep src again =
            (loadChar src curChar).bind fun c => (LowFlow.lexChar src again c).map Sum.inl :=
          lexStep_current current
        cases step : lexStep src st with
        | none =>
            rw [iterate_fails step] at ran
            cases ran
        | some outcome =>
            rw [round, Option.bind_eq_some_iff] at step
            obtain ⟨c, loaded, step⟩ := step
            obtain ⟨st', next, rfl⟩ := Option.map_eq_some_iff.mp step
            rw [loaded, Option.bind_some, next, Option.map_some] at round
            rw [iterate_next round] at ran
            obtain ⟨lists₂', more, next₂, beside', sets⟩ := beside.lexChar next
            rw [loaded, Option.bind_some, next₂, Option.map_some] at round₂
            obtain ⟨lists₂'', rest, ran₂, beside'', allSets⟩ := ih beside' ran
            refine ⟨lists₂'', more ++ rest, by rw [iterate_next round₂, ran₂],
              by simpa using beside'', ?_⟩
            rw [states_next round, List.forall_mem_cons, List.forall_mem_append, sets, allSets]
            simp [LexState.Sets, current, loaded]

end Beside

end Rounds

/-! ## Every source -/

/-- The lexer makes the same tokens in every member, whatever was in the memory that
the list of tokens takes. -/
def SameFields (fuel : ℕ) (src : LFString UInt8) (lists₁ : LexLists)
    (tokens₂ : LFList (Cell (Token Ptr))) (old₁ old₂ : List (Ptr × Token Ptr)) : Prop :=
  ∃ done₁ done₂ added₁ added₂, lfLex fuel lists₁ src = some done₁ ∧
    lfLex fuel { lists₁ with tokens := tokens₂ } src = some done₂ ∧
    done₁.tokens.Values tokenSize (old₁ ++ added₁) ∧
    done₂.tokens.Values tokenSize (old₂ ++ added₂) ∧
    done₂.lexemes = done₁.lexemes ∧ done₂.slices = done₁.slices ∧
    ∀ left₁ left₂, FieldsAgree left₁ left₂ added₁ added₂

end LowFlow
