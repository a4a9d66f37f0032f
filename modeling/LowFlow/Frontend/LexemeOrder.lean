import LowFlow.Frontend.Inspected

/-!
# The order of the lexemes

The lexer takes each character of a text into at most one lexeme, and the lexemes
come in the order of the text. A token that points to a lexeme points behind those
that the tokens before it point to. Beside the last token there is at most one token
for each character (`lexemes_in_order`).
-/

set_option autoImplicit false

namespace LowFlow

variable {γ : Type} {L : Layout γ} {s s' result : Scan γ} {x : γ} {rest rest' text : List γ}

/-! ## Scans -/

@[simp] theorem Scan.lexemes_emit (token : Token ℕ) : (s.emit token).lexemes = s.lexemes := rfl

/-- A lexeme that grows takes the character behind all lexemes. -/
theorem Scan.flatten_grow (grown : s.grow L x = some s') :
    s'.lexemes.flatten = s.lexemes.flatten ++ [x] ∧ s'.lexemes.length = s.lexemes.length := by
  obtain ⟨init, last, current, -, rfl⟩ := Scan.grow_eq_some grown
  simp [Scan.lexemes, current]

/-- A step leaves the characters in their order. -/
theorem ScanStep.lexemes_sublist (step : ScanStep L s x rest rest' s') :
    (s'.lexemes.flatten ++ rest').Sublist (s.lexemes.flatten ++ x :: rest) := by
  have skips : (s.lexemes.flatten ++ rest).Sublist (s.lexemes.flatten ++ x :: rest) :=
    (List.sublist_cons_self x rest).append_left _
  cases step with
  | @opens first rest isQuote outside adjoins =>
      have taken : (s.start first true).lexemes.flatten = s.lexemes.flatten ++ [first] := by
        simp [Scan.start, Scan.lexemes]
      rw [taken, List.append_assoc]
      exact (List.sublist_cons_self x _).append_left _
  | closes isQuote inside =>
      rw [Scan.lexemes_close]
      exact skips
  | reads notQuote inside grown =>
      rw [(Scan.flatten_grow grown).1, List.append_assoc]
      exact List.Sublist.refl _
  | blank notQuote outside white flushed =>
      rw [Scan.lexemes_flush flushed]
      exact skips
  | @boundary _ flushed' notQuote outside notWhite hard flushed =>
      rw [Scan.lexemes_emit, Scan.lexemes_flush flushed]
      exact skips
  | starts plain outside closed =>
      have taken : (s.start x false).lexemes.flatten = s.lexemes.flatten ++ [x] := by
        simp [Scan.start, Scan.lexemes]
      rw [taken, List.append_assoc]
      exact List.Sublist.refl _
  | grows plain outside current grown =>
      rw [(Scan.flatten_grow grown).1, List.append_assoc]
      exact List.Sublist.refl _

/-- **The lexemes of a scan are pieces of the text, in its order.** -/
theorem scan_lexemes_sublist (scanned : scan L text s = some result) :
    result.lexemes.flatten.Sublist (s.lexemes.flatten ++ text) := by
  apply scan_induction (P := fun text s =>
    result.lexemes.flatten.Sublist (s.lexemes.flatten ++ text)) ?_ ?_ scanned
  · rintro s flushed flush rfl
    rw [Scan.lexemes_emit, Scan.lexemes_flush flush, List.append_nil]
  · intro x rest rest' s s' step onward
    exact onward.trans step.lexemes_sublist

/-- How many tokens there are, with the one that the open lexeme becomes. -/
def Scan.due (s : Scan γ) : ℕ := s.tokens.length + s.current.toList.length

theorem Scan.due_flush (flushed : s.flush L = some s') :
    s'.current = none ∧ s'.tokens.length = s.due := by
  refine ⟨(Scan.current_flush flushed).1, ?_⟩
  rcases Scan.flush_eq_some flushed with ⟨current, rfl⟩ | ⟨lexeme, current, -, rfl⟩
  · simp [Scan.due, current]
  · simp [Scan.due, current]

theorem Scan.due_grow (grown : s.grow L x = some s') : s'.due = s.due := by
  obtain ⟨init, last, current, -, rfl⟩ := Scan.grow_eq_some grown
  simp [Scan.due, current]

/-- A step adds at most one token and one lexeme for each character. -/
theorem ScanStep.counts (step : ScanStep L s x rest rest' s') :
    s'.due + rest'.length ≤ s.due + (rest.length + 1) ∧
      s'.lexemes.length + rest'.length ≤ s.lexemes.length + (rest.length + 1) := by
  cases step with
  | opens isQuote outside adjoins =>
      simp only [Scan.start, Scan.due, Scan.lexemes, Option.toList_some, List.length_append,
        List.length_cons, List.length_nil]
      omega
  | closes isQuote inside =>
      rw [Scan.lexemes_close]
      simp only [Scan.close, Scan.due, Option.toList_none, List.length_append, List.length_cons,
        List.length_nil]
      omega
  | reads notQuote inside grown =>
      rw [Scan.due_grow grown, (Scan.flatten_grow grown).2]
      omega
  | blank notQuote outside white flushed =>
      obtain ⟨closed, tokens⟩ := Scan.due_flush flushed
      rw [Scan.due, closed, tokens, Scan.lexemes_flush flushed, Option.toList_none,
        List.length_nil]
      omega
  | @boundary _ flushed' notQuote outside notWhite hard flushed =>
      obtain ⟨closed, tokens⟩ := Scan.due_flush flushed
      rw [Scan.lexemes_emit, Scan.lexemes_flush flushed]
      simp only [Scan.emit, Scan.due, closed, tokens, Option.toList_none, List.length_append,
        List.length_cons, List.length_nil]
      omega
  | starts plain outside closed =>
      simp only [Scan.start, Scan.due, Scan.lexemes, closed, Option.toList_some,
        Option.toList_none, List.length_append, List.length_cons, List.length_nil]
      omega
  | grows plain outside current grown =>
      rw [Scan.due_grow grown, (Scan.flatten_grow grown).2]
      omega

/-- **A scan makes at most one token for each character, and the last one.** -/
theorem scan_counts (scanned : scan L text s = some result) :
    result.tokens.length ≤ s.due + text.length + 1 ∧
      result.lexemes.length ≤ s.lexemes.length + text.length := by
  apply scan_induction (P := fun text s => result.tokens.length ≤ s.due + text.length + 1 ∧
    result.lexemes.length ≤ s.lexemes.length + text.length) ?_ ?_ scanned
  · rintro s flushed flush rfl
    obtain ⟨-, tokens⟩ := Scan.due_flush flush
    rw [Scan.lexemes_emit, Scan.lexemes_flush flush]
    simp only [Scan.emit, List.length_append, List.length_cons, List.length_nil, tokens]
    omega
  · rintro x rest rest' s s' step ⟨tokens, lexemes⟩
    obtain ⟨due, taken⟩ := step.counts
    rw [List.length_cons]
    omega

/-- The lexemes that tokens point to. -/
def named {ρ : Type} (tokens : List (Token ρ)) : List ρ :=
  tokens.filterMap fun token => token.lexeme.join

/-- The tokens point to done lexemes, one after the other. -/
def Scan.NamesInOrder (s : Scan γ) : Prop :=
  (named s.tokens).Sublist (List.range s.past.length)

@[simp] theorem named_concat {ρ : Type} (tokens : List (Token ρ)) (token : Token ρ) :
    named (tokens ++ [token]) = named tokens ++ token.lexeme.join.toList := by
  cases points : token.lexeme.join <;> simp [named, points]

theorem Scan.NamesInOrder.flush (inOrder : s.NamesInOrder) (flushed : s.flush L = some s') :
    s'.NamesInOrder := by
  rcases Scan.flush_eq_some flushed with ⟨-, rfl⟩ | ⟨lexeme, current, -, rfl⟩
  · exact inOrder
  · have here : (lexemeToken (lexeme.map L.char) s.past.length).lexeme.join.toList.Sublist
        [s.past.length] := by
      rw [lexemeToken]
      split_ifs <;> simp
    rw [Scan.NamesInOrder, named_concat, List.length_append, List.length_singleton,
      List.range_succ]
    exact inOrder.append here

theorem Scan.NamesInOrder.start (inOrder : s.NamesInOrder) (x : γ) (reading : Bool) :
    (s.start x reading).NamesInOrder := by
  have more : s.past.length ≤ s.lexemes.length := by simp [Scan.lexemes]
  exact inOrder.trans (List.range_sublist.mpr more)

theorem Scan.NamesInOrder.grow (inOrder : s.NamesInOrder) (grown : s.grow L x = some s') :
    s'.NamesInOrder := by
  obtain ⟨init, last, -, -, rfl⟩ := Scan.grow_eq_some grown
  exact inOrder

/-- A step keeps the order of what the tokens point to. -/
theorem ScanStep.namesInOrder (step : ScanStep L s x rest rest' s') (inOrder : s.NamesInOrder) :
    s'.NamesInOrder := by
  cases step with
  | opens isQuote outside adjoins => exact inOrder.start _ true
  | closes isQuote inside =>
      rw [Scan.NamesInOrder, Scan.close, named_concat]
      cases current : s.current with
      | none => simpa [Scan.NamesInOrder, Scan.lexemes, current] using inOrder
      | some chars =>
          simp only [Scan.lexemes, current, Option.map_some, Option.join_some, Option.toList_some,
            List.length_append, List.length_singleton, List.range_succ]
          exact inOrder.append_right _
  | reads notQuote inside grown => exact inOrder.grow grown
  | blank notQuote outside white flushed => exact inOrder.flush flushed
  | boundary notQuote outside notWhite hard flushed =>
      rw [Scan.NamesInOrder, Scan.emit, named_concat, Option.join_none, Option.toList_none,
        List.append_nil]
      exact inOrder.flush flushed
  | starts plain outside closed => exact inOrder.start x false
  | grows plain outside current grown => exact inOrder.grow grown

/-- **The tokens of a scan point to the lexemes in their order.** -/
theorem scan_namesInOrder (scanned : scan L text s = some result) (inOrder : s.NamesInOrder) :
    result.NamesInOrder := by
  revert inOrder
  apply scan_induction (P := fun _ s => s.NamesInOrder → result.NamesInOrder) ?_ ?_ scanned
  · rintro s flushed flush rfl inOrder
    rw [Scan.NamesInOrder, Scan.emit, named_concat, Option.join_some, Option.toList_none,
      List.append_nil]
    exact inOrder.flush flush
  · intro x rest rest' s s' step onward inOrder
    exact onward (step.namesInOrder inOrder)

/-! ## The lists of the lexer -/

/-- A token points to the lexeme that the token of the scan names. -/
theorem Token.Names.join_eq {ptrs : List Ptr} {t : Token Ptr} {a : Token ℕ}
    (names : t.Names ptrs a) : t.lexeme.join = a.lexeme.join.bind (ptrs[·]?) := by
  cases names with
  | unset type => rfl
  | null type => rfl
  | lexeme type here => exact here.symm

theorem named_eq {ptrs : List Ptr} {added : List (Ptr × Token Ptr)} {tokens : List (Token ℕ)}
    (names : List.Forall₂ (fun e a => Token.Names ptrs e.2 a) added tokens) :
    named (added.map Prod.snd) = (named tokens).filterMap (ptrs[·]?) := by
  rw [named, named, List.filterMap_filterMap, List.filterMap_map]
  induction names with
  | nil => rfl
  | cons here names ih =>
      rw [List.filterMap_cons, List.filterMap_cons, ← ih, Function.comp_apply, here.join_eq]

/-- What is found at the first numbers. -/
theorem filterMap_getElem?_range {ρ : Type} (ptrs : List ρ) (n : ℕ) :
    (List.range n).filterMap (ptrs[·]?) = ptrs.take n := by
  induction n with
  | zero => rfl
  | succ n ih =>
      rw [List.range_succ, List.filterMap_append, ih, List.take_add_one]
      cases found : ptrs[n]? <;> simp [found]

/-- Slices that cover characters have their positions. -/
theorem flatMap_live {deck : Deck UInt8} {entries : List LexEntry} {lexemes : List (List Placed)}
    (covers : List.Forall₂ (fun e chars => e.value.Covers deck (chars.map Prod.fst)) entries
      lexemes) :
    (entries.flatMap fun e => e.value.live deck) = lexemes.flatten.map Prod.fst := by
  induction covers with
  | nil => rfl
  | cons here covers ih =>
      rw [List.flatMap_cons, here.live, ih, List.flatten_cons, List.map_append]

/-- **Lexing keeps the order of the text.** Of a text in one block that does not end with
an opening quote, each character is in at most one lexeme, and the lexemes come in the
order of the text. The tokens point to lexemes in the order of these, to no lexeme twice;
there is at most one token for each character, beside the last token. -/
theorem lexemes_in_order {src : LFString UInt8} {deck : Deck UInt8} {text : List UInt8}
    (spells : src.Spells deck text) (nonempty : text ≠ [])
    (closed : opensAtEnd false text = false) {lists : LexLists} {old : LexContents}
    (contains : lists.Contains old) :
    ∃ fuel lists' added, ∃ entries : List LexEntry, lfLex fuel lists src = some lists' ∧
      lists'.Contains ⟨old.tokens ++ added,
        old.lexemes ++ entries.map (LexEntry.string src.arena.blockSize),
        old.slices ++ entries.map LexEntry.range⟩ ∧
      (named (added.map Prod.snd)).Sublist (entries.map LexEntry.lexeme) ∧
      (entries.flatMap fun e => e.value.live deck).Sublist (src.live deck) ∧
      added.length ≤ text.length + 1 ∧ entries.length ≤ text.length := by
  obtain ⟨holds, result, scanned, -⟩ := spells.scanned nonempty closed
  obtain ⟨fuel, lists', entries, lexed, ⟨added, contains', names⟩, covers, -⟩ :=
    lfLex_refines holds contains scanned
  have size : (src.text deck).length = text.length := by
    rw [← spells.content, LFString.content, List.length_map]
  obtain ⟨tokens, lexemes⟩ := scan_counts scanned
  refine ⟨fuel, lists', added, entries, lexed, contains', ?_, ?_, ?_, ?_⟩
  · have inOrder := scan_namesInOrder scanned List.Sublist.slnil
    have pointers := inOrder.filterMap ((entries.map LexEntry.lexeme)[·]?)
    rw [filterMap_getElem?_range, ← named_eq names] at pointers
    exact pointers.trans (List.take_sublist _ _)
  · have pieces := (scan_lexemes_sublist scanned).map Prod.fst
    have positions : (src.text deck).map Prod.fst = src.live deck := Deck.chars_positions _
    rw [← flatMap_live covers] at pieces
    exact positions ▸ pieces
  · rw [names.length_eq, ← size]
    simpa [Scan.due, Scan.empty] using tokens
  · rw [covers.length_eq, ← size]
    simpa [Scan.lexemes, Scan.empty] using lexemes

/-- The text `ab "c"`. -/
theorem lexemes_in_order_literal : ∃ (src : LFString UInt8) (deck : Deck UInt8) (lists : LexLists),
    src.Spells deck [97, 98, 32, 34, 99, 34] ∧
    ∃ fuel lists' added, ∃ entries : List LexEntry, lfLex fuel lists src = some lists' ∧
      lists'.Contains ⟨[] ++ added, [] ++ entries.map (LexEntry.string src.arena.blockSize),
        [] ++ entries.map LexEntry.range⟩ ∧
      (named (added.map Prod.snd)).Sublist (entries.map LexEntry.lexeme) ∧
      (entries.flatMap fun e => e.value.live deck).Sublist (src.live deck) ∧
      added.length ≤ 7 ∧ entries.length ≤ 6 := by
  obtain ⟨src, deck, spells⟩ := @exists_spells [97, 98, 32, 34, 99, 34] (by decide) 16 (by decide)
    (by decide)
  obtain ⟨lists, -, -, -, contains⟩ := LexLists.of_init 4 (by decide) (by decide)
  exact ⟨src, deck, lists, spells, lexemes_in_order spells (by decide) (by decide) contains⟩

end LowFlow
