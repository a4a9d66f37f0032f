import LowFlow.Frontend.LexMemory

/-!
# The lexer refines the scan

Each round of the loop of the lexer is one step of the scan of the source text,
under the layout of the source. So the lexer ends with the tokens and the lexemes
of the scan, wherever the scan ends (`lfLex_refines`).
-/

set_option autoImplicit false

namespace LowFlow

open Library

/-! ## The iterator of the source -/

/-- The iterator of the loop has these positions before it. -/
inductive LFString.At (src : LFString UInt8) :
    List Position → Option Ptr → StringIteration UInt8 → Prop where
  | ended (iter : StringIteration UInt8) : At src [] none iter
  | current {x : Position} {rest : List Position} (path : src.Path (x :: rest)) :
      At src (x :: rest) (some x.ptr) ⟨src, some x.1, x.2⟩

section Iterating

variable {src : LFString UInt8} {deck : Deck UInt8}

/-- The iterator goes on to the next position. -/
theorem LFString.Path.next {x : Position} {rest : List Position} (path : src.Path (x :: rest)) :
    ∃ curChar iter, lfIterateString ⟨src, some x.1, x.2⟩ = some (curChar, iter) ∧
      src.At rest curChar iter := by
  cases path with
  | last ends => exact ⟨_, _, ends, .ended _⟩
  | step goes onward => exact ⟨_, _, goes, .current onward⟩

theorem LFString.At.start {x : Position} {rest : List Position} {curChar : Option Ptr}
    {iter : StringIteration UInt8} (position : src.At (x :: rest) curChar iter) :
    curChar = some x.ptr ∧ iter = ⟨src, some x.1, x.2⟩ ∧ src.Path (x :: rest) := by
  cases position with
  | current path => exact ⟨rfl, rfl, path⟩

/-- A next position in the same block is the adjacent one. -/
theorem Deck.Follows.eq_of_same_block {x y : Position} (distinct : (ptrs deck).Nodup)
    (follows : deck.Follows x y) (same : x.1 = y.1) : y = (x.1, x.2 + 1) := by
  cases follows with
  | within => rfl
  | next split =>
      dsimp only at same
      rw [split, ptrs, List.map_append] at distinct
      exact absurd (by simp [same]) (List.nodup_cons.mp (List.nodup_append'.mp distinct).2.1).1

end Iterating

/-! ## The simulation -/

/-- The open lexeme of the loop is the last one, if one is open. -/
inductive Opened : Option (List Placed) → List LexEntry → Option Ptr → Prop where
  | outside (entries : List LexEntry) : Opened none entries none
  | inside (chars : List Placed) (front : List LexEntry) (e : LexEntry) :
      Opened (some chars) (front ++ [e]) (some e.lexeme)

theorem Opened.closed {entries : List LexEntry} {curLexeme : Option Ptr}
    (opened : Opened none entries curLexeme) : curLexeme = none := by
  cases opened
  rfl

/-- The token of a literal points to the open lexeme. -/
theorem Opened.names {src : LFString UInt8} {deck : Deck UInt8} {old : LexContents}
    {lists : LexLists} {entries : List LexEntry} {s : Scan Placed} {curLexeme : Option Ptr}
    (opened : Opened s.current entries curLexeme)
    (memory : LexMemory src deck old lists entries s.lexemes s.tokens) :
    Token.Names (entries.map LexEntry.lexeme) ⟨.str, some curLexeme⟩
      ⟨.str, some (s.current.map fun _ => s.past.length)⟩ := by
  have counts := memory.covers.length_eq
  cases current : s.current with
  | none =>
      rw [current] at opened
      rw [opened.closed]
      exact .null _
  | some chars =>
      rw [current] at opened
      cases opened with
      | inside _ front e =>
          have number : front.length = s.past.length := by
            simpa [Scan.lexemes, current] using counts
          exact .lexeme _ (by simp [← number])

/-- A state of the loop and a state of the scan, with what is scanned and what is left. -/
structure Simulates (src : LFString UInt8) (deck : Deck UInt8) (old : LexContents)
    (done rest : List Placed) (s : Scan Placed) (st : LexState) : Prop where
  memory : ∃ entries, LexMemory src deck old st.lists entries s.lexemes s.tokens ∧
    Opened s.current entries st.curLexeme
  reading : st.isReadingStr = s.reading
  position : src.At (rest.map Prod.fst) st.curChar st.srcIter
  recent : ∀ lexeme, s.current = some lexeme → lexeme <:+ done

section Rounds

variable {src : LFString UInt8} {deck : Deck UInt8} {old : LexContents}
  {text done rest rest' : List Placed} {s s' : Scan Placed} {st : LexState} {x : Placed}

/-- Flushing the open lexeme. -/
theorem flushOpen_refines (rep : Represents src.arena deck)
    (bounded : ∀ entry ∈ deck, entry.2.rightOffset ≤ src.arena.blockSize) {lists : LexLists}
    {entries : List LexEntry} {curLexeme : Option Ptr}
    (memory : LexMemory src deck old lists entries s.lexemes s.tokens)
    (opened : Opened s.current entries curLexeme)
    (flushed : s.flush (stored src.arena.blockSize) = some s') :
    ∃ lists', flushOpen src lists curLexeme = some lists' ∧
      LexMemory src deck old lists' entries s'.lexemes s'.tokens := by
  rcases Scan.flush_eq_some flushed with ⟨current, rfl⟩ | ⟨lexeme, current, comparable, rfl⟩
  · rw [current] at opened
    cases opened
    exact ⟨lists, rfl, memory⟩
  · rw [current] at opened
    cases opened with
    | inside chars front e =>
        have lexemes : s.lexemes = s.past ++ [lexeme] := by simp [Scan.lexemes, current]
        rw [lexemes] at memory
        obtain ⟨lists', flushed', memory'⟩ := memory.flushLexeme rep bounded comparable
        exact ⟨lists', flushed', by simpa [Scan.lexemes, stored] using memory'⟩

/-- The character of a round, and the iterator after it. -/
theorem Simulates.current (sim : Simulates src deck old done (x :: rest) s st) :
    st.curChar = some x.1.ptr ∧ st.srcIter = ⟨src, some x.1.1, x.1.2⟩ ∧
      src.Path (x.1 :: rest.map Prod.fst) :=
  sim.position.start

/-- A round on the current character. -/
theorem Simulates.round (sim : Simulates src deck old done (x :: rest) s st)
    (holds : src.Holds deck text) (inText : x ∈ text) :
    lexStep src st = (lexChar src st x.2).map Sum.inl := by
  obtain ⟨curChar, -, -⟩ := sim.current
  have loaded := loadChar_shown holds.rep holds.bounded (holds.shows x inText)
  rw [lexStep_current curChar, loaded, Option.bind_some]

/-- The open lexeme is grown by the current character. -/
theorem Simulates.grow (sim : Simulates src deck old done (x :: rest) s st)
    (holds : src.Holds deck text) (split : done ++ x :: rest = text)
    (grown : s.grow (stored src.arena.blockSize) x = some s') :
    ∃ lexeme lists' entries', st.curLexeme = some lexeme ∧
      st.lists.growLexeme src lexeme = some lists' ∧
      LexMemory src deck old lists' entries' s'.lexemes s'.tokens ∧
      Opened s'.current entries' (some lexeme) ∧
      ∀ chars, s'.current = some chars → chars <:+ done ++ [x] := by
  obtain ⟨entries, memory, opened⟩ := sim.memory
  obtain ⟨init, last, current, joins, rfl⟩ := Scan.grow_eq_some grown
  obtain ⟨before, ends⟩ := sim.recent _ current
  rw [← List.append_assoc] at ends
  have text_eq : text = (before ++ init) ++ last :: x :: rest := by
    rw [← split, ← ends]
    simp
  have inText : x ∈ text := by simp [text_eq]
  have small : (init ++ [last]).length + 1 < sizeModulus := by
    have short := holds.short
    rw [text_eq] at short
    simp at short ⊢
    omega
  have lexemes : s.lexemes = s.past ++ [init ++ [last]] := by simp [Scan.lexemes, current]
  rw [lexemes] at memory
  rw [current] at opened
  generalize curLexeme : st.curLexeme = c at opened
  cases opened with
  | inside chars front e =>
      obtain ⟨value, lists', grow, memory'⟩ := memory.growLexeme holds.rep holds.bounded rfl
        (holds.next text_eq) joins (holds.shows x inText) small
      refine ⟨e.lexeme, lists', front ++ [{ e with value }], rfl, grow, memory', ?_, ?_⟩
      · exact .inside _ front { e with value }
      · intro chars same
        cases same
        exact ⟨before, by rw [← ends]; simp⟩

/-- A round that leaves the open lexeme and moves to the next character. -/
theorem Simulates.advance (sim : Simulates src deck old done (x :: rest) s st) :
    ∃ curChar srcIter, lfIterateString st.srcIter = some (curChar, srcIter) ∧
      src.At (rest.map Prod.fst) curChar srcIter := by
  obtain ⟨-, srcIter, path⟩ := sim.current
  rw [srcIter]
  exact path.next

/-- With no open lexeme nothing but the lists and the iterator counts. -/
theorem Simulates.between {lists : LexLists} {entries : List LexEntry} {curChar : Option Ptr}
    {srcIter : StringIteration UInt8}
    (memory : LexMemory src deck old lists entries s.lexemes s.tokens) (closed : s.current = none)
    (outside : s.reading = false) (position : src.At (rest.map Prod.fst) curChar srcIter) :
    Simulates src deck old done rest s ⟨lists, none, false, srcIter, curChar⟩ where
  memory := ⟨entries, memory, closed ▸ .outside entries⟩
  reading := outside.symm
  position := position
  recent := by simp [closed]

/-- A round of the loop is a step of the scan. -/
theorem lexStep_refines (sim : Simulates src deck old done (x :: rest) s st)
    (holds : src.Holds deck text) (split : done ++ x :: rest = text)
    (step : ScanStep (stored src.arena.blockSize) s x rest rest' s') :
    ∃ st' done', lexStep src st = some (.inl st') ∧ done' ++ rest' = text ∧
      Simulates src deck old done' rest' s' st' := by
  have inText : x ∈ text := by simp [← split]
  have onward : done ++ [x] ++ rest = text := by simpa using split
  rw [sim.round holds inText]
  obtain ⟨entries, memory, opened⟩ := sim.memory
  obtain ⟨curChar, srcIter, advance, position⟩ := sim.advance
  have reading := sim.reading
  cases step with
  | @opens first _ isQuote outside adjoins =>
      obtain ⟨-, atQuote, path⟩ := sim.current
      have follows : deck.Follows x.1 first.1 := holds.next split.symm
      have next : first.1 = (x.1.1, x.1.2 + 1) :=
        follows.eq_of_same_block holds.rep.distinct (by simpa [stored] using adjoins)
      obtain ⟨lexeme, slice, value, lists', added, memory'⟩ :=
        memory.addLexeme holds.rep (holds.shows first (by simp [← split]))
      obtain ⟨-, rfl, path⟩ := position.start
      obtain ⟨curChar', srcIter', advance', position'⟩ := path.next
      refine ⟨⟨lists', some lexeme, true, srcIter', curChar'⟩, done ++ [x, first], ?_,
        by simpa using split, ⟨⟨_, memory', .inside _ _ _⟩, rfl, position', ?_⟩⟩
      · obtain isQuote : x.2 = quote := isQuote
        rw [next] at added
        rw [atQuote] at advance
        simp [lexChar, isQuote, reading, outside, atQuote, added, advance, advance']
      · rintro chars same
        cases same
        exact ⟨done ++ [x], by simp⟩
  | closes isQuote inside =>
      obtain ⟨lists', added, memory'⟩ := memory.addToken (opened.names memory)
      have closed : LexMemory src deck old lists' entries s.close.lexemes s.close.tokens := by
        rw [Scan.lexemes_close]
        exact memory'
      refine ⟨_, done ++ [x], ?_, onward, .between closed rfl rfl position⟩
      obtain isQuote : x.2 = quote := isQuote
      simp [lexChar, isQuote, reading, inside, added, advance]
  | reads notQuote inside grown =>
      obtain ⟨lexeme, lists', entries', curLexeme, grow, memory', opened', recent⟩ :=
        sim.grow holds split grown
      have isReading : s'.reading = true := by
        obtain ⟨init, last, -, -, rfl⟩ := Scan.grow_eq_some grown
        exact inside
      refine ⟨⟨lists', some lexeme, true, srcIter, curChar⟩, done ++ [x], ?_, onward,
        ⟨entries', memory', opened'⟩, isReading.symm, position, recent⟩
      have other : x.2 ≠ quote := notQuote
      simp [lexChar, other, reading, inside, curLexeme, grow, advance]
  | blank notQuote outside white flushed =>
      obtain ⟨lists', flush, memory'⟩ :=
        flushOpen_refines holds.rep holds.bounded memory opened flushed
      obtain ⟨closed, same⟩ := Scan.current_flush flushed
      refine ⟨_, done ++ [x], ?_, onward, .between memory' closed (same.trans outside) position⟩
      have other : x.2 ≠ quote := notQuote
      have isWhite : lfIsWhitespace x.2 = true := white
      simp [lexChar, other, reading, outside, isWhite, flush, advance]
  | boundary notQuote outside notWhite hard flushed =>
      obtain ⟨lists', flush, memory'⟩ :=
        flushOpen_refines holds.rep holds.bounded memory opened flushed
      obtain ⟨closed, same⟩ := Scan.current_flush flushed
      obtain ⟨lists'', added, memory''⟩ := memory'.addToken (.unset _)
      refine ⟨_, done ++ [x], ?_, onward, .between memory'' closed (same.trans outside) position⟩
      have other : x.2 ≠ quote := notQuote
      have notSpace : lfIsWhitespace x.2 = false := notWhite
      have isHard : lfGetTokenTypeFromHardBoundaryLexeme x.2 ≠ .unknown := hard
      change lists'.addToken ⟨lfGetTokenTypeFromHardBoundaryLexeme x.2, none⟩ = _ at added
      simp [lexChar, other, reading, outside, notSpace, isHard, flush, added, advance]
  | starts plain outside closed =>
      obtain ⟨-, atChar, -⟩ := sim.current
      obtain ⟨lexeme, slice, value, lists', added, memory'⟩ :=
        memory.addLexeme holds.rep (holds.shows x inText)
      refine ⟨⟨lists', some lexeme, false, srcIter, curChar⟩, done ++ [x], ?_, onward,
        ⟨⟨_, memory', .inside _ _ _⟩, rfl, position, ?_⟩⟩
      · obtain ⟨other, notSpace, notHard⟩ : ordinary x.2 := plain
        rw [atChar] at advance
        have noLexeme : st.curLexeme = none := by
          rw [closed] at opened
          exact opened.closed
        simp [lexChar, other, reading, outside, notSpace, notHard, noLexeme, added, atChar, advance]
      · rintro chars same
        cases same
        exact ⟨done, rfl⟩
  | grows plain outside current grown =>
      obtain ⟨lexeme, lists', entries', curLexeme, grow, memory', opened', recent⟩ :=
        sim.grow holds split grown
      have notReading : s'.reading = false := by
        obtain ⟨init, last, -, -, rfl⟩ := Scan.grow_eq_some grown
        exact outside
      refine ⟨⟨lists', some lexeme, false, srcIter, curChar⟩, done ++ [x], ?_, onward,
        ⟨entries', memory', opened'⟩, notReading.symm, position, recent⟩
      obtain ⟨other, notSpace, notHard⟩ : ordinary x.2 := plain
      simp [lexChar, other, reading, outside, notSpace, notHard, curLexeme, grow, advance]

end Rounds

/-- At the first character nothing is scanned. -/
theorem Simulates.begins {src : LFString UInt8} {deck : Deck UInt8} {text : List Placed}
    (holds : src.Holds deck text) {lists : LexLists} {old : LexContents}
    (contains : lists.Contains old) : ∃ begin iter, lfInitStringIteration src = some (begin, iter) ∧
      Simulates src deck old [] text .empty ⟨lists, none, false, iter, some begin⟩ := by
  obtain ⟨x, rest, begins, init, path⟩ := holds.starts
  have nothing : LexMemory src deck old lists [] [] [] := by
    refine ⟨⟨[], ?_, .nil⟩, .nil, by simp⟩
    simpa using contains
  refine ⟨x.ptr, ⟨src, some x.1, x.2⟩, init,
    .between (show LexMemory src deck old lists [] Scan.empty.lexemes Scan.empty.tokens
      from nothing) rfl rfl ?_⟩
  rw [begins] at path ⊢
  exact .current path

/-- The lexer starts with nothing scanned. -/
theorem Simulates.start {src : LFString UInt8} {deck : Deck UInt8} {text : List Placed}
    (holds : src.Holds deck text) {lists : LexLists} {old : LexContents}
    (contains : lists.Contains old) : ∃ st, Simulates src deck old [] text .empty st ∧
      ∀ fuel, lfLex fuel lists src = (iterate (lexStep src) fuel st).bind (lexEnd src) := by
  obtain ⟨begin, iter, init, sim⟩ := Simulates.begins holds contains
  exact ⟨_, sim, fun fuel => by simp [lfLex, init]⟩

/-- **The lexer refines the scan.** Where the scan of the text of the source ends
under the layout of the source, the lexer ends, with the tokens and the lexemes
of the scan behind what the lists had. -/
theorem lfLex_refines {src : LFString UInt8} {deck : Deck UInt8} {text : List Placed}
    (holds : src.Holds deck text) {lists : LexLists} {old : LexContents}
    (contains : lists.Contains old) {result : Scan Placed}
    (scanned : scan (stored src.arena.blockSize) text .empty = some result) :
    ∃ fuel lists' entries, lfLex fuel lists src = some lists' ∧
      LexMemory src deck old lists' entries result.lexemes result.tokens := by
  have runs : ∀ done st, done ++ text = text → Simulates src deck old done text .empty st →
      ∃ last lists' entries, Returns (lexStep src) st last ∧ lexEnd src last = some lists' ∧
        LexMemory src deck old lists' entries result.lexemes result.tokens := by
    apply scan_induction (P := fun rest s => ∀ done st, done ++ rest = text →
      Simulates src deck old done rest s st →
      ∃ last lists' entries, Returns (lexStep src) st last ∧ lexEnd src last = some lists' ∧
        LexMemory src deck old lists' entries result.lexemes result.tokens) ?_ ?_ scanned
    · rintro s flushed flush rfl done st - sim
      obtain ⟨entries, memory, opened⟩ := sim.memory
      obtain ⟨lists₁, flush', memory₁⟩ :=
        flushOpen_refines holds.rep holds.bounded memory opened flush
      obtain ⟨lists', added, memory'⟩ := memory₁.addToken (.null .eof)
      have atEnd : st.curChar = none := by
        have position := sim.position
        generalize st.curChar = curChar at position
        generalize st.srcIter = srcIter at position
        cases position
        rfl
      refine ⟨st, lists', entries, Returns.of_done (by simp [lexStep, atEnd]), ?_, memory'⟩
      simp [lexEnd, flush', added]
    · intro x rest rest' s s' step ih done st split sim
      obtain ⟨st', done', stepped, split', sim'⟩ := lexStep_refines sim holds split step
      obtain ⟨last, lists', entries, returns, ends, memory⟩ := ih done' st' split' sim'
      exact ⟨last, lists', entries, Returns.of_next stepped returns, ends, memory⟩
  obtain ⟨st, start, lexed⟩ := Simulates.start holds contains
  obtain ⟨last, lists', entries, ⟨fuel, returns⟩, ends, memory⟩ := runs [] _ rfl start
  exact ⟨fuel, lists', entries, by simp [lexed, returns, ends], memory⟩

end LowFlow
