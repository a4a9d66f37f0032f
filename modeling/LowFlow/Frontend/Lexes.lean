import LowFlow.Frontend.LexSegments
import LowFlow.Frontend.ScanSeen
import LowFlow.Memory.Chunks
import LowFlow.Memory.ComparedText

/-!
# What the lexer makes of a text

The tokens of the lexer on a source in one block show what the scan of its text
shows (`lexes_iff`). Where the text ends with an opening quote, the lexer takes
the byte behind the text into the literal, and fails where the block has none.
-/

set_option autoImplicit false

namespace LowFlow

open Library

/-- What a token shows: its type, and the live bytes of its lexeme where that is set. -/
inductive Token.Shows (lists : LexLists) (src : LFString UInt8) (deck : Deck UInt8) :
    Token Ptr → Seen → Prop where
  | unset (type : TokenType) : Shows lists src deck ⟨type, none⟩ ⟨type, none⟩
  | null (type : TokenType) : Shows lists src deck ⟨type, some none⟩ ⟨type, none⟩
  | lexeme (type : TokenType) {ptr : Ptr} {str : LFString UInt8}
      (found : lists.string src ptr = some str) :
      Shows lists src deck ⟨type, some (some ptr)⟩ ⟨type, some (str.content deck)⟩

/-- The lexer returns, and the tokens that it appends show this. -/
def LFString.Lexes (src : LFString UInt8) (deck : Deck UInt8) (seen : List Seen) : Prop :=
  ∀ lists old, lists.Contains old → ∃ fuel lists' added, lfLex fuel lists src = some lists' ∧
    lists'.tokens.Values tokenSize (old.tokens ++ added) ∧
    List.Forall₂ (fun e shown => e.2.Shows lists' src deck shown) added seen

/-- A source in one block with this text. -/
structure LFString.Spells (src : LFString UInt8) (deck : Deck UInt8) (text : List UInt8) :
    Prop where
  built : src.Owned ∨ src.Backed
  rep : Represents src.arena deck
  single : ∃ p b, src.blocks deck = [(p, b)]
  content : src.content deck = text

/-- The byte behind the last character of a source, if its block has one there. -/
def LFString.behind (src : LFString UInt8) (deck : Deck UInt8) : Option UInt8 := do
  let (position, _) ← (src.text deck).getLast?
  loadChar src ⟨position.1, (position.2 + 1 : ℕ)⟩

/-- What the lexer reads of a source: its text, and the byte behind it where the
text ends with an opening quote. -/
def LFString.reads (src : LFString UInt8) (deck : Deck UInt8) : Option (List UInt8) :=
  let text := src.content deck
  if opensAtEnd false text then (src.behind deck).map fun c => text ++ [c] else some text

/-- Every text that fits is the text of a source in one block of this size. -/
theorem exists_spells {text : List UInt8} (nonempty : text ≠ []) {qtt : ℕ}
    (fits : text.length ≤ qtt) (small : qtt < sizeModulus) : ∃ src deck,
      LFString.Spells src deck text := by
  have positive : 0 < qtt := Nat.lt_of_lt_of_le (List.length_pos_of_ne_nil nonempty) fits
  obtain ⟨start, src, deck, -, -, owned, backing, -, rep, packed⟩ :=
    @LFString.storeChunks_of_init _ (.bump 0) qtt [text] positive small (by simp [nonempty, fits])
  have one : pack qtt [] [text] = [text] := by simp [pack, Nat.not_lt.mpr fits]
  obtain ⟨⟨p, b⟩, rfl, bytes⟩ := List.map_eq_singleton_iff.mp (packed.trans one)
  have blocks : src.blocks [(p, b)] = [(p, b)] := by simp [LFString.blocks, backing]
  refine ⟨src, [(p, b)], .inl owned, rep, ⟨p, b, blocks⟩, ?_⟩
  rw [LFString.content, LFString.text, blocks, Deck.chars_cons]
  exact (List.append_nil _).trans bytes

/-! ## The lexer does one thing -/

section Unique

variable {lists lists₁ lists₂ : LexLists} {src : LFString UInt8} {deck : Deck UInt8}

/-- More fuel changes nothing. -/
theorem lfLex_unique {fuel more : ℕ} (lexed : lfLex fuel lists src = some lists₁)
    (lexed' : lfLex more lists src = some lists₂) : lists₁ = lists₂ := by
  simp only [lfLex, Option.bind_eq_bind, Option.bind_eq_some_iff] at lexed lexed'
  obtain ⟨start, init, last, iterated, ends⟩ := lexed
  obtain ⟨start', init', last', iterated', ends'⟩ := lexed'
  obtain rfl := Option.some.inj (init.symm.trans init')
  have first : Returns (lexStep src) _ last := ⟨fuel, iterated⟩
  have second : Returns (lexStep src) _ last' := ⟨more, iterated'⟩
  obtain rfl := first.unique second
  exact Option.some.inj (ends.symm.trans ends')

theorem Token.Shows.unique {t : Token Ptr} {shown shown' : Seen}
    (shows : t.Shows lists src deck shown)
    (shows' : t.Shows lists src deck shown') : shown = shown' := by
  cases shows with
  | unset type =>
      cases shows'
      rfl
  | null type =>
      cases shows'
      rfl
  | lexeme type found =>
      cases shows' with
      | lexeme _ found' => rw [Option.some.inj (found.symm.trans found')]

/-- The lexer makes one sequence of tokens of a source. -/
theorem LFString.Lexes.unique {seen seen' : List Seen} (lexes : src.Lexes deck seen)
    (lexes' : src.Lexes deck seen') : seen = seen' := by
  obtain ⟨lists, -, -, -, contains⟩ := LexLists.of_init 4 (by decide) (by decide)
  obtain ⟨fuel, lists₁, added, lexed, values, shows⟩ := lexes lists _ contains
  obtain ⟨fuel', lists₂, added', lexed', values', shows'⟩ := lexes' lists _ contains
  obtain rfl := lfLex_unique lexed lexed'
  obtain rfl : added = added' := values.unique values'
  have one : Relator.RightUnique fun (e : Ptr × Token Ptr) shown =>
      e.2.Shows lists₁ src deck shown := by
    intro e shown shown' here here'
    exact here.unique here'
  exact List.right_unique_forall₂' one shows shows'

end Unique

/-! ## What the tokens show -/

section Showing

variable {src : LFString UInt8} {deck : Deck UInt8} {lists : LexLists} {contents : LexContents}
  {entries : List LexEntry} {lexemes : List (List Placed)}

/-- A token that names a lexeme of the lists shows the characters of the lexeme. -/
theorem Token.Names.shows {t : Token Ptr} {a : Token ℕ}
    (names : t.Names (entries.map LexEntry.lexeme) a) (contains : lists.Contains contents)
    (listed : ∀ e ∈ entries, e.string src.arena.blockSize ∈ contents.lexemes ∧
      e.range ∈ contents.slices)
    (live : entries.map (fun e => (e.value.cut deck).chars) = lexemes)
    (more : List (List UInt8)) :
    t.Shows lists src deck (a.seen (lexemes.map (List.map Prod.snd) ++ more)) := by
  cases names with
  | unset type => exact .unset type
  | null type => exact .null type
  | @lexeme type ptr k here =>
      rw [List.getElem?_map, Option.map_eq_some_iff] at here
      obtain ⟨e, found, rfl⟩ := here
      obtain ⟨inLexemes, inSlices⟩ := listed e (List.mem_of_getElem? found)
      have string : lists.string src e.lexeme =
          some ⟨src.arena, some e.value, src.arena.blockSize⟩ :=
        contains.string inLexemes inSlices
      have content : (lexemes.map (List.map Prod.snd) ++ more)[k]? =
          some ((e.value.cut deck).chars.map Prod.snd) := by
        rw [List.getElem?_append_left, ← live]
        · simp [found]
        · simpa [← live] using (List.getElem?_eq_some_iff.mp found).1
      change Token.Shows lists src deck _ ⟨type, (lexemes.map (List.map Prod.snd) ++ more)[k]?⟩
      rw [content]
      exact .lexeme type string

/-- What the tokens of the lexer show. -/
theorem LexMemory.tokens_show {old : LexContents} {tokens : List (Token ℕ)}
    (memory : LexMemory src deck old lists entries lexemes tokens)
    (rep : Represents src.arena deck) : ∃ added,
      lists.tokens.Values tokenSize (old.tokens ++ added) ∧
      List.Forall₂ (fun e shown => e.2.Shows lists src deck shown) added
        (tokens.map (Token.seen (lexemes.map (List.map Prod.snd)))) := by
  have live := memory.contents_eq rep
  obtain ⟨⟨elems, contains, names⟩, -, -⟩ := memory
  refine ⟨elems, contains.tokens, List.forall₂_map_right_iff.mpr (names.imp ?_)⟩
  intro e a named
  rw [← List.append_nil (lexemes.map _)]
  apply named.shows contains _ live
  intro entry member
  exact ⟨List.mem_append_right _ (List.mem_map_of_mem member),
    List.mem_append_right _ (List.mem_map_of_mem member)⟩

end Showing

/-! ## A text that does not end with an opening quote -/

section Reading

variable {src : LFString UInt8} {deck : Deck UInt8} {text : List UInt8} {seen : List Seen}

theorem LFString.Spells.holds (spells : src.Spells deck text) (nonempty : text ≠ []) :
    src.Holds deck (src.text deck) ∧ ∃ p, ∀ x ∈ src.text deck, x.1.1 = p := by
  obtain ⟨p, b, single⟩ := spells.single
  have some : src.text deck ≠ [] := by
    intro empty
    apply nonempty
    rw [← spells.content, LFString.content, empty]
    rfl
  obtain ⟨holds, inBlock⟩ := LFString.holds_block spells.built spells.rep single some
  exact ⟨holds, p, inBlock⟩

/-- The tokens of the lexer show what the scan shows. -/
theorem LFString.Holds.lexes {chars : List Placed} (holds : src.Holds deck chars)
    {result : Scan Placed}
    (scanned : scan (stored src.arena.blockSize) chars .empty = some result) :
    src.Lexes deck (result.map Prod.snd).seen := by
  intro lists old contains
  obtain ⟨fuel, lists', entries, lexed, memory⟩ := lfLex_refines holds contains scanned
  obtain ⟨added, values, shows⟩ := memory.tokens_show holds.rep
  refine ⟨fuel, lists', added, lexed, values, ?_⟩
  have past : result.lexemes = result.past := by
    simp [Scan.lexemes, scan_current scanned]
  rw [past] at shows
  exact shows

/-- A source in one block is scanned unless its text ends with an opening quote. -/
theorem LFString.Spells.scanned (spells : src.Spells deck text) (nonempty : text ≠ [])
    (closed : opensAtEnd false text = false) : src.Holds deck (src.text deck) ∧
    ∃ result, scan (stored src.arena.blockSize) (src.text deck) .empty = some result ∧
      scan .free text .empty = some (result.map Prod.snd) := by
  obtain ⟨holds, p, inBlock⟩ := spells.holds nonempty
  have spelled : (src.text deck).map (stored src.arena.blockSize).char = text := spells.content
  obtain ⟨result, scanned⟩ := scan_lets (stored_lets src.arena.blockSize p)
    (Scan.ready_empty (P := fun x : Placed => x.1.1 = p)) inBlock (spelled ▸ closed)
  have free := scan_free scanned
  rw [spelled] at free
  exact ⟨holds, result, scanned, free⟩

theorem lexes_of_closed (spells : src.Spells deck text) (nonempty : text ≠ [])
    (closed : opensAtEnd false text = false) :
    ∃ result, scan .free text .empty = some result ∧ src.Lexes deck result.seen := by
  obtain ⟨holds, result, scanned, free⟩ := spells.scanned nonempty closed
  exact ⟨_, free, holds.lexes scanned⟩

end Reading

/-! ## A text that ends with an opening quote -/

section Dangling

variable {src : LFString UInt8} {deck : Deck UInt8} {old : LexContents}
  {text done rest : List Placed} {s : Scan Placed} {st : LexState} {x : Placed}

/-- The rounds of the loop up to an opening quote that ends the text. -/
theorem Simulates.to_last_quote {p : BlockPtr} (holds : src.Holds deck text)
    (inBlock : ∀ x ∈ text, x.1.1 = p) (sim : Simulates src deck old done rest s st)
    (split : done ++ rest = text) (ready : s.Ready fun x => x.1.1 = p)
    (opens : opensAtEnd s.reading (rest.map Prod.snd) = true) :
    ∃ done' x s' st', done' ++ [x] = text ∧ Simulates src deck old done' [x] s' st' ∧
      x.2 = quote ∧ s'.reading = false ∧
      (∀ last, Returns (lexStep src) st last ↔ Returns (lexStep src) st' last) ∧
      ∀ c, scan .free (rest.map Prod.snd ++ [c]) (s.map Prod.snd) =
        scan .free [quote, c] (s'.map Prod.snd) := by
  induction length : rest.length using Nat.strong_induction_on generalizing rest done s st with
  | _ n ih =>
      cases rest with
      | nil => simp [opensAtEnd] at opens
      | cons x rest =>
          by_cases last : x.2 = quote ∧ s.reading = false ∧ rest = []
          · obtain ⟨isQuote, outside, rfl⟩ := last
            refine ⟨done, x, s, st, split, sim, isQuote, outside, fun last => Iff.rfl, ?_⟩
            intro c
            simp [isQuote]
          · have all : ∀ z ∈ x :: rest, z.1.1 = p := by
              intro z member
              exact inBlock z (split ▸ List.mem_append_right done member)
            obtain ⟨rest', s', step⟩ :=
              ScanStep.exists_of_lets (stored_lets src.arena.blockSize p) ready all
                (fun isQuote outside empty => last ⟨isQuote, outside, empty⟩)
            obtain ⟨ready', -⟩ := step.ready ready all
            obtain ⟨st', done', next, split', sim'⟩ := lexStep_refines sim holds split step
            have shorter := step.length_le
            have onward : opensAtEnd s.reading ((x :: rest).map Prod.snd) =
                opensAtEnd s'.reading (rest'.map Prod.snd) := step.opensAtEnd_eq
            obtain ⟨done'', y, s'', st'', ends, sim'', isQuote, outside, rounds, scans⟩ :=
              ih rest'.length (by simp at length; omega) sim' split' ready' (onward ▸ opens) rfl
            refine ⟨done'', y, s'', st'', ends, sim'', isQuote, outside,
              fun t => (Returns.next_iff next).trans (rounds t), ?_⟩
            intro c
            rw [← scans c]
            exact (step.free.append [c]).scan_eq

/-- At the last position the iterator ends. -/
theorem LFString.Path.ends {y : Position} (path : src.Path [y]) :
    lfIterateString ⟨src, some y.1, y.2⟩ = some (none, ⟨src, none, y.2⟩) := by
  cases path with
  | last ends => exact ends

/-- At an opening quote that ends the text, the byte behind it becomes the literal. -/
theorem Simulates.last_quote (holds : src.Holds deck text)
    (sim : Simulates src deck old done [x] s st) (split : done ++ [x] = text)
    (isQuote : x.2 = quote) (outside : s.reading = false) :
    ∃ (elems : List (Ptr × Token Ptr)) (entries : List LexEntry) (lexeme slice : Ptr)
      (lists : LexLists),
      List.Forall₂ (fun e a => Token.Names (entries.map LexEntry.lexeme) e.2 a) elems s.tokens ∧
      entries.map (fun e => (e.value.cut deck).chars) = s.lexemes ∧
      lists.Contains ⟨old.tokens ++ elems,
        old.lexemes ++ entries.map (LexEntry.string src.arena.blockSize) ++
          [(lexeme, ⟨slice, src.arena.blockSize⟩)],
        old.slices ++ entries.map LexEntry.range ++
          [(slice, ⟨some x.1.1, some x.1.1, x.1.2 + 1, x.1.2 + 2, 1⟩)]⟩ ∧
      Returns (lexStep src) st ⟨lists, some lexeme, true, ⟨src, none, x.1.2⟩, none⟩ ∧
      lfFlushLexeme src lists lexeme =
        (loadChar src ⟨x.1.1, (x.1.2 + 1 : ℕ)⟩).bind fun c =>
          lists.addToken ⟨charType c, some none⟩ := by
  have inText : x ∈ text := by simp [← split]
  have round := sim.round holds inText
  obtain ⟨-, atQuote, path⟩ := sim.current
  obtain ⟨entries, memory, -⟩ := sim.memory
  have live := memory.contents_eq holds.rep
  obtain ⟨⟨elems, contains, names⟩, -, -⟩ := memory
  obtain ⟨b, inDeck, -⟩ := holds.shows x inText
  obtain ⟨node, found, rfl⟩ := holds.rep.lookup inDeck
  have width : node.size = src.arena.blockSize := holds.rep.sized _ inDeck
  obtain ⟨lexeme, slice, lists, added, contains'⟩ := contains.addLexeme found width (x.1.2 + 1)
  have string : lists.string src lexeme =
      some ⟨src.arena, some ⟨some x.1.1, some x.1.1, x.1.2 + 1, x.1.2 + 2, 1⟩,
        src.arena.blockSize⟩ :=
    contains'.string (List.mem_append_right _ (List.mem_singleton_self _))
      (List.mem_append_right _ (List.mem_singleton_self _))
  refine ⟨elems, entries, lexeme, slice, lists, names, live, contains', ?_, ?_⟩
  · have ends : lfIterateString ⟨src, some x.1.1, x.1.2⟩ =
        some (none, ⟨src, none, x.1.2⟩) := path.ends
    have again : lfIterateString ⟨src, none, x.1.2⟩ = some (none, ⟨src, none, x.1.2⟩) := rfl
    have next : lexStep src st =
        some (.inl ⟨lists, some lexeme, true, ⟨src, none, x.1.2⟩, none⟩) := by
      rw [round]
      simp [lexChar, isQuote, sim.reading, outside, atQuote, added, ends, again]
    exact Returns.of_next next (Returns.of_done rfl)
  · simp [lfFlushLexeme, string, lfGetStringSize, lfInitStringIteration, LFString.headBorder,
      StringIteration.ptr, found, charType]

/-- The scan of an opening quote and one character. -/
theorem scan_last_quote {t : Scan UInt8} (outside : t.reading = false) (c : UInt8) :
    scan .free [quote, c] t = some ⟨t.tokens ++ [⟨charType c, some none⟩, ⟨.eof, some none⟩],
      t.lexemes ++ [[c]], none, true⟩ := by
  simp [scan, outside, Layout.free, Scan.start, Scan.flush, Scan.emit, Scan.lexemes, lexemeToken]

/-- The lexer takes the byte behind the text into the literal, and fails when the
block has none there. -/
theorem lfLex_open {text : List UInt8} (spells : src.Spells deck text)
    (opens : opensAtEnd false text = true) {lists : LexLists} (contains : lists.Contains old) :
    (src.behind deck = none → ∀ fuel, lfLex fuel lists src = none) ∧
    ∀ c, src.behind deck = some c → ∃ result fuel lists' added,
      scan .free (text ++ [c]) .empty = some result ∧ lfLex fuel lists src = some lists' ∧
      lists'.tokens.Values tokenSize (old.tokens ++ added) ∧
      List.Forall₂ (fun e shown => e.2.Shows lists' src deck shown) added result.seen := by
  have nonempty : text ≠ [] := by
    rintro rfl
    cases opens
  obtain ⟨holds, p, inBlock⟩ := spells.holds nonempty
  have spelled : (src.text deck).map Prod.snd = text := spells.content
  obtain ⟨st, start, lexed⟩ := Simulates.start holds contains
  obtain ⟨done, x, s, st', split, sim, isQuote, outside, rounds, scans⟩ :=
    start.to_last_quote holds inBlock rfl Scan.ready_empty (spelled.symm ▸ opens)
  have behind : src.behind deck = loadChar src ⟨x.1.1, (x.1.2 + 1 : ℕ)⟩ := by
    simp [LFString.behind, ← split]
  obtain ⟨elems, entries, lexeme, slice, lists₁, names, live, contains₁, returns, flushed⟩ :=
    sim.last_quote holds split isQuote outside
  rw [← behind] at flushed
  constructor
  · intro nothing fuel
    rw [nothing] at flushed
    rw [lexed, Option.bind_eq_none_iff]
    intro last iterated
    obtain rfl := ((rounds last).mp ⟨fuel, iterated⟩).unique returns
    simp [lexEnd, flushOpen, flushed]
  · intro c here
    rw [here, Option.bind_some] at flushed
    obtain ⟨ptr, lists₂, added, contains₂⟩ := contains₁.addToken ⟨charType c, some none⟩
    obtain ⟨ptr', lists', added', contains'⟩ := contains₂.addToken ⟨.eof, some none⟩
    obtain ⟨fuel, iterated⟩ := (rounds _).mpr returns
    have scanned := scans c
    rw [spelled, scan_last_quote (t := s.map Prod.snd) outside] at scanned
    refine ⟨_, fuel, lists', elems ++ [(ptr, ⟨charType c, some none⟩), (ptr', ⟨.eof, some none⟩)],
      scanned, ?_, ?_, ?_⟩
    · simp [lexed, iterated, lexEnd, flushOpen, flushed, added, added']
    · simpa using contains'.tokens
    · have lexemes : (s.map Prod.snd).lexemes = s.lexemes.map (List.map Prod.snd) := by
        cases current : s.current <;> simp [Scan.lexemes, Scan.map, current]
      rw [Scan.seen, List.map_append, lexemes]
      apply List.rel_append (List.forall₂_map_right_iff.mpr (names.imp ?_))
        (.cons (.null (charType c)) (.cons (.null .eof) .nil))
      intro e a named
      apply named.shows contains' _ live
      intro entry member
      have inLexemes := List.mem_map_of_mem (f := LexEntry.string src.arena.blockSize) member
      have inSlices := List.mem_map_of_mem (f := LexEntry.range) member
      exact ⟨by simp [inLexemes], by simp [inSlices]⟩

/-- **What the lexer makes of a source in one block** is what the scan shows of what
the lexer reads. -/
theorem lexes_iff {text : List UInt8} {seen : List Seen} (spells : src.Spells deck text)
    (nonempty : text ≠ []) : src.Lexes deck seen ↔
      ∃ read result, src.reads deck = some read ∧ scan .free read .empty = some result ∧
        result.seen = seen := by
  have lexes : ∀ read, src.reads deck = some read →
      ∃ result, scan .free read .empty = some result ∧ src.Lexes deck result.seen := by
    intro read reads
    simp only [LFString.reads, spells.content] at reads
    split at reads
    · rename_i opens
      obtain ⟨c, here, rfl⟩ := Option.map_eq_some_iff.mp reads
      obtain ⟨lists, -, -, -, contains⟩ := LexLists.of_init 4 (by decide) (by decide)
      obtain ⟨result, -, -, -, scanned, -⟩ := (lfLex_open spells opens contains).2 c here
      refine ⟨result, scanned, ?_⟩
      intro lists old contains
      obtain ⟨other, fuel, lists', added, scanned', lexed⟩ :=
        (lfLex_open spells opens contains).2 c here
      obtain rfl := Option.some.inj (scanned.symm.trans scanned')
      exact ⟨fuel, lists', added, lexed⟩
    · rename_i closed
      cases reads
      exact lexes_of_closed spells nonempty (by simpa using closed)
  constructor
  · intro shown
    cases reads : src.reads deck with
    | none =>
        exfalso
        simp only [LFString.reads, spells.content] at reads
        split at reads
        · rename_i opens
          have nothing := Option.map_eq_none_iff.mp reads
          obtain ⟨lists, -, -, -, contains⟩ := LexLists.of_init 4 (by decide) (by decide)
          obtain ⟨fuel, lists', -, lexed, -⟩ := shown lists _ contains
          rw [(lfLex_open spells opens contains).1 nothing fuel] at lexed
          cases lexed
        · cases reads
    | some read =>
        obtain ⟨result, scanned, shown'⟩ := lexes read reads
        exact ⟨read, result, rfl, scanned, shown'.unique shown⟩
  · rintro ⟨read, result, reads, scanned, rfl⟩
    obtain ⟨result', scanned', shown⟩ := lexes read reads
    obtain rfl := Option.some.inj (scanned.symm.trans scanned')
    exact shown

end Dangling

end LowFlow
