import LowFlow.Frontend.Lexes

/-!
# Literals in a text

What the lexer makes of quoted literals. A literal that is not empty becomes one
token, wherever it is outside of another one, and the scan goes on behind it as
it would from the start; an empty one takes its closing quote for a character,
and no token shows it (`lfLex_literals_iff`). A run that is open in front of a
literal is lost (`lfLex_split_iff`).
-/

set_option autoImplicit false

namespace LowFlow

/-- A literal in quotes. -/
def quoted (chars : List UInt8) : List UInt8 := quote :: (chars ++ [quote])

/-- What the token of a literal shows. -/
def literalSeen (chars : List UInt8) : Seen := ⟨.str, some chars⟩

/-- What the last token shows. -/
def eofSeen : Seen := ⟨.eof, none⟩

/-- Quoted literals, each behind some white space. -/
def literals (words : List (List UInt8 × List UInt8)) : List UInt8 :=
  words.flatMap fun (blank, chars) => blank ++ quoted chars

/-! ## Parts of a scan -/

/-- The scan is outside of a literal, and can go on. -/
structure Scan.Outside (s : Scan UInt8) : Prop where
  outside : s.reading = false
  ready : s.Ready fun _ => True
  sound : s.Sound

theorem Scan.outside_empty : Scan.Outside Scan.empty :=
  ⟨rfl, Scan.ready_empty, Scan.sound_empty⟩

theorem Layout.free_lets : Layout.Lets .free fun _ => True := by
  constructor
  · intro x y _ _
    rfl
  · intro x y _ _
    rfl
  · intro chars _
    rfl

section Parts

variable {s : Scan UInt8} {chars : List UInt8}

/-- A character that is no quote leaves the scan outside of a literal, with a lexeme
open if it belongs to a run. -/
theorem Scan.Outside.other (outside : s.Outside) {c : UInt8} (other : c ≠ quote) :
    ∃ s', s'.Outside ∧ (s'.current = none ↔ ¬ ordinary c) ∧
      ∀ rest, scan .free (c :: rest) s = scan .free rest s' := by
  obtain ⟨rest', s', step⟩ : ∃ rest' s', ScanStep .free s c [] rest' s' :=
    ScanStep.exists_of_lets Layout.free_lets outside.ready (fun _ _ => trivial)
      (fun isQuote => absurd isQuote other)
  obtain rfl : rest' = [] := List.length_eq_zero_iff.mp (Nat.le_zero.mp step.length_le)
  obtain ⟨-, -, -, -, -, sound, -⟩ := step.again rfl rfl outside.sound outside.sound
  have after : s'.reading = false ∧ (s'.current = none ↔ ¬ ordinary c) := by
    cases step with
    | closes isQuote => exact absurd isQuote other
    | reads _ inside => exact absurd (outside.outside.symm.trans inside) Bool.false_ne_true
    | blank _ _ white flushed =>
        obtain ⟨closed, same⟩ := Scan.current_flush flushed
        have notPlain : ¬ ordinary c := fun plain =>
          Bool.false_ne_true (plain.2.1.symm.trans white)
        exact ⟨same.trans outside.outside, by simp [closed, notPlain]⟩
    | boundary _ _ _ hard flushed =>
        obtain ⟨closed, same⟩ := Scan.current_flush flushed
        have notPlain : ¬ ordinary c := fun plain => hard plain.2.2
        exact ⟨same.trans outside.outside, by simp [Scan.emit, closed, notPlain]⟩
    | starts plain =>
        have isPlain : ordinary c := plain
        exact ⟨rfl, by simp [Scan.start, isPlain]⟩
    | grows plain _ _ grown =>
        obtain ⟨init, last, -, -, rfl⟩ := Scan.grow_eq_some grown
        have isPlain : ordinary c := plain
        exact ⟨outside.outside, by simp [isPlain]⟩
  exact ⟨s', ⟨after.1, (step.ready outside.ready fun _ _ => trivial).1, sound⟩, after.2,
    fun rest => (step.append rest).scan_eq⟩

/-- A part without quotes leaves the scan outside of a literal. -/
theorem scan_quoteFree {part : List UInt8} (outside : s.Outside) (closed : s.current = none)
    (free : quote ∉ part) :
    ∃ s', s'.Outside ∧ (s'.current = none ↔ ∀ c ∈ part.getLast?, ¬ ordinary c) ∧
      ∀ rest, scan .free (part ++ rest) s = scan .free rest s' := by
  induction part using List.reverseRecOn with
  | nil => exact ⟨s, outside, by simp [closed], fun rest => rfl⟩
  | append_singleton part c ih =>
      simp only [List.mem_append, List.mem_singleton, not_or] at free
      obtain ⟨s₁, outside₁, -, scans⟩ := ih free.1
      obtain ⟨s', outside', closed', scans'⟩ := outside₁.other (Ne.symm free.2)
      refine ⟨s', outside', by simpa using closed', ?_⟩
      intro rest
      rw [List.append_assoc, scans, List.singleton_append, scans']

/-- White space in front of a literal is skipped. -/
theorem scan_white {blank : List UInt8} (outside : s.Outside) (closed : s.current = none)
    (white : ∀ c ∈ blank, lfIsWhitespace c = true) (rest : List UInt8) :
    scan .free (blank ++ rest) s = scan .free rest s := by
  induction blank with
  | nil => rfl
  | cons c blank ih =>
      obtain ⟨here, white⟩ := List.forall_mem_cons.mp white
      have step : ScanStep .free s c (blank ++ rest) (blank ++ rest) s :=
        .blank (not_quote_of_white here) outside.outside here (by simp [Scan.flush, closed])
      exact step.scan_eq.trans (ih white)

/-- Inside of a literal the characters are read into it. -/
theorem scan_inside {more : List UInt8} (inside : s.reading = true) (open' : s.current = some chars)
    (nonempty : chars ≠ []) (free : quote ∉ more) (rest : List UInt8) :
    scan .free (more ++ rest) s = scan .free rest { s with current := some (chars ++ more) } := by
  induction more generalizing s chars with
  | nil => simp [← open']
  | cons c more ih =>
      simp only [List.mem_cons, not_or] at free
      have grown : s.grow .free c = some { s with current := some (chars ++ [c]) } :=
        Scan.grow_lets Layout.free_lets open' nonempty (fun _ _ => trivial) trivial
      have step : ScanStep .free s c (more ++ rest) (more ++ rest) _ :=
        .reads (Ne.symm free.1) inside grown
      have onward := ih (s := { s with current := some (chars ++ [c]) }) inside rfl (by simp) free.2
      rw [List.cons_append, step.scan_eq, onward]
      simp

/-- A literal that is not empty becomes a token. -/
theorem scan_literal (outside : s.Outside) (nonempty : chars ≠ []) (free : quote ∉ chars) :
    ∃ s', s'.Outside ∧ s'.current = none ∧ s'.seen = s.seen ++ [literalSeen chars] ∧
      ∀ rest, scan .free (quoted chars ++ rest) s = scan .free rest s' := by
  obtain ⟨first, more, rfl⟩ := List.exists_cons_of_ne_nil nonempty
  simp only [List.mem_cons, not_or] at free
  obtain ⟨started, sound⟩ := Scan.seen_start outside.sound first true
  let full : Scan UInt8 := { s.start first true with current := some (first :: more) }
  have same : full.seen = (s.start first true).seen := rfl
  obtain ⟨closed, sound'⟩ := Scan.seen_close (s := full) sound
  refine ⟨full.close, ⟨rfl, .of_closed rfl rfl, sound'⟩, rfl, ?_, ?_⟩
  · rw [closed, same, started]
    rfl
  · intro rest
    have opens : ScanStep .free s quote (first :: (more ++ quote :: rest)) (more ++ quote :: rest)
        (s.start first true) := .opens rfl outside.outside rfl
    have closes : ScanStep .free full quote rest rest full.close := .closes rfl rfl
    have split : quoted (first :: more) ++ rest = quote :: first :: (more ++ quote :: rest) := by
      simp [quoted]
    rw [split, opens.scan_eq, scan_inside rfl rfl (by simp) free.2, ← closes.scan_eq]
    rfl

/-- A literal that is read has a character, so the next token does not show an
empty one. -/
theorem scan_reading {text : List UInt8} {result : Scan UInt8} (sound : s.Sound)
    (inside : s.reading = true) (open' : s.current = some chars) (nonempty : chars ≠ [])
    (scanned : scan .free text s = some result) :
    ∃ first more, result.seen = s.seen ++ first :: more ∧ first ≠ literalSeen [] := by
  induction text generalizing s chars with
  | nil =>
      obtain ⟨s₁, flushed, seen, sound₁⟩ := Scan.seen_flush sound
      obtain ⟨emitted, -⟩ := Scan.seen_emit sound₁ .eof (some none) rfl
      simp only [scan, flushed, Option.map_some, Option.some.injEq] at scanned
      refine ⟨lexemeSeen chars, [⟨.eof, none⟩], ?_, ?_⟩
      · rw [← scanned, emitted, seen, open']
        simp
      · intro same
        have content := congrArg Seen.content same
        simp only [lexemeSeen, literalSeen] at content
        split_ifs at content
        exact nonempty (Option.some.inj content)
  | cons c text ih =>
      obtain ⟨rest, s', step, onward⟩ := scan_cons_iff.mp scanned
      have notOutside : s.reading ≠ false := by simp [inside]
      cases step with
      | closes =>
          obtain ⟨seen, sound'⟩ := Scan.seen_close sound
          obtain ⟨-, added, -, extended, -⟩ := scan_adds onward sound' _ rfl rfl sound'
          refine ⟨⟨.str, s.current⟩, added, ?_, ?_⟩
          · rw [extended, seen, List.append_assoc]
            rfl
          · rw [open']
            intro same
            exact nonempty (Option.some.inj (congrArg Seen.content same))
      | reads _ _ grown =>
          obtain ⟨init, last, -, -, rfl⟩ := Scan.grow_eq_some grown
          exact ih (s := { s with current := some (init ++ [last] ++ [c]) }) sound inside rfl
            (by simp) onward
      | opens _ outside => exact absurd outside notOutside
      | blank _ outside => exact absurd outside notOutside
      | boundary _ outside => exact absurd outside notOutside
      | starts _ outside => exact absurd outside notOutside
      | grows _ outside => exact absurd outside notOutside

/-- At the end the open lexeme becomes a token, and the last token comes. -/
theorem scan_nil (sound : s.Sound) : ∃ result, scan .free [] s = some result ∧
    result.seen = s.seen ++ s.current.toList.map lexemeSeen ++ [eofSeen] := by
  obtain ⟨s₁, flushed, seen, sound₁⟩ := Scan.seen_flush sound
  obtain ⟨emitted, -⟩ := Scan.seen_emit sound₁ .eof (some none) rfl
  refine ⟨s₁.emit ⟨.eof, some none⟩, by simp [scan, flushed], ?_⟩
  rw [emitted, seen]
  rfl

end Parts

/-! ## Texts of literals -/

section Words

variable {words : List (List UInt8 × List UInt8)}

/-- The words are free of quotes, behind white space. -/
def Quotable (words : List (List UInt8 × List UInt8)) : Prop :=
  ∀ word ∈ words, (∀ c ∈ word.1, lfIsWhitespace c = true) ∧ quote ∉ word.2

theorem literals_cons (word : List UInt8 × List UInt8) (words : List (List UInt8 × List UInt8)) :
    literals (word :: words) = word.1 ++ (quoted word.2 ++ literals words) := by
  simp [literals]

/-- Literals that are not empty become one token each. -/
theorem scan_literals {s : Scan UInt8} (outside : s.Outside) (closed : s.current = none)
    (quotable : Quotable words) (nonempty : ∀ word ∈ words, word.2 ≠ []) :
    ∃ s', s'.Outside ∧ s'.current = none ∧
      s'.seen = s.seen ++ words.map (fun word => literalSeen word.2) ∧
      ∀ rest, scan .free (literals words ++ rest) s = scan .free rest s' := by
  induction words generalizing s with
  | nil => exact ⟨s, outside, closed, by simp, fun rest => rfl⟩
  | cons word words ih =>
      obtain ⟨⟨white, free⟩, quotable⟩ := List.forall_mem_cons.mp quotable
      obtain ⟨here, nonempty⟩ := List.forall_mem_cons.mp nonempty
      obtain ⟨s₁, outside₁, closed₁, seen₁, scans₁⟩ := scan_literal outside here free
      obtain ⟨s', outside', closed', seen', scans'⟩ := ih outside₁ closed₁ quotable nonempty
      refine ⟨s', outside', closed', ?_, ?_⟩
      · rw [seen', seen₁, List.append_assoc]
        rfl
      · intro rest
        rw [literals_cons, List.append_assoc, List.append_assoc, scan_white outside closed white,
          scans₁, scans']

/-- Quotes that come in pairs leave what follows as it is. -/
theorem opensAtEnd_quoteFree {part : List UInt8} (free : quote ∉ part) (reading : Bool)
    (rest : List UInt8) : opensAtEnd reading (part ++ rest) = opensAtEnd reading rest := by
  induction part with
  | nil => rfl
  | cons c part ih =>
      simp only [List.mem_cons, not_or] at free
      rw [List.cons_append, opensAtEnd_other (Ne.symm free.1), ih free.2]

theorem opensAtEnd_quoted {chars : List UInt8} (nonempty : chars ≠ []) (free : quote ∉ chars)
    (rest : List UInt8) : opensAtEnd false (quoted chars ++ rest) = opensAtEnd false rest := by
  obtain ⟨first, more, rfl⟩ := List.exists_cons_of_ne_nil nonempty
  simp only [List.mem_cons, not_or] at free
  have split : quoted (first :: more) ++ rest = quote :: first :: (more ++ quote :: rest) := by
    simp [quoted]
  have closing : opensAtEnd true (quote :: rest) = opensAtEnd false rest := by simp [opensAtEnd]
  rw [split, opensAtEnd, if_pos rfl, opensAtEnd_quoteFree free.2, closing]

theorem opensAtEnd_literals (quotable : Quotable words) (nonempty : ∀ word ∈ words, word.2 ≠ []) :
    opensAtEnd false (literals words) = false := by
  induction words with
  | nil => rfl
  | cons word words ih =>
      obtain ⟨⟨white, free⟩, quotable⟩ := List.forall_mem_cons.mp quotable
      obtain ⟨here, nonempty⟩ := List.forall_mem_cons.mp nonempty
      have noQuote : quote ∉ word.1 := fun member => not_quote_of_white (white _ member) rfl
      rw [literals_cons, opensAtEnd_quoteFree noQuote, opensAtEnd_quoted here free]
      exact ih quotable nonempty

end Words

/-- What the lexer reads of a source starts with its text. -/
theorem LFString.Spells.reads {src : LFString UInt8} {deck : Deck UInt8} {text read : List UInt8}
    (spells : src.Spells deck text) (reads : src.reads deck = some read) :
    opensAtEnd false text = false ∧ read = text ∨
      opensAtEnd false text = true ∧ ∃ c, src.behind deck = some c ∧ read = text ++ [c] := by
  simp only [LFString.reads, spells.content] at reads
  split at reads
  · rename_i opens
    obtain ⟨c, here, rfl⟩ := Option.map_eq_some_iff.mp reads
    exact .inr ⟨opens, c, here, rfl⟩
  · rename_i closed
    exact .inl ⟨by simpa using closed, (Option.some.inj reads).symm⟩

/-- **Literals round-trip** exactly where none of them is empty: the lexer makes one
token of each of them, which shows its characters, and then the last token. -/
theorem lfLex_literals_iff (words : List (List UInt8 × List UInt8)) (some : words ≠ [])
    (quotable : Quotable words) (src : LFString UInt8) (deck : Deck UInt8)
    (spells : src.Spells deck (literals words)) :
    src.Lexes deck (words.map (fun word => literalSeen word.2) ++ [eofSeen]) ↔
      ∀ word ∈ words, word.2 ≠ [] := by
  have nonempty : literals words ≠ [] := by
    obtain ⟨word, others, rfl⟩ := List.exists_cons_of_ne_nil some
    simp [literals_cons, quoted]
  rw [lexes_iff spells nonempty]
  constructor
  · rintro ⟨read, result, reads, scanned, shown⟩
    obtain ⟨tail, rfl⟩ : ∃ tail, read = literals words ++ tail := by
      rcases spells.reads reads with ⟨-, rfl⟩ | ⟨-, c, -, rfl⟩
      · exact ⟨[], (List.append_nil _).symm⟩
      · exact ⟨[c], rfl⟩
    by_contra anEmpty
    -- the first empty literal, and those in front of it
    obtain ⟨front, back, rfl, filled, stops⟩ :=
      exists_stops (fun word : List UInt8 × List UInt8 => word.2 ≠ []) words
    cases back with
    | nil => exact anEmpty (by simpa using filled)
    | cons word back =>
        obtain ⟨blank, chars⟩ := word
        obtain rfl : chars = [] := by simpa using stops
        obtain ⟨quotableFront, quotableBack⟩ := List.forall_mem_append.mp quotable
        obtain ⟨white, -⟩ := quotableBack _ (List.mem_cons_self ..)
        obtain ⟨s, outside, closed, seen, scans⟩ :=
          scan_literals Scan.outside_empty rfl quotableFront filled
        have opens : ScanStep .free s quote (quote :: (literals back ++ tail))
            (literals back ++ tail) (s.start quote true) := .opens rfl outside.outside rfl
        have split : literals (front ++ (blank, []) :: back) ++ tail =
            literals front ++ (blank ++ quote :: quote :: (literals back ++ tail)) := by
          simp [literals, quoted]
        rw [split, scans, scan_white outside closed white, opens.scan_eq] at scanned
        obtain ⟨started, sound⟩ := Scan.seen_start outside.sound quote true
        obtain ⟨first, more, ends, notEmpty⟩ :=
          scan_reading sound rfl rfl (List.cons_ne_nil _ _) scanned
        rw [ends, started, seen, List.map_append, List.append_assoc, List.append_assoc] at shown
        exact notEmpty (List.cons.inj (List.append_cancel_left shown)).1
  · intro filled
    obtain ⟨s, outside, closed, seen, scans⟩ :=
      scan_literals Scan.outside_empty rfl quotable filled
    obtain ⟨result, scanned, ends⟩ := scan_nil outside.sound
    rw [← scans, List.append_nil] at scanned
    refine ⟨literals words, result, ?_, scanned, ?_⟩
    · simp [LFString.reads, spells.content, opensAtEnd_literals quotable filled]
    · rw [ends, seen, closed]
      simp [Scan.seen, Scan.empty]

/-- The literals `"a"` and `"b "`. -/
theorem lfLex_literals_two : ∃ (src : LFString UInt8) (deck : Deck UInt8),
    src.Spells deck (literals [([], [97]), ([32], [98, 32])]) ∧
    (src.Lexes deck [literalSeen [97], literalSeen [98, 32], eofSeen] ↔
      ∀ word ∈ [(([] : List UInt8), ([97] : List UInt8)), ([32], [98, 32])], word.2 ≠ []) := by
  let words : List (List UInt8 × List UInt8) := [([], [97]), ([32], [98, 32])]
  obtain ⟨src, deck, spells⟩ :=
    @exists_spells (literals words) (List.cons_ne_nil _ _) 16 (by decide)
    (by decide)
  have quotable : Quotable words := by simp [Quotable, words, quote, lfIsWhitespace]
  exact ⟨src, deck, spells,
    lfLex_literals_iff words (List.cons_ne_nil _ _) quotable src deck spells⟩

/-- The literal `""`: the lexer makes an unknown token of its closing quote. -/
theorem lexes_empty_literal : ∃ (src : LFString UInt8) (deck : Deck UInt8),
    src.Spells deck (literals [([], [])]) ∧ src.Lexes deck [⟨.unknown, none⟩, eofSeen] ∧
    ¬ src.Lexes deck [literalSeen [], eofSeen] := by
  obtain ⟨src, deck, spells⟩ := @exists_spells (literals [([], [])]) (List.cons_ne_nil _ _) 16
    (by decide) (by decide)
  have lexes : src.Lexes deck [⟨.unknown, none⟩, eofSeen] := by
    rw [lexes_iff spells (List.cons_ne_nil _ _)]
    refine ⟨[34, 34], ⟨_, _, _, _⟩, ?_, rfl, by decide⟩
    rw [LFString.reads, spells.content]
    rfl
  refine ⟨src, deck, spells, lexes, ?_⟩
  intro other
  have same := lexes.unique other
  exact absurd same (by decide)

/-! ## Text around a literal -/

section Around

variable {src srcBefore srcBehind : LFString UInt8} {deck deckBefore deckBehind : Deck UInt8}

/-- What the tokens of a text show: those of the lexer on its source, and of no text
the last one only. -/
def LFString.LexesTo (src : LFString UInt8) (deck : Deck UInt8) (text : List UInt8)
    (seen : List Seen) : Prop :=
  if text = [] then seen = [eofSeen] else src.Lexes deck seen

/-- Both bytes are there, and make the same token. -/
def SameToken (one two : Option UInt8) : Prop :=
  ∃ c c', one = some c ∧ two = some c' ∧ charType c = charType c'

/-- A text that does not end with an opening quote is scanned as it is. -/
theorem lexesTo_closed {text : List UInt8} {seen : List Seen}
    (spells : text ≠ [] → src.Spells deck text) (closed : opensAtEnd false text = false)
    {result : Scan UInt8} (scanned : scan .free text .empty = some result) :
    src.LexesTo deck text seen ↔ seen = result.seen := by
  unfold LFString.LexesTo
  split
  · rename_i empty
    subst empty
    obtain rfl : result = Scan.emit .empty ⟨.eof, some none⟩ := (Option.some.inj scanned).symm
    rfl
  · rename_i some
    rw [lexes_iff (spells some) some]
    constructor
    · rintro ⟨read, result', reads, scanned', rfl⟩
      rcases (spells some).reads reads with ⟨-, rfl⟩ | ⟨opens, -⟩
      · rw [Option.some.inj (scanned.symm.trans scanned')]
      · rw [closed] at opens
        cases opens
    · rintro rfl
      refine ⟨text, result, ?_, scanned, rfl⟩
      simp [LFString.reads, (spells some).content, closed]

/-- A text that ends with an opening quote is scanned with the byte behind it. -/
theorem lexesTo_open {text : List UInt8} {seen added : List Seen}
    (spells : text ≠ [] → src.Spells deck text) (opens : opensAtEnd false text = true)
    (scans : ∀ c, ∃ result, scan .free (text ++ [c]) .empty = some result ∧
      result.seen = added ++ [⟨charType c, none⟩, eofSeen]) :
    src.LexesTo deck text seen ↔
      ∃ c, src.behind deck = some c ∧ seen = added ++ [⟨charType c, none⟩, eofSeen] := by
  have nonempty : text ≠ [] := by
    rintro rfl
    cases opens
  rw [LFString.LexesTo, if_neg nonempty, lexes_iff (spells nonempty) nonempty]
  constructor
  · rintro ⟨read, result, reads, scanned, rfl⟩
    rcases (spells nonempty).reads reads with ⟨closed, -⟩ | ⟨-, c, here, rfl⟩
    · rw [opens] at closed
      cases closed
    · obtain ⟨result', scanned', ends⟩ := scans c
      obtain rfl := Option.some.inj (scanned.symm.trans scanned')
      exact ⟨c, here, ends⟩
  · rintro ⟨c, here, rfl⟩
    obtain ⟨result, scanned, ends⟩ := scans c
    refine ⟨_, result, ?_, scanned, ends⟩
    simp [LFString.reads, (spells nonempty).content, opens, here]

/-- What the scan adds for a text that ends with an opening quote, and for the
character behind it. -/
theorem scan_open {text : List UInt8} {s : Scan UInt8} (ready : s.Ready fun _ => True)
    (sound : s.Sound) (opens : opensAtEnd s.reading text = true) :
    ∃ added, ∀ c, ∃ result, scan .free (text ++ [c]) s = some result ∧
      result.seen = s.seen ++ (added ++ [⟨charType c, none⟩, eofSeen]) := by
  induction length : text.length using Nat.strong_induction_on generalizing text s with
  | _ n ih =>
      cases text with
      | nil => cases s.reading <;> cases opens
      | cons x rest =>
          by_cases last : x = quote ∧ s.reading = false ∧ rest = []
          · obtain ⟨rfl, outside, rfl⟩ := last
            refine ⟨[], ?_⟩
            intro c
            have step : ScanStep .free s quote [c] [] (s.start c true) := .opens rfl outside rfl
            obtain ⟨started, sound'⟩ := Scan.seen_start sound c true
            obtain ⟨result, scanned, ends⟩ := scan_nil sound'
            refine ⟨result, step.scan_eq.trans scanned, ?_⟩
            rw [ends, started]
            simp [Scan.start, lexemeSeen]
          · obtain ⟨rest', s', step⟩ := ScanStep.exists_of_lets Layout.free_lets ready
              (fun _ _ => trivial) (fun isQuote outside empty => last ⟨isQuote, outside, empty⟩)
            obtain ⟨ready', -⟩ := step.ready ready fun _ _ => trivial
            obtain ⟨-, here, -, -, -, sound', -, seen, -⟩ := step.again rfl rfl sound sound
            have shorter := step.length_le
            have onward := step.opensAtEnd_eq
            simp only [Layout.free, List.map_id_fun, id] at onward
            obtain ⟨added, scans⟩ := ih rest'.length (by simp at length; omega) ready' sound'
              (onward ▸ opens) rfl
            refine ⟨here ++ added, ?_⟩
            intro c
            obtain ⟨result, scanned, ends⟩ := scans c
            refine ⟨result, (step.append [c]).scan_eq.trans scanned, ?_⟩
            rw [ends, seen]
            simp

/-- The scan around a literal: what it makes of the text in front, up to the run that is
open there, the literal, and what it makes of the text behind. -/
theorem scan_around {before chars : List UInt8} (freeBefore : quote ∉ before)
    (free : quote ∉ chars) (nonempty : chars ≠ []) : ∃ front run : List Seen,
    (run = [] ↔ ∀ c ∈ before.getLast?, ¬ ordinary c) ∧
    (∃ result, scan .free before .empty = some result ∧ result.seen = front ++ run ++ [eofSeen]) ∧
    ∀ rest result, scan .free rest .empty = some result → ∃ result',
      scan .free (before ++ (quoted chars ++ rest)) .empty = some result' ∧
      result'.seen = front ++ literalSeen chars :: result.seen := by
  obtain ⟨s, outside, noRun, scans⟩ := scan_quoteFree Scan.outside_empty rfl freeBefore
  obtain ⟨t, outside', closed, seen, scans'⟩ := scan_literal outside nonempty free
  obtain ⟨result, scanned, ends⟩ := scan_nil outside.sound
  rw [← scans, List.append_nil] at scanned
  refine ⟨s.seen, s.current.toList.map lexemeSeen, ?_, ⟨result, scanned, ends⟩, ?_⟩
  · rw [← noRun]
    cases s.current <;> simp
  · intro rest result scanned
    obtain ⟨result', added, scanned', here, there⟩ := scan_adds scanned Scan.sound_empty t closed
      outside'.outside outside'.sound
    refine ⟨result', by rw [scans, scans', scanned'], ?_⟩
    rw [there, seen, here]
    simp [Scan.seen, Scan.empty]

/-- **Lexing splits at a literal** exactly where no run is open in front of it: the
tokens are those of the text in front without the last one, the literal, and those of
the text behind. Where the text behind ends with an opening quote, they also depend
on the byte behind it. -/
theorem lfLex_split_iff (before chars behind : List UInt8) (freeBefore : quote ∉ before)
    (free : quote ∉ chars) (nonempty : chars ≠ [])
    (spellsBefore : before ≠ [] → srcBefore.Spells deckBefore before)
    (spellsBehind : behind ≠ [] → srcBehind.Spells deckBehind behind)
    (spells : src.Spells deck (before ++ (quoted chars ++ behind))) :
    (∃ front back, srcBefore.LexesTo deckBefore before (front ++ [eofSeen]) ∧
      srcBehind.LexesTo deckBehind behind back ∧
      src.Lexes deck (front ++ literalSeen chars :: back)) ↔
    (∀ c ∈ before.getLast?, ¬ ordinary c) ∧ (opensAtEnd false behind = true →
      SameToken (srcBehind.behind deckBehind) (src.behind deck)) := by
  have some : before ++ (quoted chars ++ behind) ≠ [] := by simp [quoted]
  have lexes : ∀ seen, src.Lexes deck seen ↔
      src.LexesTo deck (before ++ (quoted chars ++ behind)) seen := by
    intro seen
    rw [LFString.LexesTo, if_neg some]
  have closing : opensAtEnd false (before ++ (quoted chars ++ behind)) =
      opensAtEnd false behind := by
    rw [opensAtEnd_quoteFree freeBefore, opensAtEnd_quoted nonempty free]
  obtain ⟨shown, run, noRun, ⟨result, scanned, ends⟩, onward⟩ :=
    scan_around freeBefore free nonempty
  have inFront : ∀ front, srcBefore.LexesTo deckBefore before (front ++ [eofSeen]) ↔
      front = shown ++ run := by
    intro front
    have closedBefore : opensAtEnd false before = false := by
      rw [← List.append_nil before, opensAtEnd_quoteFree freeBefore]
      rfl
    rw [lexesTo_closed spellsBefore closedBefore scanned, ends]
    exact List.append_left_inj _
  rw [← noRun]
  simp only [inFront, lexes]
  cases opens : opensAtEnd false behind with
  | false =>
      obtain ⟨result, scanned⟩ : ∃ result, scan .free behind .empty = Option.some result :=
        scan_lets Layout.free_lets Scan.ready_empty (fun _ _ => trivial)
          (by simpa [Layout.free, Scan.empty] using opens)
      obtain ⟨result', scanned', ends'⟩ := onward behind result scanned
      simp only [lexesTo_closed spellsBehind opens scanned,
        lexesTo_closed (fun _ => spells) (closing.trans opens) scanned', ends']
      simp
  | true =>
      have opens' : opensAtEnd (Scan.empty : Scan UInt8).reading behind = true := opens
      obtain ⟨added, scansOpen⟩ := scan_open Scan.ready_empty Scan.sound_empty opens'
      have scansWhole : ∀ c, ∃ result',
          scan .free (before ++ (quoted chars ++ behind) ++ [c]) .empty = Option.some result' ∧
          result'.seen = shown ++ literalSeen chars :: added ++ [⟨charType c, none⟩, eofSeen] := by
        intro c
        obtain ⟨result, scanned, ends⟩ := scansOpen c
        obtain ⟨result', scanned', ends'⟩ := onward _ result scanned
        refine ⟨result', by simpa using scanned', ?_⟩
        rw [ends', ends]
        simp [Scan.seen, Scan.empty]
      have scansBehind : ∀ c, ∃ result,
          scan .free (behind ++ [c]) .empty = Option.some result ∧
          result.seen = added ++ [⟨charType c, none⟩, eofSeen] := scansOpen
      simp only [lexesTo_open spellsBehind opens scansBehind,
        lexesTo_open (fun _ => spells) (closing.trans opens) scansWhole, forall_const]
      constructor
      · rintro ⟨front, back, rfl, ⟨c, here, rfl⟩, c', there, same⟩
        have closed : run = [] := by
          have counts := congrArg List.length same
          simp only [List.length_append, List.length_cons] at counts
          exact List.length_eq_zero_iff.mp (by omega)
        rw [closed] at same
        have token : charType c = charType c' := by simpa using same
        exact ⟨closed, c, c', here, there, token⟩
      · rintro ⟨closed, c, c', here, there, token⟩
        refine ⟨_, _, rfl, ⟨c, here, rfl⟩, c', there, ?_⟩
        rw [closed, token]
        simp

end Around

/-- The text `a "b"=`. -/
theorem lfLex_split_blank : ∃ (srcBefore src srcBehind : LFString UInt8)
    (deckBefore deck deckBehind : Deck UInt8), srcBefore.Spells deckBefore [97, 32] ∧
    srcBehind.Spells deckBehind [61] ∧ src.Spells deck ([97, 32] ++ (quoted [98] ++ [61])) ∧
    ((∃ front back, srcBefore.LexesTo deckBefore [97, 32] (front ++ [eofSeen]) ∧
      srcBehind.LexesTo deckBehind [61] back ∧
      src.Lexes deck (front ++ literalSeen [98] :: back)) ↔
    (∀ c ∈ ([97, 32] : List UInt8).getLast?, ¬ ordinary c) ∧ (opensAtEnd false [61] = true →
      SameToken (srcBehind.behind deckBehind) (src.behind deck))) := by
  obtain ⟨srcBefore, deckBefore, spellsBefore⟩ := @exists_spells [97, 32] (by decide) 16 (by decide)
    (by decide)
  obtain ⟨srcBehind, deckBehind, spellsBehind⟩ := @exists_spells [61] (by decide) 16 (by decide)
    (by decide)
  obtain ⟨src, deck, spells⟩ := @exists_spells ([97, 32] ++ (quoted [98] ++ [61])) (by decide) 16
    (by decide) (by decide)
  exact ⟨srcBefore, src, srcBehind, deckBefore, deck, deckBehind,
    spellsBefore, spellsBehind, spells,
    lfLex_split_iff [97, 32] [98] [61] (by decide) (by decide) (by decide) (fun _ => spellsBefore)
      (fun _ => spellsBehind) spells⟩

/-- The text `id"b"`: the lexer makes no token of `id`. -/
theorem run_lost_before_literal : ∃ (srcBefore src : LFString UInt8) (deckBefore deck : Deck UInt8),
    srcBefore.Spells deckBefore [105, 100] ∧ src.Spells deck ([105, 100] ++ (quoted [98] ++ [])) ∧
    srcBefore.Lexes deckBefore [⟨.identifier, some [105, 100]⟩, eofSeen] ∧
    src.Lexes deck [literalSeen [98], eofSeen] ∧
    ¬ ∃ front back, srcBefore.LexesTo deckBefore [105, 100] (front ++ [eofSeen]) ∧
      src.LexesTo deck [] back ∧ src.Lexes deck (front ++ literalSeen [98] :: back) := by
  obtain ⟨srcBefore, deckBefore, spellsBefore⟩ := @exists_spells [105, 100] (by decide) 16
    (by decide) (by decide)
  obtain ⟨src, deck, spells⟩ := @exists_spells ([105, 100] ++ (quoted [98] ++ [])) (by decide) 16
    (by decide) (by decide)
  have lexesBefore : srcBefore.Lexes deckBefore [⟨.identifier, some [105, 100]⟩, eofSeen] := by
    rw [lexes_iff spellsBefore (by decide)]
    refine ⟨[105, 100], ⟨_, _, _, _⟩, ?_, rfl, by decide⟩
    rw [LFString.reads, spellsBefore.content]
    rfl
  have lexes : src.Lexes deck [literalSeen [98], eofSeen] := by
    rw [lexes_iff spells (by decide)]
    refine ⟨[105, 100, 34, 98, 34], ⟨_, _, _, _⟩, ?_, rfl, by decide⟩
    rw [LFString.reads, spells.content]
    rfl
  refine ⟨srcBefore, src, deckBefore, deck, spellsBefore, spells, lexesBefore, lexes, ?_⟩
  rintro ⟨front, back, shownBefore, -, shown⟩
  rw [LFString.LexesTo, if_neg (by decide)] at shownBefore
  have before := shownBefore.unique lexesBefore
  have whole := shown.unique lexes
  obtain rfl : front = [⟨.identifier, some [105, 100]⟩] :=
    List.append_cancel_right (show front ++ [eofSeen] = [_] ++ [eofSeen] from before)
  exact absurd (List.cons.inj whole).1 (by decide)

end LowFlow
