import LowFlow.Frontend.LexicalAnalysis

/-!
# What the lexer computes

The lexer on a list of characters, without the memory that holds them. A layout
says of the characters what the code depends on besides their values: whether a
character is where the code takes it to be, and which lexemes it can compare.
The scan fails where the layout says no. Under the free layout only the values
of the characters count, and every other layout agrees with it (`scan_free`).
-/

set_option autoImplicit false

namespace LowFlow

variable {γ : Type}

/-- What the lexer depends on. -/
structure Layout (γ : Type) where
  char : γ → UInt8
  /-- The second character is next to the first one, in the same block. -/
  adjoins : γ → γ → Bool
  /-- A lexeme that ends with the first character can be grown by the second one. -/
  joins : γ → γ → Bool
  /-- A lexeme of these characters can be compared with a keyword. -/
  comparable : List γ → Bool

/-- The layout that lets everything through. -/
def Layout.free : Layout UInt8 := ⟨id, fun _ _ => true, fun _ _ => true, fun _ => true⟩

/-- The state of a scan: the tokens so far, with lexemes by number, the lexemes
that are done, and the open one. -/
structure Scan (γ : Type) where
  tokens : List (Token ℕ)
  past : List (List γ)
  current : Option (List γ)
  reading : Bool

/-- The type of a lexeme of one character. -/
def charType (c : UInt8) : TokenType :=
  if lfGetTokenTypeFromSoftBoundaryLexeme c = .unknown then
    lfGetTokenTypeFromHardBoundaryLexeme c
  else lfGetTokenTypeFromSoftBoundaryLexeme c

/-- The type of a lexeme of several characters. -/
def wordType (chars : List UInt8) : TokenType :=
  if chars = useWord then .use
  else if chars = funcWord then .func
  else if chars = entryWord then .entry
  else .identifier

/-- The token of the lexeme with this number. -/
def lexemeToken (chars : List UInt8) (k : ℕ) : Token ℕ :=
  if chars.length ≤ 1 then ⟨charType (chars.headD 0), some none⟩
  else ⟨wordType chars, if wordType chars = .identifier then some (some k) else none⟩

namespace Scan

/-- All lexemes, first to last. -/
def lexemes (s : Scan γ) : List (List γ) := s.past ++ s.current.toList

def emit (s : Scan γ) (token : Token ℕ) : Scan γ := { s with tokens := s.tokens ++ [token] }

/-- A new lexeme, in place of the open one. -/
def start (s : Scan γ) (x : γ) (reading : Bool) : Scan γ :=
  ⟨s.tokens, s.lexemes, some [x], reading⟩

/-- The open lexeme with a character behind it. -/
def grow (L : Layout γ) (s : Scan γ) (x : γ) : Option (Scan γ) := do
  let lexeme ← s.current
  let last ← lexeme.getLast?
  if L.joins last x then some { s with current := some (lexeme ++ [x]) } else none

/-- The open lexeme becomes a token, if there is one. -/
def flush (L : Layout γ) (s : Scan γ) : Option (Scan γ) :=
  match s.current with
  | none => some s
  | some lexeme =>
      if L.comparable lexeme then
        some ⟨s.tokens ++ [lexemeToken (lexeme.map L.char) s.past.length], s.lexemes, none,
          s.reading⟩
      else none

/-- The literal that is read becomes a token. -/
def close (s : Scan γ) : Scan γ :=
  ⟨s.tokens ++ [⟨.str, some (s.current.map fun _ => s.past.length)⟩], s.lexemes, none, false⟩

/-- The same scan of other characters. -/
def map {δ : Type} (f : γ → δ) (s : Scan γ) : Scan δ :=
  ⟨s.tokens, s.past.map (List.map f), s.current.map (List.map f), s.reading⟩

/-- Nothing scanned yet. -/
def empty : Scan γ := ⟨[], [], none, false⟩

end Scan

/-- The scan of a text. -/
def scan (L : Layout γ) : List γ → Scan γ → Option (Scan γ)
  | [], s => (s.flush L).map fun s => s.emit ⟨.eof, some none⟩
  | x :: rest, s =>
      if L.char x = quote ∧ ¬ s.reading then
        match rest with
        | [] => none
        | first :: rest => if L.adjoins x first then scan L rest (s.start first true) else none
      else if L.char x = quote then scan L rest s.close
      else if s.reading then (s.grow L x).bind (scan L rest)
      else if lfIsWhitespace (L.char x) then (s.flush L).bind (scan L rest)
      else if lfGetTokenTypeFromHardBoundaryLexeme (L.char x) ≠ .unknown then
        (s.flush L).bind fun s =>
          scan L rest (s.emit ⟨lfGetTokenTypeFromHardBoundaryLexeme (L.char x), none⟩)
      else
        match s.current with
        | none => scan L rest (s.start x false)
        | some _ => (s.grow L x).bind (scan L rest)

/-- The character belongs to a run: it is no quote, no white space, and no token
wherever it stands. -/
def ordinary (c : UInt8) : Prop :=
  c ≠ quote ∧ lfIsWhitespace c = false ∧ lfGetTokenTypeFromHardBoundaryLexeme c = .unknown

instance (c : UInt8) : Decidable (ordinary c) :=
  inferInstanceAs (Decidable (_ ∧ _))

/-- What a scan does with its first character: the rest of the text and the state
after it. -/
inductive ScanStep (L : Layout γ) (s : Scan γ) (x : γ) : List γ → List γ → Scan γ → Prop where
  | opens {first : γ} {rest : List γ} (isQuote : L.char x = quote) (outside : s.reading = false)
      (adjoins : L.adjoins x first = true) :
      ScanStep L s x (first :: rest) rest (s.start first true)
  | closes {rest : List γ} (isQuote : L.char x = quote) (inside : s.reading = true) :
      ScanStep L s x rest rest s.close
  | reads {rest : List γ} {s' : Scan γ} (notQuote : L.char x ≠ quote) (inside : s.reading = true)
      (grown : s.grow L x = some s') : ScanStep L s x rest rest s'
  | blank {rest : List γ} {s' : Scan γ} (notQuote : L.char x ≠ quote) (outside : s.reading = false)
      (white : lfIsWhitespace (L.char x) = true) (flushed : s.flush L = some s') :
      ScanStep L s x rest rest s'
  | boundary {rest : List γ} {s' : Scan γ} (notQuote : L.char x ≠ quote)
      (outside : s.reading = false) (notWhite : lfIsWhitespace (L.char x) = false)
      (hard : lfGetTokenTypeFromHardBoundaryLexeme (L.char x) ≠ .unknown)
      (flushed : s.flush L = some s') :
      ScanStep L s x rest rest (s'.emit ⟨lfGetTokenTypeFromHardBoundaryLexeme (L.char x), none⟩)
  | starts {rest : List γ} (plain : ordinary (L.char x)) (outside : s.reading = false)
      (none : s.current = none) : ScanStep L s x rest rest (s.start x false)
  | grows {rest : List γ} {s' : Scan γ} {lexeme : List γ} (plain : ordinary (L.char x))
      (outside : s.reading = false) (current : s.current = some lexeme)
      (grown : s.grow L x = some s') : ScanStep L s x rest rest s'

section Steps

variable {L : Layout γ} {s s' result : Scan γ} {x : γ} {rest rest' : List γ}

/-- What is left to scan after a step. -/
theorem ScanStep.scan_eq (step : ScanStep L s x rest rest' s') :
    scan L (x :: rest) s = scan L rest' s' := by
  rw [scan.eq_def]
  cases step with
  | opens isQuote outside adjoins => simp [isQuote, outside, adjoins]
  | closes isQuote inside => simp [isQuote, inside]
  | reads notQuote inside grown => simp [notQuote, inside, grown]
  | blank notQuote outside white flushed => simp [notQuote, outside, white, flushed]
  | boundary notQuote outside notWhite hard flushed =>
      simp [notQuote, outside, notWhite, hard, flushed]
  | starts plain outside none => simp [plain.1, plain.2.1, plain.2.2, outside, none]
  | grows plain outside current grown =>
      simp [plain.1, plain.2.1, plain.2.2, outside, current, grown]

/-- A scan is its first step and the scan of what is left. -/
theorem scan_cons_iff : scan L (x :: rest) s = some result ↔
    ∃ rest' s', ScanStep L s x rest rest' s' ∧ scan L rest' s' = some result := by
  constructor
  · intro scanned
    rw [scan.eq_def] at scanned
    dsimp only at scanned
    split at scanned
    · rename_i opening
      cases rest with
      | nil => cases scanned
      | cons first rest =>
          simp only [Option.ite_none_right_eq_some] at scanned
          exact ⟨_, _, .opens opening.1 (by simpa using opening.2) scanned.1, scanned.2⟩
    rename_i notOpening
    split at scanned
    · rename_i isQuote
      exact ⟨_, _, .closes isQuote (by simpa [isQuote] using notOpening), scanned⟩
    rename_i notQuote
    split at scanned
    · rename_i inside
      obtain ⟨s', grown, scanned⟩ := Option.bind_eq_some_iff.mp scanned
      exact ⟨_, _, .reads notQuote inside grown, scanned⟩
    rename_i notInside
    have outside : s.reading = false := by simpa using notInside
    split at scanned
    · rename_i white
      obtain ⟨s', flushed, scanned⟩ := Option.bind_eq_some_iff.mp scanned
      exact ⟨_, _, .blank notQuote outside white flushed, scanned⟩
    rename_i notWhite
    split at scanned
    · rename_i hard
      obtain ⟨s', flushed, scanned⟩ := Option.bind_eq_some_iff.mp scanned
      exact ⟨_, _, .boundary notQuote outside (by simpa using notWhite) hard flushed, scanned⟩
    rename_i notHard
    have plain : ordinary (L.char x) := ⟨notQuote, by simpa using notWhite, by simpa using notHard⟩
    cases current : s.current with
    | none =>
        rw [current] at scanned
        exact ⟨_, _, .starts plain outside current, scanned⟩
    | some lexeme =>
        rw [current] at scanned
        obtain ⟨s', grown, scanned⟩ := Option.bind_eq_some_iff.mp scanned
        exact ⟨_, _, .grows plain outside current grown, scanned⟩
  · rintro ⟨rest', s', step, scanned⟩
    rw [step.scan_eq, scanned]

/-- A step takes one or two characters. -/
theorem ScanStep.length_le (step : ScanStep L s x rest rest' s') : rest'.length ≤ rest.length := by
  cases step <;> simp

/-- What holds of every step to the end holds of the scan. The induction is on
how much of the text is left. -/
theorem scan_induction {P : List γ → Scan γ → Prop}
    (done : ∀ s flushed, s.flush L = some flushed →
      flushed.emit ⟨.eof, some none⟩ = result → P [] s)
    (step : ∀ x rest rest' s s', ScanStep L s x rest rest' s' → P rest' s' → P (x :: rest) s)
    {text : List γ} (scanned : scan L text s = some result) : P text s := by
  induction length : text.length using Nat.strong_induction_on generalizing text s with
  | _ n ih =>
      cases text with
      | nil =>
          obtain ⟨flushed, flush, same⟩ := Option.map_eq_some_iff.mp scanned
          exact done s flushed flush same
      | cons x rest =>
          obtain ⟨rest', s', taken, onward⟩ := scan_cons_iff.mp scanned
          have shorter := taken.length_le
          exact step x rest rest' s s' taken
            (ih rest'.length (by simp at length; omega) onward rfl)

end Steps

/-! ## What a scan does to its lexemes -/

section Lexemes

variable {L : Layout γ} {s s' : Scan γ} {x : γ}

theorem Scan.lexemes_close : s.close.lexemes = s.lexemes :=
  List.append_nil _

theorem Scan.grow_eq_some (grown : s.grow L x = some s') : ∃ init last,
    s.current = some (init ++ [last]) ∧ L.joins last x = true ∧
      s' = { s with current := some (init ++ [last] ++ [x]) } := by
  simp only [Scan.grow, Option.bind_eq_bind, Option.bind_eq_some_iff,
    Option.ite_none_right_eq_some] at grown
  obtain ⟨lexeme, current, last, isLast, joins, same⟩ := grown
  obtain ⟨init, rfl⟩ := List.getLast?_eq_some_iff.mp isLast
  exact ⟨init, last, current, joins, (Option.some.inj same).symm⟩

theorem Scan.flush_eq_some (flushed : s.flush L = some s') :
    s.current = none ∧ s' = s ∨ ∃ lexeme, s.current = some lexeme ∧ L.comparable lexeme = true ∧
      s' = ⟨s.tokens ++ [lexemeToken (lexeme.map L.char) s.past.length], s.past ++ [lexeme], none,
        s.reading⟩ := by
  cases current : s.current with
  | none =>
      simp only [Scan.flush, current, Option.some.injEq] at flushed
      exact .inl ⟨rfl, flushed.symm⟩
  | some lexeme =>
      simp only [Scan.flush, current, Option.ite_none_right_eq_some, Option.some.injEq] at flushed
      refine .inr ⟨lexeme, rfl, flushed.1, ?_⟩
      rw [← flushed.2]
      simp [Scan.lexemes, current]

/-- After a flush no lexeme is open. -/
theorem Scan.current_flush (flushed : s.flush L = some s') :
    s'.current = none ∧ s'.reading = s.reading := by
  rcases Scan.flush_eq_some flushed with ⟨current, rfl⟩ | ⟨lexeme, -, -, rfl⟩
  · exact ⟨current, rfl⟩
  · exact ⟨rfl, rfl⟩

end Lexemes

/-! ## Only the characters count -/

/-- The second layout lets through what the first one does. -/
structure Layout.Maps {δ : Type} (L : Layout γ) (L' : Layout δ) (f : γ → δ) : Prop where
  char : ∀ x, L'.char (f x) = L.char x
  adjoins : ∀ x y, L.adjoins x y = true → L'.adjoins (f x) (f y) = true
  joins : ∀ x y, L.joins x y = true → L'.joins (f x) (f y) = true
  comparable : ∀ chars, L.comparable chars = true → L'.comparable (chars.map f) = true

/-- Nothing is refused by the free layout. -/
theorem Layout.maps_free (L : Layout γ) : L.Maps .free L.char :=
  ⟨fun _ => rfl, fun _ _ _ => rfl, fun _ _ _ => rfl, fun _ _ => rfl⟩

section Mapping

variable {δ : Type} {L : Layout γ} {L' : Layout δ} {f : γ → δ} {s s' : Scan γ}

theorem Scan.map_start (f : γ → δ) (x : γ) (reading : Bool) :
    (s.start x reading).map f = (s.map f).start (f x) reading := by
  cases current : s.current <;> simp [Scan.start, Scan.map, Scan.lexemes, current]

theorem Scan.map_close (f : γ → δ) : s.close.map f = (s.map f).close := by
  cases current : s.current <;> simp [Scan.close, Scan.map, Scan.lexemes, current]

theorem Scan.grow_map (maps : L.Maps L' f) {x : γ} (grown : s.grow L x = some s') :
    (s.map f).grow L' (f x) = some (s'.map f) := by
  obtain ⟨init, last, current, joins, rfl⟩ := Scan.grow_eq_some grown
  simp [Scan.grow, Scan.map, current, maps.joins _ _ joins]

theorem Scan.flush_map (maps : L.Maps L' f) (flushed : s.flush L = some s') :
    (s.map f).flush L' = some (s'.map f) := by
  rcases Scan.flush_eq_some flushed with ⟨current, rfl⟩ | ⟨lexeme, current, comparable, rfl⟩
  · simp [Scan.flush, Scan.map, current]
  · have chars : (lexeme.map f).map L'.char = lexeme.map L.char := by
      rw [List.map_map]
      exact List.map_congr_left fun x _ => maps.char x
    simp only [Scan.flush, Scan.map, current, Option.map_some, maps.comparable _ comparable,
      ↓reduceIte, chars, List.length_map, Scan.lexemes, Option.toList_some, List.map_append,
      List.map_cons, List.map_nil, Option.map_none]

/-- A step under the first layout is a step under the second one. -/
theorem ScanStep.map (maps : L.Maps L' f) {x : γ} {rest rest' : List γ}
    (step : ScanStep L s x rest rest' s') :
    ScanStep L' (s.map f) (f x) (rest.map f) (rest'.map f) (s'.map f) := by
  have char := maps.char x
  cases step with
  | opens isQuote outside adjoins =>
      rw [Scan.map_start]
      exact .opens (char.trans isQuote) outside (maps.adjoins _ _ adjoins)
  | closes isQuote inside =>
      rw [Scan.map_close]
      exact .closes (char.trans isQuote) inside
  | reads notQuote inside grown =>
      exact .reads (char ▸ notQuote) inside (Scan.grow_map maps grown)
  | blank notQuote outside white flushed =>
      exact .blank (char ▸ notQuote) outside (char ▸ white) (Scan.flush_map maps flushed)
  | boundary notQuote outside notWhite hard flushed =>
      rw [← char] at notQuote notWhite hard ⊢
      exact .boundary notQuote outside notWhite hard (Scan.flush_map maps flushed)
  | starts plain outside none =>
      rw [Scan.map_start]
      exact .starts (char ▸ plain) outside (by simp [Scan.map, none])
  | grows plain outside current grown =>
      exact .grows (char ▸ plain) outside (by simp [Scan.map, current]; rfl)
        (Scan.grow_map maps grown)

/-- What is scanned under the first layout is scanned under the second one. -/
theorem scan_map (maps : L.Maps L' f) {text : List γ} {result : Scan γ}
    (scanned : scan L text s = some result) :
    scan L' (text.map f) (s.map f) = some (result.map f) := by
  refine scan_induction (P := fun text s =>
    scan L' (text.map f) (s.map f) = some (result.map f)) ?_ ?_ scanned
  · rintro s flushed flush rfl
    simp only [List.map_nil, scan, Scan.flush_map maps flush, Option.map_some]
    rfl
  · intro x rest rest' s s' step onward
    exact scan_cons_iff.mpr ⟨_, _, step.map maps, onward⟩

end Mapping

section Free

variable {L : Layout γ} {s s' : Scan γ}

/-- A step under a layout is a step on the characters. -/
theorem ScanStep.free {x : γ} {rest rest' : List γ} (step : ScanStep L s x rest rest' s') :
    ScanStep .free (s.map L.char) (L.char x) (rest.map L.char) (rest'.map L.char)
      (s'.map L.char) :=
  step.map L.maps_free

/-- **The layout does not change what is scanned**, as long as it lets the scan through. -/
theorem scan_free {text : List γ} {result : Scan γ} (scanned : scan L text s = some result) :
    scan .free (text.map L.char) (s.map L.char) = some (result.map L.char) :=
  scan_map L.maps_free scanned

end Free

end LowFlow
