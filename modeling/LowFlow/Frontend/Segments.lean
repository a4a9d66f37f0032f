import LowFlow.Frontend.Scan

/-!
# The segments of a text

The grammar that the lexer is meant for. A text is segmented into boundary
characters, quoted literals and runs of other characters; a run goes as far as it
can, and no literal starts right behind it. A text has at most one segmentation,
and has one when its quotes are placed well (`WellQuoted.segmented`). A scan that
its layout lets through makes one token of each segment (`scan_segmented`).
-/

set_option autoImplicit false

namespace LowFlow

variable {γ : Type}

/-- A part of a text that becomes a token. -/
inductive Segment (γ : Type) where
  | boundary (x : γ)
  | literal (chars : List γ)
  | run (chars : List γ)
deriving DecidableEq, Repr

/-- The segments of a text. -/
inductive Segmented (char : γ → UInt8) : List γ → List (Segment γ) → Prop where
  | nil : Segmented char [] []
  | blank {x : γ} {rest : List γ} {segments : List (Segment γ)}
      (white : lfIsWhitespace (char x) = true) (onward : Segmented char rest segments) :
      Segmented char (x :: rest) segments
  | boundary {x : γ} {rest : List γ} {segments : List (Segment γ)}
      (hard : lfGetTokenTypeFromHardBoundaryLexeme (char x) ≠ .unknown)
      (onward : Segmented char rest segments) :
      Segmented char (x :: rest) (.boundary x :: segments)
  | literal {x y : γ} {chars rest : List γ} {segments : List (Segment γ)}
      (opening : char x = quote) (closing : char y = quote) (nonempty : chars ≠ [])
      (inside : ∀ z ∈ chars, char z ≠ quote) (onward : Segmented char rest segments) :
      Segmented char (x :: (chars ++ y :: rest)) (.literal chars :: segments)
  | run {chars rest : List γ} {segments : List (Segment γ)} (nonempty : chars ≠ [])
      (plain : ∀ z ∈ chars, ordinary (char z))
      (stops : ∀ z ∈ rest.head?, ¬ ordinary (char z) ∧ char z ≠ quote)
      (onward : Segmented char rest segments) :
      Segmented char (chars ++ rest) (.run chars :: segments)

/-! ## A text has one segmentation -/

/-- Two ways to cut a text where a property first fails are one. -/
theorem append_inj_of_stops {P : γ → Prop} {front front' back back' : List γ}
    (same : front ++ back = front' ++ back') (all : ∀ z ∈ front, P z) (all' : ∀ z ∈ front', P z)
    (stops : ∀ z ∈ back.head?, ¬ P z) (stops' : ∀ z ∈ back'.head?, ¬ P z) :
    front = front' ∧ back = back' := by
  induction front generalizing front' with
  | nil =>
      cases front' with
      | nil => exact ⟨rfl, same⟩
      | cons x front' =>
          rw [List.nil_append] at same
          exact absurd (all' x (List.mem_cons_self ..)) (stops x (by simp [same]))
  | cons x front ih =>
      cases front' with
      | nil =>
          rw [List.nil_append] at same
          exact absurd (all x (List.mem_cons_self ..)) (stops' x (by simp [← same]))
      | cons y front' =>
          rw [List.cons_append, List.cons_append] at same
          obtain ⟨rfl, onward⟩ := List.cons.inj same
          obtain ⟨_, all⟩ := List.forall_mem_cons.mp all
          obtain ⟨_, all'⟩ := List.forall_mem_cons.mp all'
          obtain ⟨rfl, rfl⟩ := ih onward all all'
          exact ⟨rfl, rfl⟩

/-- Every text can be cut where a property first fails. -/
theorem exists_stops (P : γ → Prop) [DecidablePred P] (text : List γ) :
    ∃ front back, text = front ++ back ∧ (∀ z ∈ front, P z) ∧ ∀ z ∈ back.head?, ¬ P z := by
  induction text with
  | nil => exact ⟨[], [], rfl, by simp, by simp⟩
  | cons x text ih =>
      by_cases here : P x
      · obtain ⟨front, back, rfl, all, stops⟩ := ih
        exact ⟨x :: front, back, rfl, List.forall_mem_cons.mpr ⟨here, all⟩, stops⟩
      · exact ⟨[], x :: text, rfl, by simp, by simpa using here⟩

/-- The four kinds of characters exclude each other. -/
theorem hard_of_white {c : UInt8} (white : lfIsWhitespace c = true) :
    lfGetTokenTypeFromHardBoundaryLexeme c = .unknown := by
  simp only [lfIsWhitespace, Bool.or_eq_true, decide_eq_true_eq] at white
  rcases white with ((rfl | rfl) | rfl) | rfl <;> rfl

theorem not_quote_of_white {c : UInt8} (white : lfIsWhitespace c = true) : c ≠ quote := by
  rintro rfl
  cases white

theorem not_quote_of_hard {c : UInt8} (hard : lfGetTokenTypeFromHardBoundaryLexeme c ≠ .unknown) :
    c ≠ quote := by
  rintro rfl
  exact hard rfl

namespace Segmented

variable {char : γ → UInt8} {text rest : List γ} {x : γ} {segments segments' : List (Segment γ)}

theorem eq_nil (segmented : Segmented char [] segments) : segments = [] := by
  generalize empty : ([] : List γ) = text at segmented
  cases segmented with
  | nil => rfl
  | run nonempty => exact absurd (List.append_eq_nil_iff.mp empty.symm).1 nonempty
  | _ => cases empty

/-- What the first character says about the first segment. -/
theorem cons_inv (segmented : Segmented char (x :: rest) segments) :
    (lfIsWhitespace (char x) = true ∧ Segmented char rest segments) ∨
    (lfGetTokenTypeFromHardBoundaryLexeme (char x) ≠ .unknown ∧
      ∃ onward, segments = .boundary x :: onward ∧ Segmented char rest onward) ∨
    (char x = quote ∧ ∃ chars y rest' onward, rest = chars ++ y :: rest' ∧ char y = quote ∧
      (∀ z ∈ chars, char z ≠ quote) ∧ segments = .literal chars :: onward ∧
      Segmented char rest' onward) ∨
    (ordinary (char x) ∧ ∃ chars rest' onward, x :: rest = chars ++ rest' ∧
      (∀ z ∈ chars, ordinary (char z)) ∧ (∀ z ∈ rest'.head?, ¬ ordinary (char z)) ∧
      segments = .run chars :: onward ∧ Segmented char rest' onward) := by
  generalize whole : x :: rest = text at segmented
  cases segmented with
  | nil => cases whole
  | blank white onward =>
      cases whole
      exact .inl ⟨white, onward⟩
  | boundary hard onward =>
      cases whole
      exact .inr (.inl ⟨hard, _, rfl, onward⟩)
  | literal opening closing nonempty inside onward =>
      cases whole
      exact .inr (.inr (.inl ⟨opening, _, _, _, _, rfl, closing, inside, rfl, onward⟩))
  | @run chars rest' onward nonempty plain stops segmented =>
      have isPlain : ordinary (char x) := by
        obtain ⟨y, chars, rfl⟩ := List.exists_cons_of_ne_nil nonempty
        obtain ⟨rfl, -⟩ := List.cons.inj whole
        exact plain x (List.mem_cons_self ..)
      exact .inr (.inr (.inr ⟨isPlain, chars, rest', onward, rfl, plain,
        fun z atHead => (stops z atHead).1, rfl, segmented⟩))

/-- **A text has at most one segmentation.** -/
theorem unique (segmented : Segmented char text segments)
    (segmented' : Segmented char text segments') : segments = segments' := by
  induction segmented generalizing segments' with
  | nil => exact segmented'.eq_nil.symm
  | @blank x rest segments white onward ih =>
      rcases segmented'.cons_inv with ⟨-, onward'⟩ | ⟨hard, -⟩ | ⟨opening, -⟩ | ⟨plain, -⟩
      · exact ih onward'
      · exact absurd (hard_of_white white) hard
      · exact absurd opening (not_quote_of_white white)
      · exact absurd white (by simp [plain.2.1])
  | @boundary x rest segments hard onward ih =>
      rcases segmented'.cons_inv with ⟨white, -⟩ | ⟨-, _, rfl, onward'⟩ | ⟨opening, -⟩ | ⟨plain, -⟩
      · exact absurd (hard_of_white white) hard
      · rw [ih onward']
      · exact absurd opening (not_quote_of_hard hard)
      · exact absurd plain.2.2 hard
  | @literal x y chars rest segments opening closing nonempty inside onward ih =>
      rcases segmented'.cons_inv with ⟨white, -⟩ | ⟨hard, -⟩ |
        ⟨-, _, _, _, _, same, closing', inside', rfl, onward'⟩ | ⟨plain, -⟩
      · exact absurd opening (not_quote_of_white white)
      · exact absurd opening (not_quote_of_hard hard)
      · obtain ⟨rfl, behind⟩ := append_inj_of_stops same inside inside'
          (by simpa using closing) (by simpa using closing')
        obtain ⟨rfl, rfl⟩ := List.cons.inj behind
        rw [ih onward']
      · exact absurd opening plain.1
  | @run chars rest segments nonempty plain stops onward ih =>
      obtain ⟨x, others, rfl⟩ := List.exists_cons_of_ne_nil nonempty
      have first := plain x (List.mem_cons_self ..)
      rcases segmented'.cons_inv with ⟨white, -⟩ | ⟨hard, -⟩ | ⟨opening, -⟩ |
        ⟨-, _, _, _, same, plain', stops', rfl, onward'⟩
      · exact absurd white (by simp [first.2.1])
      · exact absurd first.2.2 hard
      · exact absurd opening first.1
      · obtain ⟨rfl, rfl⟩ := append_inj_of_stops same plain plain'
          (fun z atHead => (stops z atHead).1) stops'
        rw [ih onward']

end Segmented

/-! ## Which texts have a segmentation -/

/-- The quotes of a text are balanced, no literal is empty, and every opening
quote is at the start or behind white space, a boundary character or a closing
quote. A quote with an even number of quotes before it opens a literal. -/
structure WellQuoted (char : γ → UInt8) (text : List γ) : Prop where
  balanced : 2 ∣ text.countP fun x => char x = quote
  nonempty : ∀ before x y after, text = before ++ x :: y :: after → char x = quote →
    2 ∣ before.countP (fun x => char x = quote) → char y ≠ quote
  placed : ∀ before x y after, text = before ++ x :: y :: after → char y = quote →
    2 ∣ (before ++ [x]).countP (fun x => char x = quote) →
    lfIsWhitespace (char x) = true ∨
      lfGetTokenTypeFromHardBoundaryLexeme (char x) ≠ .unknown ∨ char x = quote

namespace WellQuoted

variable {char : γ → UInt8} {text front rest : List γ}

/-- The conditions on neighbours, by their index. -/
theorem iff_indices : WellQuoted char text ↔ 2 ∣ text.countP (fun x => char x = quote) ∧
    ∀ i < text.length, ∀ x ∈ text[i]?, ∀ y ∈ text[i + 1]?,
      (char x = quote → 2 ∣ (text.take i).countP (fun x => char x = quote) → char y ≠ quote) ∧
      (char y = quote → 2 ∣ (text.take i ++ [x]).countP (fun x => char x = quote) →
        lfIsWhitespace (char x) = true ∨
          lfGetTokenTypeFromHardBoundaryLexeme (char x) ≠ .unknown ∨ char x = quote) := by
  constructor
  · intro quoted
    refine ⟨quoted.balanced, ?_⟩
    intro i bound x atFirst y atSecond
    obtain ⟨_, rfl⟩ := List.getElem?_eq_some_iff.mp atFirst
    obtain ⟨_, rfl⟩ := List.getElem?_eq_some_iff.mp atSecond
    have split : text = text.take i ++ text[i] :: text[i + 1] :: text.drop (i + 2) := by
      rw [← List.drop_eq_getElem_cons, ← List.drop_eq_getElem_cons, List.take_append_drop]
    exact ⟨quoted.nonempty _ _ _ _ split, quoted.placed _ _ _ _ split⟩
  · rintro ⟨balanced, neighbours⟩
    have at_split : ∀ before x y after, text = before ++ x :: y :: after → _ :=
      fun before x y after split => neighbours before.length (by simp [split]) x (by simp [split]) y
        (by simp [split])
    refine ⟨balanced, ?_, ?_⟩
    · rintro before x y after rfl
      simpa using (at_split before x y after rfl).1
    · rintro before x y after rfl
      simpa using (at_split before x y after rfl).2

instance : Decidable (WellQuoted char text) :=
  decidable_of_iff _ iff_indices.symm

/-- What is behind a part with balanced quotes. -/
theorem behind (quoted : WellQuoted char (front ++ rest))
    (even : 2 ∣ front.countP fun x => char x = quote) : WellQuoted char rest := by
  refine ⟨?_, ?_, ?_⟩
  · have balanced := quoted.balanced
    rw [List.countP_append] at balanced
    exact (Nat.dvd_add_right even).mp balanced
  · rintro before x y after rfl isQuote opens
    apply quoted.nonempty (front ++ before) x y after (by simp) isQuote
    rw [List.countP_append]
    exact Nat.dvd_add even opens
  · rintro before x y after rfl isQuote opens
    apply quoted.placed (front ++ before) x y after (by simp) isQuote
    rw [List.append_assoc, List.countP_append]
    exact Nat.dvd_add even opens

/-- **A text with well placed quotes has a segmentation.** -/
theorem segmented (quoted : WellQuoted char text) : ∃ segments, Segmented char text segments := by
  induction length : text.length using Nat.strong_induction_on generalizing text with
  | _ n ih =>
      cases text with
      | nil => exact ⟨[], .nil⟩
      | cons x rest =>
          have shorter : ∀ front back, x :: rest = front ++ back → front ≠ [] →
              2 ∣ front.countP (fun x => char x = quote) →
              ∃ segments, Segmented char back segments := by
            intro front back split some even
            have counts := congrArg List.length split
            have positive := List.length_pos_iff.mpr some
            rw [List.length_append] at counts
            exact ih back.length (by omega) (behind (split ▸ quoted) even) rfl
          by_cases opening : char x = quote
          · obtain ⟨chars, back, rfl, inside, stops⟩ := exists_stops (fun z => char z ≠ quote) rest
            have none : chars.countP (fun z => char z = quote) = 0 :=
              List.countP_eq_zero.mpr (by simpa using inside)
            have balanced := quoted.balanced
            cases back with
            | nil =>
                rw [List.append_nil, List.countP_cons_of_pos (by simpa using opening), none]
                  at balanced
                omega
            | cons y back =>
                have closing : char y = quote := by simpa using stops
                have nonempty : chars ≠ [] := by
                  rintro rfl
                  exact quoted.nonempty [] x y back rfl opening (by simp) closing
                obtain ⟨segments, onward⟩ := shorter (x :: (chars ++ [y])) back (by simp) (by simp)
                  (by simp [opening, closing, none])
                exact ⟨_, .literal opening closing nonempty inside onward⟩
          by_cases white : lfIsWhitespace (char x) = true
          · obtain ⟨segments, onward⟩ := shorter [x] rest rfl (by simp) (by simp [opening])
            exact ⟨segments, .blank white onward⟩
          by_cases hard : lfGetTokenTypeFromHardBoundaryLexeme (char x) = .unknown
          · obtain ⟨chars, back, split, plain, stops⟩ :=
              exists_stops (fun z => ordinary (char z)) (x :: rest)
            have none : chars.countP (fun z => char z = quote) = 0 :=
              List.countP_eq_zero.mpr fun z member => by simpa using (plain z member).1
            have nonempty : chars ≠ [] := by
              rintro rfl
              rw [List.nil_append] at split
              exact stops x (by simp [← split]) ⟨opening, by simpa using white, hard⟩
            obtain ⟨segments, onward⟩ := shorter chars back split nonempty (by simp [none])
            rw [split]
            refine ⟨_, .run nonempty plain (fun z atHead => ⟨stops z atHead, fun isQuote => ?_⟩)
              onward⟩
            obtain ⟨before, last, rfl⟩ := (List.eq_nil_or_concat' chars).resolve_left nonempty
            obtain ⟨after, rfl⟩ := List.head?_eq_some_iff.mp atHead
            obtain ⟨notQuote, notWhite, notHard⟩ := plain last (by simp)
            have placed := quoted.placed before last z after (by simpa using split) isQuote
              (by simp [none])
            simp [notQuote, notWhite, notHard] at placed
          · obtain ⟨segments, onward⟩ := shorter [x] rest rfl (by simp) (by simp [opening])
            exact ⟨_, .boundary hard onward⟩

end WellQuoted

/-! ## What a scan makes of the segments -/

/-- The characters that a segment has a lexeme for. -/
def Segment.lexeme : Segment γ → Option (List γ)
  | .boundary _ => none
  | .literal chars => some chars
  | .run chars => some chars

/-- The tokens of the segments, where the first lexeme has this number, and the
last token. -/
def segmentTokens (char : γ → UInt8) : ℕ → List (Segment γ) → List (Token ℕ)
  | _, [] => [⟨.eof, some none⟩]
  | k, .boundary x :: segments =>
      ⟨lfGetTokenTypeFromHardBoundaryLexeme (char x), none⟩ :: segmentTokens char k segments
  | k, .literal _ :: segments => ⟨.str, some (some k)⟩ :: segmentTokens char (k + 1) segments
  | k, .run chars :: segments =>
      lexemeToken (chars.map char) k :: segmentTokens char (k + 1) segments

/-- The layout lets through what has this property. -/
structure Layout.Lets (L : Layout γ) (P : γ → Prop) : Prop where
  adjoins : ∀ x y, P x → P y → L.adjoins x y = true
  joins : ∀ x y, P x → P y → L.joins x y = true
  comparable : ∀ chars, (∀ x ∈ chars, P x) → L.comparable chars = true

section Scanning

variable {L : Layout γ} {P : γ → Prop} {s s' : Scan γ} {chars more rest : List γ} {x : γ}

theorem Scan.grow_lets (lets : L.Lets P) (current : s.current = some chars) (nonempty : chars ≠ [])
    (all : ∀ z ∈ chars, P z) (here : P x) :
    s.grow L x = some { s with current := some (chars ++ [x]) } := by
  obtain ⟨init, last, rfl⟩ := (List.eq_nil_or_concat' chars).resolve_left nonempty
  simp [Scan.grow, current, lets.joins last x (all last (by simp)) here]

/-- Characters that are read into the open lexeme: the rest of a literal, or the
rest of a run. -/
theorem scan_lexeme (lets : L.Lets P) (current : s.current = some chars) (nonempty : chars ≠ [])
    (all : ∀ z ∈ chars ++ more, P z)
    (reads : ∀ z ∈ more, L.char z ≠ quote ∧ s.reading = true ∨
      ordinary (L.char z) ∧ s.reading = false) :
    scan L (more ++ rest) s = scan L rest { s with current := some (chars ++ more) } := by
  induction more generalizing s chars with
  | nil => simp [← current]
  | cons x more ih =>
      have here : P x := all x (by simp)
      have grown := Scan.grow_lets lets current nonempty
        (fun z member => all z (List.mem_append_left _ member)) here
      obtain ⟨reads, more'⟩ := List.forall_mem_cons.mp reads
      have step : ScanStep L s x (more ++ rest) (more ++ rest)
          { s with current := some (chars ++ [x]) } := by
        rcases reads with ⟨notQuote, inside⟩ | ⟨plain, outside⟩
        · exact .reads notQuote inside grown
        · exact .grows plain outside current grown
      have onward := ih (s := { s with current := some (chars ++ [x]) }) rfl (by simp)
        (by simpa using all) more'
      rw [List.cons_append, step.scan_eq, onward, List.append_assoc]
      rfl

/-- Before a character that ends a run, and at the end, the open lexeme is flushed. -/
theorem scan_flush (flushed : s.flush L = some s') (outside : s.reading = false)
    (stops : ∀ z ∈ rest.head?, ¬ ordinary (L.char z) ∧ L.char z ≠ quote) :
    scan L rest s = scan L rest s' := by
  obtain ⟨closed, same⟩ := Scan.current_flush flushed
  have again : s'.flush L = some s' := by simp [Scan.flush, closed]
  cases rest with
  | nil => simp [scan, flushed, again]
  | cons x rest =>
      obtain ⟨notPlain, notQuote⟩ := stops x (by simp)
      by_cases white : lfIsWhitespace (L.char x) = true
      · have step : ScanStep L s x rest rest s' := .blank notQuote outside white flushed
        have step' : ScanStep L s' x rest rest s' :=
          .blank notQuote (same.trans outside) white again
        rw [step.scan_eq, step'.scan_eq]
      · have notWhite : lfIsWhitespace (L.char x) = false := by simpa using white
        have hard : lfGetTokenTypeFromHardBoundaryLexeme (L.char x) ≠ .unknown :=
          fun soft => notPlain ⟨notQuote, notWhite, soft⟩
        have step : ScanStep L s x rest rest _ := .boundary notQuote outside notWhite hard flushed
        have step' : ScanStep L s' x rest rest _ :=
          .boundary notQuote (same.trans outside) notWhite hard again
        rw [step.scan_eq, step'.scan_eq]

/-- **A scan makes a token of each segment,** and a lexeme of each literal and each run. -/
theorem scan_segmented (lets : L.Lets P) {text : List γ} {segments : List (Segment γ)}
    (segmented : Segmented L.char text segments) (all : ∀ z ∈ text, P z)
    (tokens : List (Token ℕ)) (past : List (List γ)) :
    scan L text ⟨tokens, past, none, false⟩ =
      some ⟨tokens ++ segmentTokens L.char past.length segments,
        past ++ segments.filterMap Segment.lexeme, none, false⟩ := by
  induction segmented generalizing tokens past with
  | nil => simp [scan, Scan.flush, Scan.emit, segmentTokens]
  | @blank x rest segments white onward ih =>
      have step : ScanStep L ⟨tokens, past, none, false⟩ x rest rest ⟨tokens, past, none, false⟩ :=
        .blank (not_quote_of_white white) rfl white rfl
      rw [step.scan_eq]
      exact ih (fun z member => all z (List.mem_cons_of_mem _ member)) tokens past
  | @boundary x rest segments hard onward ih =>
      have notWhite : lfIsWhitespace (L.char x) = false := by
        by_contra white
        exact hard (hard_of_white (by simpa using white))
      have step : ScanStep L ⟨tokens, past, none, false⟩ x rest rest _ :=
        .boundary (not_quote_of_hard hard) rfl notWhite hard rfl
      rw [step.scan_eq, Scan.emit, ih fun z member => all z (List.mem_cons_of_mem _ member)]
      simp [segmentTokens, Segment.lexeme, List.filterMap_cons]
  | @literal x y chars rest segments opening closing nonempty inside onward ih =>
      obtain ⟨first, others, rfl⟩ := List.exists_cons_of_ne_nil nonempty
      have opens : ScanStep L ⟨tokens, past, none, false⟩ x (first :: (others ++ y :: rest))
          (others ++ y :: rest) ⟨tokens, past, some [first], true⟩ := by
        have opens :
            ScanStep L ⟨tokens, past, none, false⟩ x (first :: (others ++ y :: rest)) _ _ :=
          .opens opening rfl (lets.adjoins x first (all x (by simp)) (all first (by simp)))
        rwa [Scan.start, Scan.lexemes, Option.toList_none, List.append_nil] at opens
      have reads : scan L (others ++ y :: rest) ⟨tokens, past, some [first], true⟩ =
          scan L (y :: rest) ⟨tokens, past, some (first :: others), true⟩ :=
        scan_lexeme lets rfl (List.cons_ne_nil first [])
          (fun z member => all z (List.mem_cons_of_mem _ (List.mem_append_left _ member)))
          fun z member => .inl ⟨inside z (List.mem_cons_of_mem _ member), rfl⟩
      have closes : ScanStep L ⟨tokens, past, some (first :: others), true⟩ y rest rest _ :=
        .closes closing rfl
      rw [List.cons_append, opens.scan_eq, reads, closes.scan_eq, Scan.close, ih]
      · simp [Scan.lexemes, segmentTokens, Segment.lexeme]
      · exact fun z member => all z (by simp [member])
  | @run chars rest segments nonempty plain stops onward ih =>
      obtain ⟨first, others, rfl⟩ := List.exists_cons_of_ne_nil nonempty
      obtain ⟨plainFirst, plain⟩ := List.forall_mem_cons.mp plain
      have starts : ScanStep L ⟨tokens, past, none, false⟩ first (others ++ rest)
          (others ++ rest) ⟨tokens, past, some [first], false⟩ := by
        have starts : ScanStep L ⟨tokens, past, none, false⟩ first (others ++ rest) _ _ :=
          .starts plainFirst rfl rfl
        rwa [Scan.start, Scan.lexemes, Option.toList_none, List.append_nil] at starts
      have reads : scan L (others ++ rest) ⟨tokens, past, some [first], false⟩ =
          scan L rest ⟨tokens, past, some (first :: others), false⟩ :=
        scan_lexeme lets rfl (List.cons_ne_nil first [])
          (fun z member => all z (List.mem_append_left _ member))
          fun z member => .inr ⟨plain z member, rfl⟩
      have comparable := lets.comparable (first :: others)
        fun z member => all z (List.mem_append_left _ member)
      have flushed : Scan.flush L ⟨tokens, past, some (first :: others), false⟩ =
          some ⟨tokens ++ [lexemeToken ((first :: others).map L.char) past.length],
            past ++ [first :: others], none, false⟩ := by
        simp [Scan.flush, comparable, Scan.lexemes]
      rw [List.cons_append, starts.scan_eq, reads, scan_flush flushed rfl stops, ih]
      · simp [segmentTokens, Segment.lexeme]
      · exact fun z member => all z (List.mem_append_right _ member)

end Scanning

end LowFlow
