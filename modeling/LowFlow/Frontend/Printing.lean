import LowFlow.Frontend.Renaming

/-!
# Printing tokens

The way back from tokens to a text. Segments are laid out one after the other, each
behind some white space, of which a run needs some before another run or a literal.
The texts with these segments are exactly their layouts (`segmented_iff_layOut`). A
token that shows the segment it was made of can be printed; however printed tokens
are spaced, the lexer gives them back (`lfLex_printed`). Reprinting a text keeps its
tokens exactly when no name of it is a single character (`lfLex_reprinted_iff`).
-/

set_option autoImplicit false

namespace LowFlow

/-! ## Laying out segments -/

/-- The characters of a segment in a text. -/
def Segment.write : Segment UInt8 → List UInt8
  | .boundary c => [c]
  | .literal chars => quoted chars
  | .run chars => chars

/-- The segments that texts have. -/
def Segment.Writable : Segment UInt8 → Prop
  | .boundary c => lfGetTokenTypeFromHardBoundaryLexeme c ≠ .unknown
  | .literal chars => chars ≠ [] ∧ quote ∉ chars
  | .run chars => chars ≠ [] ∧ ∀ c ∈ chars, ordinary c

/-- Whether the second segment needs white space in front of it: a run ends there only
at a boundary character. -/
def Segment.NeedsBlank : Segment UInt8 → Segment UInt8 → Prop
  | .run _, .boundary _ => False
  | .run _, _ => True
  | _, _ => False

/-- Segments, each behind some white space, and the white space behind the last one. -/
def layOut (parts : List (List UInt8 × Segment UInt8)) (last : List UInt8) : List UInt8 :=
  match parts with
  | [] => last
  | (blank, segment) :: parts => blank ++ (segment.write ++ layOut parts last)

/-- The white space of a layout keeps its segments apart. -/
structure Spaced (parts : List (List UInt8 × Segment UInt8)) (last : List UInt8) : Prop where
  white : ∀ part ∈ parts, ∀ c ∈ part.1, lfIsWhitespace c = true
  ends : ∀ c ∈ last, lfIsWhitespace c = true
  writable : ∀ part ∈ parts, part.2.Writable
  apart : parts.IsChain fun one two => one.2.NeedsBlank two.2 → two.1 ≠ []

section Layouts

variable {parts : List (List UInt8 × Segment UInt8)} {part : List UInt8 × Segment UInt8}
  {last blank text rest : List UInt8} {segments : List (Segment UInt8)}

theorem layOut_ne_nil (nonempty : last ≠ []) : layOut parts last ≠ [] := by
  induction parts with
  | nil => exact nonempty
  | cons part parts ih =>
      obtain ⟨blank, segment⟩ := part
      simp [layOut, ih]

theorem not_ordinary_of_white {c : UInt8} (white : lfIsWhitespace c = true) : ¬ ordinary c := by
  intro plain
  exact Bool.false_ne_true (plain.2.1.symm.trans white)

theorem Spaced.tail (spaced : Spaced (part :: parts) last) : Spaced parts last where
  white := (List.forall_mem_cons.mp spaced.white).2
  ends := spaced.ends
  writable := (List.forall_mem_cons.mp spaced.writable).2
  apart := spaced.apart.tail

/-- A run ends where the rest of its layout begins. -/
theorem Spaced.stops {chars : List UInt8} (spaced : Spaced ((blank, .run chars) :: parts) last) :
    ∀ c ∈ (layOut parts last).head?, ¬ ordinary c ∧ c ≠ quote := by
  have atBlank : ∀ c, lfIsWhitespace c = true → ¬ ordinary c ∧ c ≠ quote := by
    intro c white
    exact ⟨not_ordinary_of_white white, not_quote_of_white white⟩
  intro c atHead
  cases parts with
  | nil => exact atBlank c (spaced.ends c (List.mem_of_mem_head? atHead))
  | cons next parts =>
      obtain ⟨blank', segment⟩ := next
      obtain ⟨needs, -⟩ := List.isChain_cons_cons.mp spaced.apart
      have white := spaced.white _ (List.mem_cons_of_mem _ (List.mem_cons_self ..))
      have writable := spaced.writable _ (List.mem_cons_of_mem _ (List.mem_cons_self ..))
      cases blank' with
      | cons d blank' =>
          obtain rfl : d = c := by simpa [layOut] using atHead
          exact atBlank d (white d (List.mem_cons_self ..))
      | nil =>
          cases segment with
          | boundary d =>
              obtain rfl : d = c := by simpa [layOut, Segment.write] using atHead
              have hard : lfGetTokenTypeFromHardBoundaryLexeme d ≠ .unknown := writable
              exact ⟨fun plain => hard plain.2.2, not_quote_of_hard hard⟩
          | literal chars => exact absurd rfl (needs trivial)
          | run chars => exact absurd rfl (needs trivial)

/-- White space in front of a text adds no segment. -/
theorem Segmented.behind_white (white : ∀ c ∈ blank, lfIsWhitespace c = true)
    (segmented : Segmented id text segments) : Segmented id (blank ++ text) segments := by
  induction blank with
  | nil => exact segmented
  | cons c blank ih =>
      obtain ⟨here, white⟩ := List.forall_mem_cons.mp white
      exact .blank here (ih white)

/-- The segments of a layout. -/
theorem Spaced.segmented (spaced : Spaced parts last) :
    Segmented id (layOut parts last) (parts.map Prod.snd) := by
  induction parts with
  | nil =>
      have ends := (@Segmented.nil _ id).behind_white spaced.ends
      rwa [List.append_nil] at ends
  | cons part parts ih =>
      obtain ⟨blank, segment⟩ := part
      have onward := ih spaced.tail
      have writable := spaced.writable _ (List.mem_cons_self ..)
      apply Segmented.behind_white (spaced.white _ (List.mem_cons_self ..))
      cases segment with
      | boundary c => exact .boundary writable onward
      | literal chars =>
          obtain ⟨nonempty, free⟩ := writable
          have inside : ∀ c ∈ chars, id c ≠ quote := fun c member same => free (same ▸ member)
          rw [Segment.write, quoted, List.cons_append, List.append_assoc]
          exact .literal rfl rfl nonempty inside onward
      | run chars =>
          obtain ⟨nonempty, plain⟩ := writable
          exact .run nonempty plain spaced.stops onward

/-- White space in front of a layout belongs to its first part, or to its end. -/
theorem Spaced.prepend {c : UInt8} (spaced : Spaced parts last)
    (white : lfIsWhitespace c = true) : ∃ parts' last', Spaced parts' last' ∧
      layOut parts' last' = c :: layOut parts last ∧ parts'.map Prod.snd = parts.map Prod.snd := by
  cases parts with
  | nil =>
      have ends : ∀ d ∈ c :: last, lfIsWhitespace d = true :=
        List.forall_mem_cons.mpr ⟨white, spaced.ends⟩
      exact ⟨[], c :: last, ⟨by simp, ends, by simp, .nil⟩, rfl, rfl⟩
  | cons part parts =>
      obtain ⟨blank, segment⟩ := part
      obtain ⟨here, others⟩ := List.forall_mem_cons.mp spaced.white
      have whites : ∀ part ∈ (c :: blank, segment) :: parts, ∀ d ∈ part.1,
          lfIsWhitespace d = true :=
        List.forall_mem_cons.mpr ⟨List.forall_mem_cons.mpr ⟨white, here⟩, others⟩
      have writable : ∀ part ∈ (c :: blank, segment) :: parts, part.2.Writable :=
        List.forall_mem_cons.mpr (List.forall_mem_cons.mp spaced.writable)
      refine ⟨(c :: blank, segment) :: parts, last, ⟨whites, spaced.ends, writable, ?_⟩, rfl, rfl⟩
      have apart := spaced.apart
      cases parts with
      | nil => exact .singleton _
      | cons next parts => exact List.isChain_cons_cons.mpr (List.isChain_cons_cons.mp apart)

/-- A segment without white space in front of a layout. -/
theorem Spaced.cons (segment : Segment UInt8) (spaced : Spaced parts last)
    (writable : segment.Writable)
    (apart : ∀ next ∈ parts.head?, segment.NeedsBlank next.2 → next.1 ≠ []) :
    Spaced (([], segment) :: parts) last where
  white := List.forall_mem_cons.mpr ⟨by simp, spaced.white⟩
  ends := spaced.ends
  writable := List.forall_mem_cons.mpr ⟨writable, spaced.writable⟩
  apart := by
    cases parts with
    | nil => exact .singleton _
    | cons next parts =>
        exact List.isChain_cons_cons.mpr ⟨apart next (by simp), spaced.apart⟩

/-- A text with segments is a layout of them. -/
theorem Segmented.exists_layOut (segmented : Segmented id text segments) :
    ∃ parts last, Spaced parts last ∧ layOut parts last = text ∧
      parts.map Prod.snd = segments := by
  induction segmented with
  | nil => exact ⟨[], [], ⟨by simp, by simp, by simp, .nil⟩, rfl, rfl⟩
  | blank white onward ih =>
      obtain ⟨parts, last, spaced, rfl, rfl⟩ := ih
      exact spaced.prepend white
  | @boundary c rest segments hard onward ih =>
      obtain ⟨parts, last, spaced, rfl, rfl⟩ := ih
      have spaced' := spaced.cons (.boundary c) hard fun next _ needs => needs.elim
      exact ⟨_, last, spaced', rfl, rfl⟩
  | @literal x y chars rest segments opening closing nonempty inside onward ih =>
      obtain ⟨parts, last, spaced, rfl, rfl⟩ := ih
      obtain rfl : x = quote := opening
      obtain rfl : y = quote := closing
      have free : quote ∉ chars := fun member => inside quote member rfl
      have spaced' := spaced.cons (.literal chars) ⟨nonempty, free⟩
        fun next _ needs => needs.elim
      exact ⟨_, last, spaced', by simp [layOut, Segment.write, quoted], rfl⟩
  | @run chars rest segments nonempty plain stops onward ih =>
      obtain ⟨parts, last, spaced, rfl, rfl⟩ := ih
      have spaced' := spaced.cons (.run chars) ⟨nonempty, plain⟩ ?_
      · exact ⟨_, last, spaced', rfl, rfl⟩
      rintro ⟨blank, next⟩ atHead needs rfl
      obtain ⟨parts, rfl⟩ := List.head?_eq_some_iff.mp atHead
      have writable := spaced.writable _ (List.mem_cons_self ..)
      cases next with
      | boundary d => exact needs
      | literal more => exact (stops quote (by simp [layOut, Segment.write, quoted])).2 rfl
      | run more =>
          obtain ⟨some, plain'⟩ := writable
          obtain ⟨d, more, rfl⟩ := List.exists_cons_of_ne_nil some
          exact (stops d (by simp [layOut, Segment.write])).1 (plain' d (List.mem_cons_self ..))

/-- **The texts with some segments are the layouts of them.** -/
theorem segmented_iff_layOut : Segmented id text segments ↔
    ∃ parts last, Spaced parts last ∧ layOut parts last = text ∧ parts.map Prod.snd = segments := by
  constructor
  · exact Segmented.exists_layOut
  · rintro ⟨parts, last, spaced, rfl, rfl⟩
    exact spaced.segmented

/-- A text with segments does not end with an opening quote. -/
theorem Segmented.closed (segmented : Segmented id text segments) :
    opensAtEnd false text = false := by
  induction segmented with
  | nil => rfl
  | blank white onward ih =>
      exact (opensAtEnd_other (not_quote_of_white white) false _).trans ih
  | boundary hard onward ih =>
      exact (opensAtEnd_other (not_quote_of_hard hard) false _).trans ih
  | @literal x y chars rest segments opening closing nonempty inside onward ih =>
      obtain rfl : x = quote := opening
      obtain rfl : y = quote := closing
      have free : quote ∉ chars := fun member => inside quote member rfl
      have whole : quote :: (chars ++ quote :: rest) = quoted chars ++ rest := by simp [quoted]
      rwa [whole, opensAtEnd_quoted nonempty free]
  | run nonempty plain stops onward ih =>
      rwa [opensAtEnd_quoteFree fun member => (plain quote member).1 rfl]

end Layouts

/-- The lexer shows the segments of a text. -/
theorem LFString.Spells.lexes_segmented {src : LFString UInt8} {deck : Deck UInt8}
    {text : List UInt8} {segments : List (Segment UInt8)} (spells : src.Spells deck text)
    (nonempty : text ≠ []) (segmented : Segmented id text segments) :
    src.Lexes deck (segments.map Segment.seen ++ [eofSeen]) := by
  obtain ⟨result, scanned, lexes⟩ := lexes_of_closed spells nonempty segmented.closed
  have made := scan_segmented Layout.free_lets segmented (fun _ _ => trivial) [] []
  obtain rfl := Option.some.inj (scanned.symm.trans made)
  have shown := seen_segmentTokens segments []
  rw [← shown]
  exact lexes

/-! ## Printing tokens -/

/-- The token shows that it was made of this segment. -/
inductive Seen.Printed : Seen → Segment UInt8 → Prop where
  | name {chars : List UInt8} (isName : IsName chars) (long : 2 ≤ chars.length) :
      Printed ⟨.identifier, some chars⟩ (.run chars)
  | literal {chars : List UInt8} (nonempty : chars ≠ []) (free : quote ∉ chars) :
      Printed ⟨.str, some chars⟩ (.literal chars)
  | use : Printed ⟨.use, none⟩ (.run useWord)
  | func : Printed ⟨.func, none⟩ (.run funcWord)
  | entry : Printed ⟨.entry, none⟩ (.run entryWord)
  | equal : Printed ⟨.equal, none⟩ (.run [61])
  | bang : Printed ⟨.bang, none⟩ (.run [33])
  | boundary {c : UInt8} (hard : lfGetTokenTypeFromHardBoundaryLexeme c ≠ .unknown) :
      Printed ⟨lfGetTokenTypeFromHardBoundaryLexeme c, none⟩ (.boundary c)

/-- The segment that a token is printed as. -/
def Seen.segment (seen : Seen) : Option (Segment UInt8) :=
  match seen.type with
  | .unknown => none
  | .identifier => seen.content.map .run
  | .str => seen.content.map .literal
  | .use => some (.run useWord)
  | .entry => some (.run entryWord)
  | .func => some (.run funcWord)
  | .comma => some (.boundary 44)
  | .equal => some (.run [61])
  | .slash => some (.boundary 47)
  | .colon => some (.boundary 58)
  | .bang => some (.run [33])
  | .parenBeg => some (.boundary 40)
  | .parenEnd => some (.boundary 41)
  | .braceBeg => some (.boundary 123)
  | .braceEnd => some (.boundary 125)
  | .eof => none

/-- The text of tokens: each behind a space, and a line feed at the end. -/
def printTokens (tokens : List Seen) : List UInt8 :=
  layOut ((tokens.filterMap Seen.segment).map fun segment => ([32], segment)) [10]

section Printing

variable {seen : Seen} {segment : Segment UInt8} {segments : List (Segment UInt8)}

/-- The keywords are runs. -/
theorem ordinary_words : (∀ c ∈ useWord, ordinary c) ∧ (∀ c ∈ funcWord, ordinary c) ∧
    ∀ c ∈ entryWord, ordinary c := by
  simp only [useWord, funcWord, entryWord, List.forall_mem_cons, List.not_mem_nil,
    false_imp_iff, implies_true, and_true]
  decide

/-- A printed token is the one of its segment. -/
theorem Seen.Printed.shown (printed : seen.Printed segment) :
    segment.seen = seen ∧ segment.Writable := by
  cases printed with
  | name isName long => exact ⟨isName.shown_iff.mpr long, isName.nonempty, isName.plain⟩
  | literal nonempty free => exact ⟨rfl, nonempty, free⟩
  | use => exact ⟨rfl, by decide, ordinary_words.1⟩
  | func => exact ⟨rfl, by decide, ordinary_words.2.1⟩
  | entry => exact ⟨rfl, by decide, ordinary_words.2.2⟩
  | equal => exact ⟨rfl, by decide, List.forall_mem_singleton.mpr (by decide)⟩
  | bang => exact ⟨rfl, by decide, List.forall_mem_singleton.mpr (by decide)⟩
  | boundary hard => exact ⟨rfl, hard⟩

/-- Printed tokens are the ones of their segments. -/
theorem printed_all {tokens : List Seen} (printed : List.Forall₂ Seen.Printed tokens segments) :
    segments.map Segment.seen = tokens ∧ ∀ segment ∈ segments, segment.Writable := by
  induction printed with
  | nil => exact ⟨rfl, by simp⟩
  | cons here printed ih =>
      obtain ⟨shown, writable⟩ := here.shown
      exact ⟨by rw [List.map_cons, shown, ih.1], List.forall_mem_cons.mpr ⟨writable, ih.2⟩⟩

/-- A printed token is printed as its segment. -/
theorem Seen.Printed.segment_eq (printed : seen.Printed segment) :
    seen.segment = some segment := by
  cases printed with
  | @boundary c hard =>
      simp only [lfGetTokenTypeFromHardBoundaryLexeme] at hard ⊢
      split_ifs at hard ⊢ with h₁ h₂ h₃ h₄ h₅ h₆ h₇
      all_goals first | exact absurd rfl hard | subst c; rfl
  | _ => rfl

/-- A name of a single character. -/
def Segment.IsShortName : Segment UInt8 → Prop
  | .run chars => IsName chars ∧ chars.length < 2
  | _ => False

/-- The token of any other segment is printed as this segment. -/
theorem Segment.Writable.printed (writable : segment.Writable) (long : ¬ segment.IsShortName) :
    segment.seen.Printed segment := by
  cases segment with
  | boundary c => exact .boundary writable
  | literal chars => exact .literal writable.1 writable.2
  | run chars =>
      by_cases special : chars ∈ [useWord, funcWord, entryWord, [61], [33]]
      · simp only [List.mem_cons, List.not_mem_nil, or_false] at special
        rcases special with rfl | rfl | rfl | rfl | rfl
        · exact .use
        · exact .func
        · exact .entry
        · exact .equal
        · exact .bang
      · have isName : IsName chars := ⟨writable.1, writable.2, special⟩
        have several : 2 ≤ chars.length := Nat.le_of_not_lt fun short => long ⟨isName, short⟩
        have shown : Segment.seen (.run chars) = ⟨.identifier, some chars⟩ :=
          isName.shown_iff.mpr several
        rw [shown]
        exact .name isName several

/-- The token of a name of a single character is printed as nothing. -/
theorem Segment.IsShortName.lost (short : segment.IsShortName) : segment.seen.segment = none := by
  cases segment with
  | boundary c => exact short.elim
  | literal chars => exact short.elim
  | run chars =>
      obtain ⟨⟨nonempty, plain, free⟩, length⟩ := short
      obtain ⟨c, others, rfl⟩ := List.exists_cons_of_ne_nil nonempty
      obtain rfl : others = [] := by
        apply List.eq_nil_of_length_eq_zero
        rw [List.length_cons] at length
        omega
      obtain ⟨notEqual, notBang⟩ : c ≠ 61 ∧ c ≠ 33 := by
        simp only [List.mem_cons, not_or, List.cons.injEq, and_true] at free
        exact ⟨free.2.2.2.1, free.2.2.2.2.1⟩
      have hard : lfGetTokenTypeFromHardBoundaryLexeme c = .unknown :=
        (plain c (List.mem_cons_self ..)).2.2
      simp [Segment.seen, lexemeSeen, charType, lfGetTokenTypeFromSoftBoundaryLexeme, notEqual,
        notBang, hard, Seen.segment]

/-- **Lexing printed tokens.** However tokens are printed with white space between
them, the lexer gives them back. -/
theorem lfLex_printed {parts : List (List UInt8 × Segment UInt8)} {last : List UInt8}
    {tokens : List Seen} (printed : List.Forall₂ Seen.Printed tokens (parts.map Prod.snd))
    (white : ∀ part ∈ parts, ∀ c ∈ part.1, lfIsWhitespace c = true)
    (ends : ∀ c ∈ last, lfIsWhitespace c = true)
    (apart : parts.IsChain fun one two => one.2.NeedsBlank two.2 → two.1 ≠ [])
    (nonempty : layOut parts last ≠ []) {src : LFString UInt8} {deck : Deck UInt8}
    (spells : src.Spells deck (layOut parts last)) : src.Lexes deck (tokens ++ [eofSeen]) := by
  obtain ⟨shown, writable⟩ := printed_all printed
  have spaced : Spaced parts last := ⟨white, ends, List.forall_mem_map.mp writable, apart⟩
  rw [← shown]
  exact spells.lexes_segmented nonempty spaced.segmented

/-- The tokens of `use "a"`, a tabulator and `fo(`. -/
theorem lfLex_printed_use : ∃ (src : LFString UInt8) (deck : Deck UInt8),
    src.Spells deck [117, 115, 101, 32, 34, 97, 34, 9, 102, 111, 40] ∧
    src.Lexes deck ([⟨.use, none⟩, ⟨.str, some [97]⟩, ⟨.identifier, some [102, 111]⟩,
      ⟨.parenBeg, none⟩] ++ [eofSeen]) := by
  have isName : IsName [102, 111] := by
    refine ⟨by decide, ?_, by decide⟩
    rw [List.forall_mem_cons, List.forall_mem_singleton]
    decide
  have boundary : Seen.Printed ⟨.parenBeg, none⟩ (.boundary 40) :=
    @Seen.Printed.boundary 40 (by decide)
  have printed : List.Forall₂ Seen.Printed
      [⟨.use, none⟩, ⟨.str, some [97]⟩, ⟨.identifier, some [102, 111]⟩, ⟨.parenBeg, none⟩]
      [.run useWord, .literal [97], .run [102, 111], .boundary 40] :=
    .cons .use (.cons (.literal (by decide) (by decide)) (.cons (.name isName (by decide))
      (.cons boundary .nil)))
  let parts : List (List UInt8 × Segment UInt8) :=
    [([], .run useWord), ([32], .literal [97]), ([9], .run [102, 111]), ([], .boundary 40)]
  have apart : parts.IsChain fun one two => one.2.NeedsBlank two.2 → two.1 ≠ [] :=
    .cons_cons (fun _ => List.cons_ne_nil 32 []) (.cons_cons (fun _ => List.cons_ne_nil 9 [])
      (.cons_cons (fun needs => needs.elim) (.singleton _)))
  obtain ⟨src, deck, spells⟩ := @exists_spells [117, 115, 101, 32, 34, 97, 34, 9, 102, 111, 40]
    (by decide) 16 (by decide) (by decide)
  have white : ∀ part ∈ parts, ∀ c ∈ part.1, lfIsWhitespace c = true := by
    simp only [parts, List.forall_mem_cons, List.not_mem_nil, false_imp_iff, implies_true, and_true]
    decide
  exact ⟨src, deck, spells, @lfLex_printed parts [] _ printed white (List.forall_mem_nil _) apart
    (by decide) src deck spells⟩

/-- The segments that the tokens of a text are printed as: all but the names of a single
character. -/
theorem filterMap_segment (writable : ∀ segment ∈ segments, segment.Writable) :
    (segments.map Segment.seen).filterMap Seen.segment =
        segments ∧ (∀ segment ∈ segments, ¬ segment.IsShortName) ∨
      ((segments.map Segment.seen).filterMap Seen.segment).Sublist segments ∧
        ((segments.map Segment.seen).filterMap Seen.segment).length < segments.length ∧
        ∃ segment ∈ segments, segment.IsShortName := by
  induction segments with
  | nil => exact .inl ⟨rfl, by simp⟩
  | cons segment segments ih =>
      obtain ⟨here, writable⟩ := List.forall_mem_cons.mp writable
      by_cases short : segment.IsShortName
      · rw [List.map_cons, List.filterMap_cons_none short.lost]
        refine .inr ⟨?_, ?_, segment, List.mem_cons_self .., short⟩
        · rcases ih writable with ⟨same, -⟩ | ⟨sublist, -⟩
          · rw [same]
            exact List.sublist_cons_self ..
          · exact sublist.cons _
        · rcases ih writable with ⟨same, -⟩ | ⟨-, fewer, -⟩
          · rw [same]
            exact Nat.lt_succ_self _
          · exact Nat.lt_succ_of_lt fewer
      · rw [List.map_cons, List.filterMap_cons_some (here.printed short).segment_eq]
        rcases ih writable with ⟨same, long⟩ | ⟨sublist, fewer, other, member, isShort⟩
        · rw [same]
          exact .inl ⟨rfl, List.forall_mem_cons.mpr ⟨short, long⟩⟩
        · exact .inr ⟨sublist.cons_cons _, Nat.succ_lt_succ fewer, other,
            List.mem_cons_of_mem _ member, isShort⟩

/-- The segments of the text that tokens are printed as. -/
theorem segmented_printTokens {tokens : List Seen}
    (writable : ∀ segment ∈ tokens.filterMap Seen.segment, segment.Writable) :
    Segmented id (printTokens tokens) (tokens.filterMap Seen.segment) := by
  have spaced : Spaced ((tokens.filterMap Seen.segment).map fun segment => ([32], segment))
      [10] := by
    refine ⟨?_, List.forall_mem_singleton.mpr rfl, List.forall_mem_map.mpr writable, ?_⟩
    · rw [List.forall_mem_map]
      intro segment member
      exact List.forall_mem_singleton.mpr rfl
    · rw [List.isChain_map]
      apply List.Pairwise.isChain
      apply List.pairwise_of_forall
      intro one two needs
      exact List.cons_ne_nil 32 []
  have segmented := spaced.segmented
  rwa [List.map_map, show Prod.snd ∘ (fun segment => (([32] : List UInt8), segment)) = id from rfl,
    List.map_id] at segmented

/-- **Reprinting a text keeps its tokens** exactly when no name of the text is a single
character. -/
theorem lfLex_reprinted_iff {text : List UInt8} (quoted : WellQuoted id text)
    (nonempty : text ≠ []) {src : LFString UInt8} {deck : Deck UInt8}
    (spells : src.Spells deck text) :
    ∃ tokens, src.Lexes deck (tokens ++ [eofSeen]) ∧
      ∀ src' deck', LFString.Spells src' deck' (printTokens tokens) →
        (src'.Lexes deck' (tokens ++ [eofSeen]) ↔
          ∀ chars, HasRun text chars → IsName chars → 2 ≤ chars.length) := by
  obtain ⟨segments, segmented⟩ := quoted.segmented
  have lexes := spells.lexes_segmented nonempty segmented
  refine ⟨segments.map Segment.seen, lexes, ?_⟩
  intro src' deck' spells'
  have writable : ∀ segment ∈ segments, segment.Writable := by
    obtain ⟨parts, last, spaced, -, rfl⟩ := segmented.exists_layOut
    exact List.forall_mem_map.mpr spaced.writable
  have relexes : ∀ kept, (segments.map Segment.seen).filterMap Seen.segment = kept →
      kept.Sublist segments → src'.Lexes deck' (kept.map Segment.seen ++ [eofSeen]) := by
    rintro kept rfl sublist
    have segmented' := segmented_printTokens fun segment member =>
      writable segment (sublist.subset member)
    exact spells'.lexes_segmented (layOut_ne_nil (List.cons_ne_nil 10 [])) segmented'
  rcases filterMap_segment writable with ⟨same, long⟩ | ⟨sublist, fewer, other, member, short⟩
  · apply iff_of_true (relexes segments same (List.Sublist.refl _))
    rintro chars ⟨others, segmented', member⟩ isName
    obtain rfl := segmented'.unique segmented
    exact Nat.le_of_not_lt fun short => long _ member ⟨isName, short⟩
  · apply iff_of_false
    · intro again
      have tokens := again.unique (relexes _ rfl sublist)
      have lengths := congrArg List.length (List.append_cancel_right tokens)
      rw [List.length_map, List.length_map] at lengths
      omega
    · intro long
      cases other with
      | boundary c => exact short
      | literal chars => exact short
      | run chars =>
          have several := long chars ⟨segments, segmented, member⟩ short.1
          exact absurd short.2 (Nat.not_lt.mpr several)

/-- The text `ab "c"`. -/
theorem lfLex_reprinted_iff_literal : ∃ (src : LFString UInt8) (deck : Deck UInt8),
    src.Spells deck [97, 98, 32, 34, 99, 34] ∧
    ∃ tokens, src.Lexes deck (tokens ++ [eofSeen]) ∧
      ∀ src' deck', LFString.Spells src' deck' (printTokens tokens) →
        (src'.Lexes deck' (tokens ++ [eofSeen]) ↔
          ∀ chars, HasRun [97, 98, 32, 34, 99, 34] chars → IsName chars → 2 ≤ chars.length) := by
  obtain ⟨src, deck, spells⟩ := @exists_spells [97, 98, 32, 34, 99, 34] (by decide) 16 (by decide)
    (by decide)
  exact ⟨src, deck, spells, lfLex_reprinted_iff (by decide) (by decide) spells⟩

end Printing

end LowFlow
