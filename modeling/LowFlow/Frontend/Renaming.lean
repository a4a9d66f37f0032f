import LowFlow.Frontend.Literals

/-!
# Renaming

A text without quotes is a sequence of boundary characters and runs, and the runs
that are no keyword, no `=` and no `!` are its names. Replacing a name everywhere
replaces runs by runs, so the segments of the new text are those of the old one up
to that name (`Segmented.rename`). The types of the tokens are the same before and
after, and each name is an identifier, exactly when no name is a single character
(`lfLex_renames_iff`).
-/

set_option autoImplicit false

namespace LowFlow

/-! ## Names -/

/-- A run that is no keyword, no `=` and no `!`. -/
structure IsName (chars : List UInt8) : Prop where
  nonempty : chars ≠ []
  plain : ∀ c ∈ chars, ordinary c
  free : chars ∉ [useWord, funcWord, entryWord, [61], [33]]

/-- The text has this maximal run. -/
def HasRun (text chars : List UInt8) : Prop :=
  ∃ segments, Segmented id text segments ∧ Segment.run chars ∈ segments

/-- A run, with a name replaced. -/
def renameRun (name name' run : List UInt8) : List UInt8 :=
  if run = name then name' else run

/-- The text with each maximal run that is the name replaced, where a run has begun
with these characters. -/
def renameFrom (name name' : List UInt8) : List UInt8 → List UInt8 → List UInt8
  | run, [] => renameRun name name' run
  | run, c :: rest =>
      if ordinary c then renameFrom name name' (run ++ [c]) rest
      else renameRun name name' run ++ c :: renameFrom name name' [] rest

/-- The text with each maximal run that is the name replaced. -/
def rename (name name' text : List UInt8) : List UInt8 :=
  renameFrom name name' [] text

/-- In `use ab(ab)abc` the name `ab` stands twice. -/
example : rename [97, 98] [122] [117, 115, 101, 32, 97, 98, 40, 97, 98, 41, 97, 98, 99] =
    [117, 115, 101, 32, 122, 40, 122, 41, 97, 98, 99] := by decide

/-- A segment, with a name replaced. -/
def Segment.rename (name name' : List UInt8) : Segment UInt8 → Segment UInt8
  | .run chars => .run (renameRun name name' chars)
  | other => other

section Renaming

variable {name name' run chars rest text : List UInt8}

/-- A text of one run. -/
theorem Segmented.single (nonempty : text ≠ []) (plain : ∀ c ∈ text, ordinary c) :
    Segmented id text [.run text] := by
  have segmented : Segmented id (text ++ []) [.run text] := .run nonempty plain (by simp) .nil
  rwa [List.append_nil] at segmented

/-- The characters of a run are read into it. -/
theorem renameFrom_run (plain : ∀ c ∈ chars, ordinary c) :
    renameFrom name name' run (chars ++ rest) = renameFrom name name' (run ++ chars) rest := by
  induction chars generalizing run with
  | nil => simp
  | cons c chars ih =>
      obtain ⟨here, plain⟩ := List.forall_mem_cons.mp plain
      rw [List.cons_append, renameFrom, if_pos here, ih plain]
      simp

/-- Where no run goes on, the run is replaced and the rest of the text is renamed. -/
theorem renameFrom_stops (nonempty : name ≠ []) (stops : ∀ c ∈ rest.head?, ¬ ordinary c) :
    renameFrom name name' run rest = renameRun name name' run ++ rename name name' rest := by
  have nothing : renameRun name name' [] = [] := if_neg nonempty.symm
  cases rest with
  | nil => simp [rename, renameFrom, nothing]
  | cons c rest =>
      have here : ¬ ordinary c := stops c (by simp)
      simp [rename, renameFrom, here, nothing]

theorem rename_cons (nonempty : name ≠ []) {c : UInt8} (other : ¬ ordinary c) :
    rename name name' (c :: rest) = c :: rename name name' rest := by
  have nothing : renameRun name name' [] = [] := if_neg nonempty.symm
  simp [rename, renameFrom, other, nothing]

/-- The name does not contain the character, so renaming does not add it. -/
theorem not_mem_renameFrom {c : UInt8} (free : c ∉ name') (notInRun : c ∉ run) (notIn : c ∉ text) :
    c ∉ renameFrom name name' run text := by
  have kept : ∀ run : List UInt8, c ∉ run → c ∉ renameRun name name' run := by
    intro run notInRun
    rw [renameRun]
    split
    · exact free
    · exact notInRun
  induction text generalizing run with
  | nil => exact kept run notInRun
  | cons d text ih =>
      obtain ⟨other, notIn⟩ := List.ne_and_not_mem_of_not_mem_cons notIn
      rw [renameFrom]
      split
      · exact ih (by simp [notInRun, other]) notIn
      · simp [kept run notInRun, other, ih List.not_mem_nil notIn]

/-- **The segments of the renamed text.** -/
theorem Segmented.rename {segments : List (Segment UInt8)} (segmented : Segmented id text segments)
    (nonempty : name ≠ []) (isName : IsName name') (quoteFree : quote ∉ text) :
    Segmented id (LowFlow.rename name name' text) (segments.map (Segment.rename name name')) := by
  induction segmented with
  | nil =>
      rw [LowFlow.rename, renameFrom, renameRun, if_neg nonempty.symm]
      exact .nil
  | @blank c rest segments white onward ih =>
      have other : ¬ ordinary c := fun plain => by simp [plain.2.1] at white
      rw [rename_cons nonempty other]
      exact .blank white (ih (List.not_mem_of_not_mem_cons quoteFree))
  | @boundary c rest segments hard onward ih =>
      have other : ¬ ordinary c := fun plain => hard plain.2.2
      rw [rename_cons nonempty other]
      exact .boundary hard (ih (List.not_mem_of_not_mem_cons quoteFree))
  | literal opening closing nonempty inside onward ih =>
      exact absurd opening (Ne.symm (List.ne_of_not_mem_cons quoteFree))
  | @run chars rest segments filled plain stops onward ih =>
      have ends : ∀ c ∈ rest.head?, ¬ ordinary c := fun c atHead => (stops c atHead).1
      rw [LowFlow.rename, renameFrom_run plain, List.nil_append, renameFrom_stops nonempty ends]
      refine .run ?_ ?_ ?_ (ih fun inRest => quoteFree (List.mem_append_right _ inRest))
      · rw [renameRun]
        split
        · exact isName.nonempty
        · exact filled
      · rw [renameRun]
        split
        · exact isName.plain
        · exact plain
      · cases rest with
        | nil =>
            rw [LowFlow.rename, renameFrom, renameRun, if_neg nonempty.symm]
            exact stops
        | cons c rest =>
            rw [rename_cons nonempty (ends c (by simp))]
            exact stops

end Renaming

/-! ## The tokens of the segments -/

/-- What the token of a segment shows. -/
def Segment.seen : Segment UInt8 → Seen
  | .boundary c => ⟨lfGetTokenTypeFromHardBoundaryLexeme c, none⟩
  | .literal chars => literalSeen chars
  | .run chars => lexemeSeen chars

/-- What the tokens of the segments show, where some lexemes come before. -/
theorem seen_segmentTokens (segments : List (Segment UInt8)) (past : List (List UInt8)) :
    (segmentTokens id past.length segments).map
        (Token.seen (past ++ segments.filterMap Segment.lexeme)) =
      segments.map Segment.seen ++ [eofSeen] := by
  induction segments generalizing past with
  | nil => rfl
  | cons segment segments ih =>
      cases segment with
      | boundary c =>
          rw [List.filterMap_cons_none rfl]
          simpa [segmentTokens, Segment.seen, Token.seen] using ih past
      | literal chars =>
          have onward := ih (past ++ [chars])
          simp only [List.length_append, List.length_singleton, List.append_assoc] at onward
          simpa [segmentTokens, Segment.lexeme, Segment.seen, Token.seen, literalSeen] using onward
      | run chars =>
          have onward := ih (past ++ [chars])
          simp only [List.length_append, List.length_singleton, List.append_assoc] at onward
          have here : (lexemeToken chars past.length).seen
              (past ++ chars :: segments.filterMap Segment.lexeme) = lexemeSeen chars := by
            rw [lexemeToken, lexemeSeen]
            split_ifs <;> simp [Token.seen]
          simpa [segmentTokens, Segment.lexeme, Segment.seen, here] using onward

section Lexing

variable {src : LFString UInt8} {deck : Deck UInt8} {text : List UInt8}

/-- The lexer shows the segments of a text without quotes. -/
theorem LFString.Spells.lexes_segments (spells : src.Spells deck text) (nonempty : text ≠ [])
    (quoteFree : quote ∉ text) {segments : List (Segment UInt8)}
    (segmented : Segmented id text segments) :
    src.Lexes deck (segments.map Segment.seen ++ [eofSeen]) := by
  have closed : opensAtEnd false text = false := by
    rw [← List.append_nil text, opensAtEnd_quoteFree quoteFree]
    rfl
  obtain ⟨result, scanned, lexes⟩ := lexes_of_closed spells nonempty closed
  have made := scan_segmented Layout.free_lets segmented (fun _ _ => trivial) [] []
  obtain rfl := Option.some.inj (scanned.symm.trans made)
  have shown := seen_segmentTokens segments []
  rw [← shown]
  exact lexes

end Lexing

/-! ## Renaming a source -/

/-- Each name of the text is shown as an identifier, in its place. -/
def NamesShown (text : List UInt8) (seen : List Seen) : Prop :=
  ∀ segments, Segmented id text segments → ∀ (i : ℕ) (chars : List UInt8),
    segments[i]? = some (.run chars) → IsName chars → seen[i]? = some ⟨.identifier, some chars⟩

/-- The lexer makes tokens of the same types of both sources, and identifiers of the
names of their texts. -/
def RenamesWell (src src' : LFString UInt8) (deck deck' : Deck UInt8) (text text' : List UInt8) :
    Prop :=
  ∃ seen seen', src.Lexes deck seen ∧ src'.Lexes deck' seen' ∧
    seen.map Seen.type = seen'.map Seen.type ∧ NamesShown text seen ∧ NamesShown text' seen'

section Names

variable {text chars name name' : List UInt8}

/-- A name is shown as an identifier when it has several characters. -/
theorem IsName.shown_iff (isName : IsName chars) :
    lexemeSeen chars = ⟨.identifier, some chars⟩ ↔ 2 ≤ chars.length := by
  obtain ⟨-, -, free⟩ := isName
  simp only [List.mem_cons, List.not_mem_nil, or_false, not_or] at free
  have word : wordType chars = .identifier := by simp [wordType, free]
  rw [lexemeSeen]
  split
  · rename_i short
    exact iff_of_false (by simp) (by omega)
  · rename_i long
    exact iff_of_true (by simp [word]) (by omega)

/-- The names of a text are shown as identifiers when they have several characters. -/
theorem namesShown_iff {segments : List (Segment UInt8)} (segmented : Segmented id text segments) :
    NamesShown text (segments.map Segment.seen ++ [eofSeen]) ↔
      ∀ chars, Segment.run chars ∈ segments → IsName chars → 2 ≤ chars.length := by
  have place : ∀ (i : ℕ) (chars : List UInt8), segments[i]? = some (.run chars) →
      (segments.map Segment.seen ++ [eofSeen])[i]? = some (lexemeSeen chars) := by
    intro i chars here
    have bound := (List.getElem?_eq_some_iff.mp here).1
    rw [List.getElem?_append_left (by simpa using bound), List.getElem?_map, here]
    rfl
  constructor
  · intro shown chars member isName
    obtain ⟨i, here⟩ := List.mem_iff_getElem?.mp member
    have seen := shown segments segmented i chars here isName
    rw [place i chars here, Option.some.injEq] at seen
    exact isName.shown_iff.mp seen
  · intro long others segmented' i chars here isName
    obtain rfl := segmented'.unique segmented
    rw [place i chars here, isName.shown_iff.mpr (long chars (List.mem_of_getElem? here) isName)]

/-- The runs of the renamed text: the other ones, and the new name. -/
theorem run_mem_rename {segments : List (Segment UInt8)} (occurs : Segment.run name ∈ segments)
    (run : List UInt8) : Segment.run run ∈ segments.map (Segment.rename name name') ↔
      run = name' ∨ run ≠ name ∧ Segment.run run ∈ segments := by
  constructor
  · intro member
    obtain ⟨segment, inside, same⟩ := List.mem_map.mp member
    cases segment with
    | boundary c => cases same
    | literal chars => cases same
    | run chars =>
        obtain rfl : renameRun name name' chars = run := Segment.run.inj same
        by_cases here : chars = name
        · exact .inl (if_pos here)
        · rw [renameRun, if_neg here]
          exact .inr ⟨here, inside⟩
  · rintro (rfl | ⟨other, inside⟩)
    · exact List.mem_map.mpr ⟨_, occurs, by simp [Segment.rename, renameRun]⟩
    · exact List.mem_map.mpr ⟨_, inside, by simp [Segment.rename, renameRun, other]⟩

end Names

/-- **The types of the tokens do not depend on how names are spelled** exactly when each
name has several characters: those of the text, and the new one. -/
theorem lfLex_renames_iff {text name name' : List UInt8} {src src' : LFString UInt8}
    {deck deck' : Deck UInt8} (quoteFree : quote ∉ text) (isName : IsName name)
    (occurs : HasRun text name) (isName' : IsName name') (spells : src.Spells deck text)
    (spells' : src'.Spells deck' (rename name name' text)) :
    RenamesWell src src' deck deck' text (rename name name' text) ↔
      (∀ chars, HasRun text chars → IsName chars → 2 ≤ chars.length) ∧ 2 ≤ name'.length := by
  obtain ⟨segments, segmented, here⟩ := occurs
  have renamed := segmented.rename isName.nonempty isName' quoteFree
  have inNew : quote ∉ name' := fun member => (isName'.plain _ member).1 rfl
  have nonempty : ∀ {t : List UInt8} {parts : List (Segment UInt8)} {run : List UInt8},
      Segmented id t parts → Segment.run run ∈ parts → t ≠ [] := by
    rintro t parts run split inside rfl
    rw [split.eq_nil] at inside
    cases inside
  have there : Segment.run name' ∈ segments.map (Segment.rename name name') :=
    (run_mem_rename here name').mpr (.inl rfl)
  have lexes := spells.lexes_segments (nonempty segmented here) quoteFree segmented
  have lexes' := spells'.lexes_segments (nonempty renamed there)
    (not_mem_renameFrom inNew List.not_mem_nil quoteFree) renamed
  have runs : (∀ chars, HasRun text chars → IsName chars → 2 ≤ chars.length) ↔
      ∀ chars, Segment.run chars ∈ segments → IsName chars → 2 ≤ chars.length := by
    constructor
    · intro long chars member
      exact long chars ⟨segments, segmented, member⟩
    · rintro long chars ⟨others, segmented', member⟩
      exact long chars (segmented.unique segmented' ▸ member)
  rw [runs]
  constructor
  · rintro ⟨seen, seen', shown, shown', -, names, names'⟩
    rw [shown.unique lexes, namesShown_iff segmented] at names
    rw [shown'.unique lexes', namesShown_iff renamed] at names'
    exact ⟨names, names' name' there isName'⟩
  · rintro ⟨long, long'⟩
    refine ⟨_, _, lexes, lexes', ?_, (namesShown_iff segmented).mpr long,
      (namesShown_iff renamed).mpr ?_⟩
    · -- only the token of the name changes, and it is an identifier before and after
      rw [List.map_append, List.map_append, List.map_map, List.map_map, List.map_map]
      congr 1
      apply List.map_congr_left
      intro segment member
      cases segment with
      | boundary c => rfl
      | literal chars => rfl
      | run chars =>
          by_cases same : chars = name
          · subst same
            have old := isName.shown_iff.mpr (long _ member isName)
            have new := isName'.shown_iff.mpr long'
            simp [Segment.seen, Segment.rename, renameRun, old, new]
          · simp [Segment.seen, Segment.rename, renameRun, same]
    · intro chars member named
      rcases (run_mem_rename here chars).mp member with rfl | ⟨-, inside⟩
      · exact long'
      · exact long chars inside named

/-- The text `ab(ab`, where `ab` is replaced by `xyz`. -/
theorem lfLex_renames_iff_call : ∃ (src src' : LFString UInt8) (deck deck' : Deck UInt8),
    src.Spells deck [97, 98, 40, 97, 98] ∧
    src'.Spells deck' [120, 121, 122, 40, 120, 121, 122] ∧
    (RenamesWell src src' deck deck' [97, 98, 40, 97, 98]
        (rename [97, 98] [120, 121, 122] [97, 98, 40, 97, 98]) ↔
      (∀ chars, HasRun [97, 98, 40, 97, 98] chars → IsName chars → 2 ≤ chars.length) ∧
        2 ≤ ([120, 121, 122] : List UInt8).length) := by
  obtain ⟨src, deck, spells⟩ := @exists_spells [97, 98, 40, 97, 98] (by decide) 16 (by decide)
    (by decide)
  obtain ⟨src', deck', spells'⟩ := @exists_spells [120, 121, 122, 40, 120, 121, 122] (by decide) 16
    (by decide) (by decide)
  have plain : ∀ c ∈ [97, 98], ordinary c := by
    rw [List.forall_mem_cons, List.forall_mem_singleton]
    decide
  have plain' : ∀ c ∈ [120, 121, 122], ordinary c := by
    rw [List.forall_mem_cons, List.forall_mem_cons, List.forall_mem_singleton]
    decide
  have stops : ∀ c ∈ ([40, 97, 98] : List UInt8).head?, ¬ ordinary c ∧ c ≠ quote := by
    rintro c ⟨⟩
    decide
  have argument : Segmented id ([97, 98] : List UInt8) [.run [97, 98]] :=
    Segmented.single (by decide) plain
  have segmented : Segmented id ([97, 98, 40, 97, 98] : List UInt8)
      [.run [97, 98], .boundary 40, .run [97, 98]] :=
    @Segmented.run _ id [97, 98] [40, 97, 98] _ (by decide) plain stops
      (.boundary (by decide) argument)
  exact ⟨src, src', deck, deck', spells, spells',
    lfLex_renames_iff (by decide) ⟨by decide, plain, by decide⟩ ⟨_, segmented, by simp⟩
      ⟨by decide, plain', by decide⟩ spells spells'⟩

/-- The text `ab`, where `ab` is replaced by `x`: the token of `x` is unknown. -/
theorem short_name_unknown : ∃ (src src' : LFString UInt8) (deck deck' : Deck UInt8),
    src.Spells deck [97, 98] ∧ src'.Spells deck' [120] ∧
    rename [97, 98] [120] [97, 98] = [120] ∧
    src.Lexes deck [⟨.identifier, some [97, 98]⟩, eofSeen] ∧
    src'.Lexes deck' [⟨.unknown, none⟩, eofSeen] ∧
    ¬ RenamesWell src src' deck deck' [97, 98] [120] := by
  obtain ⟨src, deck, spells⟩ := @exists_spells [97, 98] (by decide) 16 (by decide) (by decide)
  obtain ⟨src', deck', spells'⟩ := @exists_spells [120] (by decide) 16 (by decide) (by decide)
  have plain : ∀ c ∈ [97, 98], ordinary c := by
    rw [List.forall_mem_cons, List.forall_mem_singleton]
    decide
  have plain' : ∀ c ∈ [120], ordinary c := by
    rw [List.forall_mem_singleton]
    decide
  have segmented : Segmented id ([97, 98] : List UInt8) [.run [97, 98]] :=
    Segmented.single (by decide) plain
  have segmented' : Segmented id ([120] : List UInt8) [.run [120]] :=
    Segmented.single (by decide) plain'
  have lexes : src.Lexes deck [⟨.identifier, some [97, 98]⟩, eofSeen] :=
    spells.lexes_segments (by decide) (by decide) segmented
  have lexes' : src'.Lexes deck' [⟨.unknown, none⟩, eofSeen] :=
    spells'.lexes_segments (by decide) (by decide) segmented'
  refine ⟨src, src', deck, deck', spells, spells', by decide, lexes, lexes', ?_⟩
  rintro ⟨seen, seen', shown, shown', types, -⟩
  rw [shown.unique lexes, shown'.unique lexes'] at types
  cases types

end LowFlow
