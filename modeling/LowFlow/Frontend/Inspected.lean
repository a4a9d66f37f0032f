import LowFlow.Frontend.Lexes

/-!
# What the lexer looks at

Of a source in one block the lexer looks at the characters that its loop comes to,
and, when it flushes a lexeme, at those of the lexeme. In every state of the loop
these are characters of the source, and at the end the slices of the lexemes lie
within it, exactly when the source is not empty and does not end with an opening
quote (`inspectsLive_iff`).
-/

set_option autoImplicit false

namespace LowFlow

open Library

/-! ## Characters that are looked at -/

/-- Where the rounds of a comparison look, and at how many characters, up to the first
difference. -/
def comparedRanges (left : LFString UInt8) (rightChar : List UInt8) :
    ℕ → Option BlockPtr → ℕ → ℕ → List (Ptr × ℕ)
  | _, _, _, 0 => []
  | _, none, _, _ => []
  | 0, some _, _, _ + 1 => []
  | fuel + 1, some curBlock, compared, remaining + 1 =>
      match left.arena.heap.block curBlock with
      | none => []
      | some block =>
          match comparedBounds left curBlock block with
          | (some leftOffset, some rightOffset) =>
              let rightPadding := sizeSub block.size rightOffset
              let usedSize := sizeSub (sizeSub block.size rightPadding) leftOffset
              let compSize := if remaining + 1 < usedSize then remaining + 1 else usedSize
              let bytes := left.arena.heap.load ⟨curBlock, leftOffset⟩ compSize
              if bytes = some ((rightChar.drop compared).take compSize) then
                (⟨curBlock, leftOffset⟩, compSize) ::
                  comparedRanges left rightChar fuel block.next (compared + compSize)
                    (remaining + 1 - compSize)
              else [(⟨curBlock, leftOffset⟩, compSize)]
          | _ => []

/-- Where `_lf_get_token_type_from_big_lexeme` looks. The keywords differ in size, so
one of them at most is compared. -/
def LFString.keywordRanges (str : LFString UInt8) : List (Ptr × ℕ) :=
  let curBlock := match str.slice with
    | some slice => slice.headBlock
    | none => str.arena.headBlock
  [useWord, funcWord, entryWord].flatMap fun word =>
    if lfGetStringSize str = word.length then
      comparedRanges str word str.arena.heap.serial curBlock 0 word.length
    else []

/-- A flush of this lexeme looks at this character. -/
inductive FlushInspects (src : LFString UInt8) (lists : LexLists) (lexeme : Ptr) : Ptr → Prop where
  | first {str : LFString UInt8} {fstChar : Ptr} {iter : StringIteration UInt8}
      (string : lists.string src lexeme = some str) (small : lfGetStringSize str ≤ 1)
      (begins : lfInitStringIteration str = some (fstChar, iter)) :
      FlushInspects src lists lexeme fstChar
  | compared {str : LFString UInt8} {range : Ptr × ℕ} {i : ℕ}
      (string : lists.string src lexeme = some str) (big : 1 < lfGetStringSize str)
      (looks : range ∈ str.keywordRanges) (inside : i < range.2) :
      FlushInspects src lists lexeme ⟨range.1.block, range.1.offset + i⟩

/-- In this state of the loop, or behind the loop, the open lexeme is flushed. -/
def LexState.Flushes (src : LFString UInt8) (s : LexState) : Prop :=
  match s.curChar with
  | none => True
  | some curChar => ∃ c, loadChar src curChar = some c ∧ c ≠ quote ∧ s.isReadingStr = false ∧
      (lfIsWhitespace c = true ∨ lfGetTokenTypeFromHardBoundaryLexeme c ≠ .unknown)

/-- In this state of the loop, or behind the loop, this character is looked at. -/
inductive LexState.Inspects (src : LFString UInt8) (s : LexState) : Ptr → Prop where
  | current {curChar : Ptr} (current : s.curChar = some curChar) : Inspects src s curChar
  | flushed {lexeme ptr : Ptr} (flushes : s.Flushes src) (opened : s.curLexeme = some lexeme)
      (looks : FlushInspects src s.lists lexeme ptr) : Inspects src s ptr

/-- A pointer to a live character of the source. -/
def LFString.Live (src : LFString UInt8) (deck : Deck UInt8) (ptr : Ptr) : Prop :=
  ∃ x ∈ src.text deck, x.1.ptr = ptr

/-- The slice lies within what the source uses of its block. -/
def ArenaSlice.Within (slice : ArenaSlice) (blocks : Deck UInt8) : Prop :=
  ∃ entry ∈ blocks, slice.headBlock = some entry.1 ∧ slice.tailBlock = some entry.1 ∧
    entry.2.leftOffset ≤ slice.headOffset ∧ slice.headOffset ≤ slice.tailOffset ∧
    slice.tailOffset ≤ entry.2.rightOffset

/-- The lexer looks at live characters of the source in every state of its loop, and
returns with slices that lie within the source. -/
structure InspectsLive (src : LFString UInt8) (deck : Deck UInt8) (lists : LexLists)
    (old : LexContents) : Prop where
  live : ∀ begin iter, lfInitStringIteration src = some (begin, iter) →
    Everywhere (lexStep src) (fun s => ∀ ptr, s.Inspects src ptr → src.Live deck ptr)
      ⟨lists, none, false, iter, some begin⟩
  within : ∃ fuel lists' slices, lfLex fuel lists src = some lists' ∧
    lists'.slices.Values arenaSliceSize (old.slices ++ slices) ∧
    ∀ e ∈ slices, e.2.Within (src.blocks deck)

/-! ## Lexemes of live characters -/

section Live

variable {src : LFString UInt8} {deck : Deck UInt8} {slice : ArenaSlice} {chars : List Placed}
  {p : BlockPtr} {b : Slab UInt8}

/-- The characters of a source in one block. -/
theorem mem_text_iff (single : src.blocks deck = [(p, b)]) (x : Placed) :
    x ∈ src.text deck ↔ x.1.1 = p ∧ b.leftOffset ≤ x.1.2 ∧ x.1.2 < b.rightOffset ∧
      b.data.byte x.1.2 = x.2 := by
  obtain ⟨⟨q, offset⟩, c⟩ := x
  simp only [LFString.text, single, Deck.chars, List.flatMap_cons, List.flatMap_nil,
    List.append_nil, List.mem_map, positionsFrom, List.mem_range'_1, Prod.mk.injEq]
  constructor
  · rintro ⟨place, ⟨i, inside, rfl⟩, same, rfl⟩
    obtain ⟨rfl, rfl⟩ := Prod.mk.inj same
    exact ⟨rfl, inside.1, by omega, rfl⟩
  · rintro ⟨rfl, low, high, rfl⟩
    exact ⟨(q, offset), ⟨offset, ⟨low, by omega⟩, rfl⟩, rfl, rfl⟩

theorem live_iff (single : src.blocks deck = [(p, b)]) (offset : ℕ) :
    src.Live deck ⟨p, offset⟩ ↔ b.leftOffset ≤ offset ∧ offset < b.rightOffset := by
  constructor
  · rintro ⟨x, member, same⟩
    obtain ⟨-, low, high, -⟩ := (mem_text_iff single x).mp member
    have place : x.1.2 = offset := Int.ofNat_inj.mp (congrArg Ptr.offset same)
    omega
  · rintro ⟨low, high⟩
    exact ⟨((p, offset), b.data.byte offset), (mem_text_iff single _).mpr ⟨rfl, low, high, rfl⟩,
      rfl⟩

/-- The last character of the source is at the end of its block. -/
theorem last_mem_text (single : src.blocks deck = [(p, b)]) {done : List Placed} {x : Placed}
    (split : done ++ [x] = src.text deck) : x.1.2 + 1 = b.rightOffset := by
  obtain ⟨-, low, high, -⟩ := (mem_text_iff single x).mp (by simp [← split])
  have positions : (src.text deck).map Prod.fst =
      positionsFrom p b.leftOffset (b.rightOffset - b.leftOffset) := by
    rw [LFString.text, Deck.chars_positions, single, positions_cons]
    exact List.append_nil _
  have last := congrArg List.getLast? positions
  rw [← split, List.map_append, List.map_singleton, List.getLast?_concat,
    (positionsFrom_ends p _ (by omega)).2] at last
  have place : x.1.2 = b.leftOffset + (b.rightOffset - b.leftOffset) - 1 :=
    congrArg Prod.snd (Option.some.inj last)
  omega

/-- A slice that covers characters of the source lies within it. -/
theorem ArenaSlice.Covers.within (covers : slice.Covers deck (chars.map Prod.fst))
    (distinct : (ptrs deck).Nodup) (single : src.blocks deck = [(p, b)])
    (inText : ∀ x ∈ chars, x ∈ src.text deck) :
    slice.headBlock = some p ∧ slice.tailBlock = some p ∧
      slice.headOffset + slice.size = slice.tailOffset ∧ 0 < slice.size ∧
      b.leftOffset ≤ slice.headOffset ∧ slice.tailOffset ≤ b.rightOffset ∧
      ∃ c, (p, c) ∈ deck ∧ slice.tailOffset ≤ c.rightOffset := by
  have places : ∀ x ∈ chars.map Prod.fst, x.1 = p ∧ b.leftOffset ≤ x.2 ∧ x.2 < b.rightOffset := by
    intro x member
    obtain ⟨y, here, rfl⟩ := List.mem_map.mp member
    obtain ⟨place, low, high, -⟩ := (mem_text_iff single y).mp (inText y here)
    exact ⟨place, low, high⟩
  obtain ⟨c, inDeck, head, tail, positions, size, below⟩ :=
    covers.oneBlock distinct fun x member => (places x member).1
  obtain ⟨first, rest, begins, -⟩ := covers.first
  have positive : 0 < slice.size := by
    have counts := congrArg List.length (positions.symm.trans begins)
    simp only [positionsFrom, List.length_map, List.length_range', List.length_cons] at counts
    omega
  obtain ⟨atHead, atTail⟩ := positionsFrom_ends p slice.headOffset positive
  rw [← positions] at atHead atTail
  obtain ⟨-, low, -⟩ := places _ (List.mem_of_head? atHead)
  obtain ⟨-, -, high⟩ := places _ (List.mem_of_getLast? atTail)
  dsimp only at low high
  exact ⟨head, tail, size, positive, low, by omega, c, inDeck, below⟩

/-- A comparison of a slice in one block looks at the slice. -/
theorem comparedRanges_block {block : MemBlock UInt8} (found : src.arena.heap.block p = some block)
    (head : slice.headBlock = some p) (tail : slice.tailBlock = some p)
    (size : slice.headOffset + slice.size = slice.tailOffset)
    (bound : slice.tailOffset ≤ block.size)
    (word : List UInt8) (width fuel : ℕ) {range : Ptr × ℕ}
    (looks : range ∈
      comparedRanges ⟨src.arena, some slice, width⟩ word fuel (some p) 0 slice.size) :
    range = (⟨p, slice.headOffset⟩, slice.size) := by
  cases length : slice.size with
  | zero => simp [length, comparedRanges] at looks
  | succ n =>
      cases fuel with
      | zero => simp [length, comparedRanges] at looks
      | succ fuel =>
          have padding : sizeSub (sizeSub block.size (sizeSub block.size slice.tailOffset))
              slice.headOffset = n + 1 := by
            rw [sizeSub_of_le bound, sizeSub_of_le (Nat.sub_le ..), sizeSub_of_le (by omega)]
            omega
          rw [length, comparedRanges] at looks
          simp only [found, comparedBounds, head, tail, ↓reduceIte, padding, Nat.lt_irrefl] at looks
          split at looks
          · simpa [comparedRanges] using looks
          · simpa using looks

/-- A flush of a lexeme of live characters looks at live characters. -/
theorem FlushInspects.live {lists : LexLists} {lexeme ptr : Ptr} {width : ℕ}
    (looks : FlushInspects src lists lexeme ptr)
    (string : lists.string src lexeme = some ⟨src.arena, some slice, width⟩)
    (holds : src.Holds deck (src.text deck)) (single : src.blocks deck = [(p, b)])
    (covers : slice.Covers deck (chars.map Prod.fst)) (inText : ∀ x ∈ chars, x ∈ src.text deck) :
    src.Live deck ptr := by
  obtain ⟨head, tail, size, positive, low, high, c, inDeck, below⟩ :=
    covers.within holds.rep.distinct single inText
  cases looks with
  | @first str _ iter found small begins =>
      obtain rfl := Option.some.inj (string.symm.trans found)
      simp only [lfInitStringIteration, LFString.headBorder, StringIteration.ptr, head,
        Option.bind_eq_bind, Option.bind_some, Option.bind_eq_some_iff, Option.some.injEq] at begins
      obtain ⟨_, ⟨block, here, rfl⟩, same⟩ := begins
      obtain ⟨rfl, -⟩ := Prod.mk.inj same
      exact (live_iff single _).mpr ⟨low, by omega⟩
  | @compared str range i found big ranges inside =>
      obtain rfl := Option.some.inj (string.symm.trans found)
      simp only [LFString.keywordRanges, List.mem_flatMap, head] at ranges
      obtain ⟨word, -, looks⟩ := ranges
      split at looks
      · rename_i sized
        simp only [lfGetStringSize] at sized
        rw [← sized] at looks
        obtain ⟨block, here, rfl⟩ := holds.rep.lookup inDeck
        have wide : block.size = src.arena.blockSize := holds.rep.sized _ inDeck
        have bound := holds.bounded _ inDeck
        dsimp only at bound below
        obtain rfl := comparedRanges_block here head tail size (by omega) word width _ looks
        dsimp only at inside ⊢
        rw [← Int.natCast_add]
        exact (live_iff single _).mpr ⟨by omega, by omega⟩
      · cases looks

end Live

/-! ## Every state of the loop -/

section States

variable {src : LFString UInt8} {deck : Deck UInt8} {old : LexContents}
  {text done rest : List Placed} {s result : Scan Placed} {st : LexState} {p : BlockPtr}
  {b : Slab UInt8}

/-- What holds of the states that match a state of the scan holds of all states that the
loop comes to, when the scan ends. -/
theorem Simulates.everywhere {P : LexState → Prop} (holds : src.Holds deck text)
    (matched : ∀ done rest s st, done ++ rest = text → Simulates src deck old done rest s st → P st)
    (scanned : scan (stored src.arena.blockSize) rest s = some result) :
    ∀ done st, done ++ rest = text → Simulates src deck old done rest s st →
      Everywhere (lexStep src) P st := by
  apply scan_induction (P := fun rest s => ∀ done st, done ++ rest = text →
    Simulates src deck old done rest s st → Everywhere (lexStep src) P st) ?_ ?_ scanned
  · intro s flushed flush same done st split sim
    have ended : st.curChar = none := by
      have position := sim.position
      generalize st.curChar = curChar at position
      cases position
      rfl
    rw [everywhere_last fun st' => by simp [lexStep_ended ended]]
    exact matched done [] s st split sim
  · intro x rest rest' s s' step onward done st split sim
    obtain ⟨st', done', next, split', sim'⟩ := lexStep_refines sim holds split step
    rw [everywhere_next next]
    exact ⟨matched done (x :: rest) s st split sim, onward done' st' split' sim'⟩

/-- A state that matches a state of the scan looks at live characters. -/
theorem Simulates.inspects_live (holds : src.Holds deck (src.text deck))
    (single : src.blocks deck = [(p, b)]) (split : done ++ rest = src.text deck)
    (sim : Simulates src deck old done rest s st) {ptr : Ptr} (looks : st.Inspects src ptr) :
    src.Live deck ptr := by
  obtain ⟨⟨entries, memory, opened⟩, -, position, recent⟩ := sim
  cases looks with
  | current current =>
      rw [current] at position
      cases rest with
      | nil => cases position
      | cons x rest =>
          obtain ⟨same, -, -⟩ := position.start
          exact ⟨x, by simp [← split], (Option.some.inj same).symm⟩
  | @flushed lexeme _ flushes isOpen looks =>
      rw [isOpen] at opened
      generalize current : s.current = open_ at opened
      cases opened with
      | inside chars front e =>
          have lexemes : s.lexemes = s.past ++ [chars] := by simp [Scan.lexemes, current]
          rw [lexemes] at memory
          obtain ⟨-, covers⟩ := forall₂_concat memory.covers
          apply looks.live memory.string holds single covers
          intro x member
          have inDone := (recent chars current).subset member
          rw [← split]
          exact List.mem_append_left _ inDone

end States

/-! ## The lexemes of a scan -/

section Lexemes

variable {γ : Type} {L : Layout γ} {P : γ → Prop} {s s' result : Scan γ} {x : γ}
  {rest rest' text : List γ}

theorem Scan.lexemes_flush (flushed : s.flush L = some s') : s'.lexemes = s.lexemes := by
  rcases Scan.flush_eq_some flushed with ⟨-, rfl⟩ | ⟨lexeme, current, -, rfl⟩
  · rfl
  · simp [Scan.lexemes, current]

/-- A lexeme that grows takes a new character. -/
theorem Scan.forall_mem_grow (kept : ∀ chars ∈ s.lexemes, ∀ z ∈ chars, P z) (here : P x)
    (grown : s.grow L x = some s') : ∀ chars ∈ s'.lexemes, ∀ z ∈ chars, P z := by
  obtain ⟨init, last, current, -, rfl⟩ := Scan.grow_eq_some grown
  simp only [Scan.lexemes, current, Option.toList_some, List.forall_mem_append,
    List.forall_mem_singleton] at kept ⊢
  exact ⟨kept.1, kept.2, here⟩

/-- The lexemes of a scan have characters of the text. -/
theorem ScanStep.forall_mem_lexemes (step : ScanStep L s x rest rest' s')
    (all : ∀ z ∈ x :: rest, P z) (kept : ∀ chars ∈ s.lexemes, ∀ z ∈ chars, P z) :
    (∀ z ∈ rest', P z) ∧ ∀ chars ∈ s'.lexemes, ∀ z ∈ chars, P z := by
  obtain ⟨here, onward⟩ := List.forall_mem_cons.mp all
  cases step with
  | @opens first _ isQuote outside adjoins =>
      obtain ⟨there, onward⟩ := List.forall_mem_cons.mp onward
      refine ⟨onward, List.forall_mem_append.mpr ⟨kept, ?_⟩⟩
      simpa [Scan.start] using there
  | closes isQuote inside =>
      rw [Scan.lexemes_close]
      exact ⟨onward, kept⟩
  | reads notQuote inside grown => exact ⟨onward, Scan.forall_mem_grow kept here grown⟩
  | blank notQuote outside white flushed =>
      rw [Scan.lexemes_flush flushed]
      exact ⟨onward, kept⟩
  | boundary notQuote outside notWhite hard flushed =>
      have same := Scan.lexemes_flush flushed
      exact ⟨onward, same ▸ kept⟩
  | starts plain outside closed =>
      refine ⟨onward, List.forall_mem_append.mpr ⟨kept, ?_⟩⟩
      simpa [Scan.start] using here
  | grows plain outside current grown => exact ⟨onward, Scan.forall_mem_grow kept here grown⟩

theorem scan_forall_mem_lexemes (scanned : scan L text s = some result) :
    (∀ z ∈ text, P z) → (∀ chars ∈ s.lexemes, ∀ z ∈ chars, P z) →
      ∀ chars ∈ result.lexemes, ∀ z ∈ chars, P z := by
  apply scan_induction (P := fun text s => (∀ z ∈ text, P z) →
    (∀ chars ∈ s.lexemes, ∀ z ∈ chars, P z) →
      ∀ chars ∈ result.lexemes, ∀ z ∈ chars, P z) ?_ ?_ scanned
  · rintro s flushed flush rfl - kept
    have same := Scan.lexemes_flush flush
    exact same ▸ kept
  · intro x rest rest' s s' step onward all kept
    obtain ⟨all', kept'⟩ := step.forall_mem_lexemes all kept
    exact onward all' kept'

end Lexemes

/-! ## Sources in one block -/

section Sources

variable {src : LFString UInt8} {deck : Deck UInt8} {old : LexContents} {lists : LexLists}
  {text : List UInt8}

/-- With text that does not end with an opening quote, all is within the source. -/
theorem inspectsLive_of_closed (spells : src.Spells deck text) (contains : lists.Contains old)
    (nonempty : text ≠ []) (closed : opensAtEnd false text = false) :
    InspectsLive src deck lists old := by
  obtain ⟨p, b, single⟩ := spells.single
  obtain ⟨holds, result, scanned, -⟩ := spells.scanned nonempty closed
  constructor
  · intro begin iter init
    obtain ⟨begin', iter', init', start⟩ := Simulates.begins holds contains
    obtain ⟨rfl, rfl⟩ := Prod.mk.inj (Option.some.inj (init.symm.trans init'))
    refine Simulates.everywhere holds ?_ scanned [] _ rfl start
    intro done rest s st split sim ptr looks
    exact sim.inspects_live holds single split looks
  · obtain ⟨fuel, lists', entries, lexed, ⟨elems, contains', -⟩, covers, -⟩ :=
      lfLex_refines holds contains scanned
    refine ⟨fuel, lists', entries.map LexEntry.range, lexed, contains'.slices, ?_⟩
    have inText : ∀ chars ∈ result.lexemes, ∀ x ∈ chars, x ∈ src.text deck :=
      scan_forall_mem_lexemes scanned (fun x member => member) (by simp [Scan.lexemes, Scan.empty])
    intro e member
    obtain ⟨entry, inEntries, rfl⟩ := List.mem_map.mp member
    obtain ⟨i, bound, rfl⟩ := List.mem_iff_getElem.mp inEntries
    have bound' : i < result.lexemes.length := covers.length_eq ▸ bound
    have here := covers.get bound bound'
    simp only [List.get_eq_getElem] at here
    obtain ⟨head, tail, size, -, low, high, -⟩ :=
      here.within holds.rep.distinct single (inText _ (List.getElem_mem bound'))
    exact ⟨(p, b), by simp [single], head, tail, low, by simp only [LexEntry.range]; omega, high⟩

/-- Behind an opening quote at the end of the text, the lexer looks at what is no
character of the source. -/
theorem not_inspectsLive_of_opens (spells : src.Spells deck text) (contains : lists.Contains old)
    (opens : opensAtEnd false text = true) : ¬ InspectsLive src deck lists old := by
  rintro ⟨live, -⟩
  have nonempty : text ≠ [] := by
    rintro rfl
    cases opens
  obtain ⟨p, b, single⟩ := spells.single
  obtain ⟨holds, p', inBlock⟩ := spells.holds nonempty
  have spelled : (src.text deck).map Prod.snd = text := spells.content
  obtain ⟨begin, iter, init, start⟩ := Simulates.begins holds contains
  obtain ⟨done, x, s, st, split, sim, isQuote, outside, rounds, -⟩ :=
    start.to_last_quote holds inBlock rfl Scan.ready_empty (spelled.symm ▸ opens)
  obtain ⟨elems, entries, lexeme, slice, lists₁, -, -, contains₁, returns, -⟩ :=
    sim.last_quote holds split isQuote outside
  obtain ⟨last, reached, ended⟩ := ((rounds _).mpr returns).reaches
  -- the loop ends in the state behind the quote
  have closing : last = ⟨lists₁, some lexeme, true, ⟨src, none, x.1.2⟩, none⟩ := by
    rcases Option.eq_none_or_eq_some last.curChar with noMore | ⟨curChar, current⟩
    · rw [lexStep_ended noMore] at ended
      exact Sum.inr.inj (Option.some.inj ended)
    · rw [lexStep_current current] at ended
      obtain ⟨c, -, round⟩ := Option.bind_eq_some_iff.mp ended
      obtain ⟨next, -, other⟩ := Option.map_eq_some_iff.mp round
      cases other
  subst closing
  have string : lists₁.string src lexeme =
      some ⟨src.arena, some ⟨some x.1.1, some x.1.1, x.1.2 + 1, x.1.2 + 2, 1⟩,
        src.arena.blockSize⟩ :=
    contains₁.string (List.mem_append_right _ (List.mem_singleton_self _))
      (List.mem_append_right _ (List.mem_singleton_self _))
  have inText : x ∈ src.text deck := by simp [← split]
  obtain ⟨place, -, -, -⟩ := (mem_text_iff single x).mp inText
  obtain ⟨c, inDeck, -⟩ := holds.shows x inText
  obtain ⟨node, found, -⟩ := holds.rep.lookup inDeck
  have begins : ∃ iter', lfInitStringIteration (LFString.mk src.arena
      (some ⟨some x.1.1, some x.1.1, x.1.2 + 1, x.1.2 + 2, 1⟩) src.arena.blockSize) =
      some (⟨x.1.1, (x.1.2 + 1 : ℕ)⟩, iter') := by
    simp [lfInitStringIteration, LFString.headBorder, StringIteration.ptr, found]
  obtain ⟨iter', begins⟩ := begins
  have looks := live begin iter init _ reached _
    (.flushed trivial rfl (.first string (by simp [lfGetStringSize]) begins))
  rw [place, live_iff single] at looks
  have ends := last_mem_text single split
  omega

/-- The lexer looks at the first character of an empty source. -/
theorem not_inspectsLive_of_empty (spells : src.Spells deck []) :
    ¬ InspectsLive src deck lists old := by
  rintro ⟨live, fuel, lists', slices, lexed, -⟩
  simp only [lfLex, Option.bind_eq_bind, Option.bind_eq_some_iff] at lexed
  obtain ⟨⟨begin, iter⟩, init, -⟩ := lexed
  obtain ⟨x, member, -⟩ := live begin iter init _ .refl begin (.current rfl)
  have nothing : src.text deck = [] := List.map_eq_nil_iff.mp spells.content
  rw [nothing] at member
  cases member

/-- **What the lexer looks at** are live characters of the source, and its slices lie
within the source, exactly when the source is not empty and does not end with an
opening quote. -/
theorem inspectsLive_iff (spells : src.Spells deck text) (contains : lists.Contains old) :
    InspectsLive src deck lists old ↔ text ≠ [] ∧ opensAtEnd false text = false := by
  constructor
  · intro inside
    constructor
    · rintro rfl
      exact not_inspectsLive_of_empty spells inside
    · by_contra opens
      exact not_inspectsLive_of_opens spells contains (by simpa using opens) inside
  · rintro ⟨nonempty, closed⟩
    exact inspectsLive_of_closed spells contains nonempty closed

end Sources

/-- The text `id "b`, where the literal does not end. -/
theorem inspectsLive_iff_unterminated : ∃ (src : LFString UInt8) (deck : Deck UInt8)
    (lists : LexLists), src.Spells deck [105, 100, 32, 34, 98] ∧
    (InspectsLive src deck lists ⟨[], [], []⟩ ↔
      ([105, 100, 32, 34, 98] : List UInt8) ≠ [] ∧
        opensAtEnd false [105, 100, 32, 34, 98] = false) := by
  obtain ⟨src, deck, spells⟩ := @exists_spells [105, 100, 32, 34, 98] (by decide) 16 (by decide)
    (by decide)
  obtain ⟨lists, -, -, -, contains⟩ := LexLists.of_init 4 (by decide) (by decide)
  exact ⟨src, deck, lists, spells, inspectsLive_iff spells contains⟩

/-- The text `a"`: the byte behind it is looked at. -/
theorem quote_at_end_looks_behind : ∃ (src : LFString UInt8) (deck : Deck UInt8) (lists : LexLists),
    src.Spells deck [97, 34] ∧ lists.Contains ⟨[], [], []⟩ ∧
    ¬ InspectsLive src deck lists ⟨[], [], []⟩ := by
  obtain ⟨src, deck, spells⟩ := @exists_spells [97, 34] (by decide) 16 (by decide) (by decide)
  obtain ⟨lists, -, -, -, contains⟩ := LexLists.of_init 4 (by decide) (by decide)
  exact ⟨src, deck, lists, spells, contains, not_inspectsLive_of_opens spells contains (by decide)⟩

end LowFlow
