import LowFlow.Frontend.Lexes

/-!
# Two ways of storing a text

A text is stored in an owned string chunk by chunk. How it is lexed depends on where
the chunks put the ends of the blocks. Where the iterator meets the characters of the
text and every lexeme is grown by the characters it is meant to have, two strings with
one text are lexed alike exactly when no lexeme that is compared with a keyword goes
over the end of a block (`alike_inPlace`).
-/

set_option autoImplicit false

namespace LowFlow

open Library

/-! ## Lexemes that are not compared -/

/-- What a source lets the lexer do before it compares. -/
def grown (blockSize : ℕ) : Layout Placed := { stored blockSize with comparable := fun _ => true }

section Comparing

variable {src : LFString UInt8} {deck : Deck UInt8} {old : LexContents} {lists : LexLists}

/-- In a slice of several blocks the code reads a bound that it has not set. -/
theorem lfCompareString_unset {slice : ArenaSlice} (several : slice.headBlock ≠ slice.tailBlock)
    (head : slice.headBlock.isSome) {word : List UInt8} (some_chars : 0 < word.length)
    (size : slice.size = word.length) (known : 0 < src.arena.heap.serial) (width : ℕ) :
    lfCompareString ⟨.strChar, ⟨src.arena, some slice, width⟩, some word, word.length⟩ = none := by
  obtain ⟨p, atHead⟩ := Option.isSome_iff_exists.mp head
  obtain ⟨n, length⟩ := Nat.exists_eq_succ_of_ne_zero (Nat.ne_of_gt some_chars)
  obtain ⟨fuel, serial⟩ := Nat.exists_eq_succ_of_ne_zero (Nat.ne_of_gt known)
  rw [atHead] at several
  simp only [lfCompareString, lfGetStringSize, size, ne_eq, not_true_eq_false, ↓reduceIte,
    Nat.lt_irrefl, Option.bind_eq_bind, Option.bind_some, atHead, serial, length]
  rw [compareBlocks]
  simp [comparedBounds, atHead, several]

/-- A lexeme of the length of a keyword that goes over the end of a block has no type. -/
theorem lfGetTokenTypeFromBigLexeme_unset {slice : ArenaSlice}
    (several : slice.headBlock ≠ slice.tailBlock) (head : slice.headBlock.isSome)
    (between : 3 ≤ slice.size ∧ slice.size ≤ 5) (known : 0 < src.arena.heap.serial) (width : ℕ) :
    lfGetTokenTypeFromBigLexeme ⟨src.arena, some slice, width⟩ = none := by
  have unset := fun word (some_chars : 0 < List.length word) (size : slice.size = word.length) =>
    lfCompareString_unset several head some_chars size known width
  have other : ∀ word : List UInt8, slice.size ≠ word.length →
      lfCompareString ⟨.strChar, ⟨src.arena, some slice, width⟩, some word, word.length⟩ =
        some false := by
    intro word different
    exact lfCompareString_size different
  have three : useWord.length = 3 := rfl
  have four : funcWord.length = 4 := rfl
  have five : entryWord.length = 5 := rfl
  have length : slice.size = 3 ∨ slice.size = 4 ∨ slice.size = 5 := by omega
  rcases length with length | length | length
  · have stuck := unset useWord (by decide) length
    rw [three] at stuck
    simp [lfGetTokenTypeFromBigLexeme, stuck]
  · have first := other useWord (by simp [length, three])
    have stuck := unset funcWord (by decide) length
    rw [three] at first
    rw [four] at stuck
    simp [lfGetTokenTypeFromBigLexeme, first, stuck]
  · have first := other useWord (by simp [length, three])
    have second := other funcWord (by simp [length, four])
    have stuck := unset entryWord (by decide) length
    rw [three] at first
    rw [four] at second
    rw [five] at stuck
    simp [lfGetTokenTypeFromBigLexeme, first, second, stuck]

/-- A lexeme that cannot be compared cannot be flushed. -/
theorem LexMemory.flushLexeme_unset {front : List LexEntry} {e : LexEntry}
    {past : List (List Placed)} {chars : List Placed} {tokens : List (Token ℕ)}
    (memory : LexMemory src deck old lists (front ++ [e]) (past ++ [chars]) tokens)
    (rep : Represents src.arena deck)
    (unset : (stored src.arena.blockSize).comparable chars = false) :
    lfFlushLexeme src lists e.lexeme = none := by
  have string := memory.string
  obtain ⟨-, covers⟩ := forall₂_concat memory.covers
  have size : e.value.size = chars.length := by simpa using covers.size
  simp only [stored, decide_eq_false_iff_not, not_or, not_not] at unset
  obtain ⟨between, apart⟩ := unset
  have several : e.value.headBlock ≠ e.value.tailBlock := by
    intro one
    apply apart
    intro x here y there
    exact covers.same_block rep.distinct one _ (List.mem_map_of_mem here) _
      (List.mem_map_of_mem there)
  have head : e.value.headBlock.isSome := by
    obtain ⟨first, rest, -, head, -⟩ := covers.first
    simp [head]
  have known : 0 < src.arena.heap.serial := by
    obtain ⟨before, blocks, after, split, spans⟩ := covers.lies
    have length := rep.length_le
    have some_blocks := List.length_pos_of_ne_nil spans.nonempty
    simp only [split, List.length_append] at length
    omega
  have stuck := @lfGetTokenTypeFromBigLexeme_unset src e.value several head (size ▸ between) known
    src.arena.blockSize
  have long : ¬ chars.length ≤ 1 := by omega
  simp [lfFlushLexeme, string, lfGetStringSize, size, long, stuck]

end Comparing

section Stuck

variable {src : LFString UInt8} {deck : Deck UInt8} {old : LexContents} {lists : LexLists}
  {text done rest rest' : List Placed} {s s' : Scan Placed} {st : LexState} {x : Placed}

/-- The open lexeme cannot be compared. -/
def Scan.Unset (s : Scan Placed) (blockSize : ℕ) : Prop :=
  ∃ chars, s.current = some chars ∧ (stored blockSize).comparable chars = false

/-- What is flushed before it is compared is flushed unless it cannot be compared. -/
theorem Scan.flush_grown {blockSize : ℕ} (flushed : s.flush (grown blockSize) = some s') :
    s.flush (stored blockSize) = some s' ∨ s.Unset blockSize := by
  rcases Scan.flush_eq_some flushed with ⟨current, rfl⟩ | ⟨lexeme, current, -, rfl⟩
  · exact .inl (by simp [Scan.flush, current])
  · cases comparable : (stored blockSize).comparable lexeme with
    | true =>
        left
        simp only [Scan.flush, current, comparable, ↓reduceIte, Scan.lexemes, Option.toList_some]
        rfl
    | false => exact .inr ⟨lexeme, current, comparable⟩

/-- A lexeme that cannot be compared is not flushed in a round of the loop. -/
theorem Simulates.flush_unset (sim : Simulates src deck old done rest s st)
    (rep : Represents src.arena deck) (unset : s.Unset src.arena.blockSize) :
    flushOpen src st.lists st.curLexeme = none := by
  obtain ⟨chars, current, unset⟩ := unset
  obtain ⟨entries, memory, opened⟩ := sim.memory
  have lexemes : s.lexemes = s.past ++ [chars] := by simp [Scan.lexemes, current]
  rw [lexemes] at memory
  rw [current] at opened
  generalize st.curLexeme = curLexeme at opened
  cases opened with
  | inside _ front e => exact memory.flushLexeme_unset rep unset

/-- A step before comparing is a step, or the round fails. -/
theorem lexStep_grown (sim : Simulates src deck old done (x :: rest) s st)
    (holds : src.Holds deck text) (inText : x ∈ text)
    (step : ScanStep (grown src.arena.blockSize) s x rest rest' s') :
    ScanStep (stored src.arena.blockSize) s x rest rest' s' ∨ lexStep src st = none := by
  have round := sim.round holds inText
  have reading := sim.reading
  cases step with
  | opens isQuote outside adjoins => exact .inl (.opens isQuote outside adjoins)
  | closes isQuote inside => exact .inl (.closes isQuote inside)
  | reads notQuote inside grown => exact .inl (.reads notQuote inside grown)
  | starts plain outside none => exact .inl (.starts plain outside none)
  | grows plain outside current grown => exact .inl (.grows plain outside current grown)
  | blank notQuote outside white flushed =>
      apply (Scan.flush_grown flushed).imp (.blank notQuote outside white)
      intro unset
      have other : x.2 ≠ quote := notQuote
      have isWhite : lfIsWhitespace x.2 = true := white
      rw [round]
      simp [lexChar, other, reading, outside, isWhite, sim.flush_unset holds.rep unset]
  | boundary notQuote outside notWhite hard flushed =>
      apply (Scan.flush_grown flushed).imp (.boundary notQuote outside notWhite hard)
      intro unset
      have other : x.2 ≠ quote := notQuote
      have notSpace : lfIsWhitespace x.2 = false := notWhite
      have isHard : lfGetTokenTypeFromHardBoundaryLexeme x.2 ≠ .unknown := hard
      rw [round]
      simp [lexChar, other, reading, outside, notSpace, isHard, sim.flush_unset holds.rep unset]

/-- **Where a lexeme cannot be compared** the lexer fails. -/
theorem lfLex_unset (holds : src.Holds deck text) (contains : lists.Contains old)
    {result : Scan Placed} (scanned : scan (grown src.arena.blockSize) text .empty = some result)
    (stuck : scan (stored src.arena.blockSize) text .empty = none) (fuel : ℕ) :
    lfLex fuel lists src = none := by
  have runs : ∀ done st, done ++ text = text → Simulates src deck old done text .empty st →
      scan (stored src.arena.blockSize) text .empty = none →
      ∀ last, Returns (lexStep src) st last → lexEnd src last = none := by
    apply scan_induction (P := fun rest s => ∀ done st, done ++ rest = text →
      Simulates src deck old done rest s st → scan (stored src.arena.blockSize) rest s = none →
      ∀ last, Returns (lexStep src) st last → lexEnd src last = none) ?_ ?_ scanned
    · rintro s flushed flush - done st - sim stuck last returns
      have unset : s.Unset src.arena.blockSize := by
        rcases Scan.flush_grown flush with flushed | unset
        · simp [scan, flushed] at stuck
        · exact unset
      have finished : lexStep src st = some (.inr st) := by
        have position := sim.position
        generalize ended : st.curChar = curChar at position
        generalize st.srcIter = srcIter at position
        cases position
        simp [lexStep, ended]
      obtain rfl := returns.unique (.of_done finished)
      simp [lexEnd, sim.flush_unset holds.rep unset]
    · intro x rest rest' s s' step ih done st split sim stuck last returns
      rcases lexStep_grown sim holds (by simp [← split]) step with onward | fails
      · obtain ⟨st', done', stepped, split', sim'⟩ := lexStep_refines sim holds split onward
        rw [onward.scan_eq] at stuck
        exact ih done' st' split' sim' stuck last ((Returns.next_iff stepped).mp returns)
      · exact absurd returns (Returns.not_of_fails fails)
  obtain ⟨st, start, lexed⟩ := Simulates.start holds contains
  rw [lexed, Option.bind_eq_none_iff]
  intro last iterated
  exact runs [] st rfl start stuck last ⟨fuel, iterated⟩

end Stuck

/-! ## The characters of the blocks -/

/-- The characters of a block. -/
def placedIn (p : BlockPtr) (block : List UInt8) : List Placed :=
  block.zipIdx.map fun x => ((p, x.2), x.1)

/-- The characters of some blocks, with the number of the block in place of its pointer. -/
def numbered : ℕ → List (List UInt8) → List Placed
  | _, [] => []
  | i, block :: blocks => placedIn i block ++ numbered (i + 1) blocks

/-- The character with another name for its block. -/
def Placed.rename (names : BlockPtr → BlockPtr) (x : Placed) : Placed := ((names x.1.1, x.1.2), x.2)

/-- Where the characters stand in the blocks is all that counts, not which blocks these are. -/
theorem stored_maps (blockSize : ℕ) (names : BlockPtr → BlockPtr) :
    (stored blockSize).Maps (stored blockSize) (Placed.rename names) where
  char _ := rfl
  adjoins x y together := by
    have same : x.1.1 = y.1.1 := by simpa [stored] using together
    simp [stored, Placed.rename, same]
  joins x y together := by
    have joins : x.1.1 = y.1.1 ∨ x.1.2 + 1 = blockSize := by simpa [stored] using together
    simpa [stored, Placed.rename] using joins.imp (congrArg names) id
  comparable chars together := by
    simp only [stored, decide_eq_true_eq, List.length_map] at together ⊢
    apply together.imp id
    intro same
    simp only [List.forall_mem_map]
    intro x here y there
    exact congrArg names (same x here y there)

theorem grown_maps (blockSize : ℕ) (names : BlockPtr → BlockPtr) :
    (grown blockSize).Maps (grown blockSize) (Placed.rename names) :=
  ⟨(stored_maps blockSize names).char, (stored_maps blockSize names).adjoins,
    (stored_maps blockSize names).joins, fun _ _ => rfl⟩

theorem placedIn_chars (p : BlockPtr) (block : List UInt8) :
    (placedIn p block).map Prod.snd = block := by
  simp [placedIn, Function.comp_def]

theorem numbered_chars (i : ℕ) (blocks : List (List UInt8)) :
    (numbered i blocks).map Prod.snd = blocks.flatten := by
  induction blocks generalizing i with
  | nil => rfl
  | cons block blocks ih => rw [numbered, List.map_append, placedIn_chars, ih, List.flatten_cons]

theorem placedIn_rename (names : BlockPtr → BlockPtr) (p : BlockPtr) (block : List UInt8) :
    (placedIn p block).map (Placed.rename names) = placedIn (names p) block := by
  rw [placedIn, placedIn, List.map_map]
  rfl

/-- The characters of a block that is used from its start on. -/
theorem chars_eq_placedIn (entry : BlockPtr × Slab UInt8) (rest : Deck UInt8)
    (left : entry.2.leftOffset = 0) :
    Deck.chars (entry :: rest) = placedIn entry.1 entry.2.bytes ++ rest.chars := by
  rw [Deck.chars, List.flatMap_cons]
  congr 1
  simp only [left, Nat.sub_zero, positionsFrom, placedIn, Slab.bytes, Area.read, Nat.zero_add,
    List.map_map]
  apply List.ext_getElem
  · simp
  · intro i _ _
    simp

/-- The blocks of a deck are numbered, and their characters have these numbers. -/
theorem chars_numbered {deck : Deck UInt8} (left : ∀ entry ∈ deck, entry.2.leftOffset = 0)
    {names numbers : BlockPtr → BlockPtr} (i : ℕ)
    (named : ∀ j entry, deck[j]? = some entry → names (i + j) = entry.1 ∧ numbers entry.1 = i + j) :
    deck.chars = (numbered i (deck.map fun entry => entry.2.bytes)).map (Placed.rename names) ∧
      numbered i (deck.map fun entry => entry.2.bytes) =
        deck.chars.map (Placed.rename numbers) := by
  induction deck generalizing i with
  | nil => exact ⟨rfl, rfl⟩
  | cons entry rest ih =>
      obtain ⟨here, others⟩ := List.forall_mem_cons.mp left
      obtain ⟨name, number⟩ := named 0 entry rfl
      obtain ⟨first, second⟩ := ih others (i + 1) fun j other found => by
        rw [Nat.add_assoc, Nat.add_comm 1 j]
        exact named (j + 1) other found
      rw [chars_eq_placedIn entry rest here, List.map_cons, numbered, List.map_append,
        List.map_append, placedIn_rename, placedIn_rename, ← first, ← second]
      simp only [Nat.add_zero] at name number
      rw [name, number]
      exact ⟨rfl, rfl⟩

/-- Names for the numbers of the blocks of a deck, and numbers for their names. -/
theorem exists_names {deck : Deck UInt8} (distinct : (ptrs deck).Nodup) :
    ∃ names numbers : BlockPtr → BlockPtr, ∀ j entry, deck[j]? = some entry →
      names (0 + j) = entry.1 ∧ numbers entry.1 = 0 + j := by
  refine ⟨fun j => (ptrs deck).getD j 0, fun p => (ptrs deck).idxOf p, ?_⟩
  intro j entry found
  have here : (ptrs deck)[j]? = some entry.1 := by simp [ptrs, found]
  obtain ⟨inRange, same⟩ := List.getElem?_eq_some_iff.mp here
  rw [Nat.zero_add]
  refine ⟨by simp [List.getD_eq_getElem?_getD, here], ?_⟩
  rw [← same]
  exact distinct.idxOf_getElem j inRange

/-! ## Ways of storing a text -/

/-- A way of storing a text in a string of its own: the number of characters of a block,
and the chunks, none of them empty or larger than a block. -/
structure Storing where
  charQttInBlock : ℕ
  chunks : List (List UInt8)
  small : charQttInBlock < sizeModulus
  bounded : ∀ chunk ∈ chunks, chunk ≠ [] ∧ chunk.length ≤ charQttInBlock

namespace Storing

def text (s : Storing) : List UInt8 := s.chunks.flatten

/-- What the blocks hold. -/
def blocks (s : Storing) : List (List UInt8) := pack s.charQttInBlock [] s.chunks

/-- `lf_init_string`, and `lf_alloc_string` for each chunk. -/
def store (s : Storing) (malloc : Allocator UInt8) : Option (LFString UInt8) := do
  let str ← lfInitString (LFString.declared malloc s.charQttInBlock)
  str.storeChunks s.chunks

/-- Whatever `malloc` returns, the lexer makes tokens of the string that show this. -/
def Lexes (s : Storing) (seen : List Seen) : Prop :=
  ∀ malloc, ∃ src deck, s.store malloc = some src ∧ Represents src.arena deck ∧
    src.Lexes deck seen

/-- Every block is used up to the same offset. -/
def Even (s : Storing) : Prop := ∀ one ∈ s.blocks, ∀ two ∈ s.blocks, one.length = two.length

/-- A literal starts in the block of its quote, and a lexeme leaves a block only at the
end of the block. -/
def Grown (s : Storing) : Prop :=
  (scan (grown s.charQttInBlock) (numbered 0 s.blocks) .empty).isSome

/-- Besides, a lexeme that is compared with a keyword and has the length of one is in
one block. -/
def InPlace (s : Storing) : Prop :=
  (scan (stored s.charQttInBlock) (numbered 0 s.blocks) .empty).isSome

instance (s : Storing) : Decidable s.Even :=
  inferInstanceAs (Decidable (∀ one ∈ s.blocks, ∀ two ∈ s.blocks, one.length = two.length))

instance (s : Storing) : Decidable s.Grown :=
  inferInstanceAs (Decidable ((_ : Option (Scan Placed)).isSome = true))

instance (s : Storing) : Decidable s.InPlace :=
  inferInstanceAs (Decidable ((_ : Option (Scan Placed)).isSome = true))

variable {s : Storing}

theorem flatten_blocks (s : Storing) : s.blocks.flatten = s.text :=
  flatten_pack s.charQttInBlock [] s.chunks

theorem numbered_text (s : Storing) : (numbered 0 s.blocks).map Prod.snd = s.text :=
  (numbered_chars 0 s.blocks).trans s.flatten_blocks

/-- The string that a text is stored in. -/
structure Source (s : Storing) (malloc : Allocator UInt8) (src : LFString UInt8)
    (deck : Deck UInt8) : Prop where
  store : s.store malloc = some src
  size : src.arena.blockSize = s.charQttInBlock
  holds : src.Holds deck (src.text deck)
  names : ∃ names, src.text deck = (numbered 0 s.blocks).map (Placed.rename names)
  numbers : ∃ numbers, numbered 0 s.blocks = (src.text deck).map (Placed.rename numbers)

/-- A text that is not empty and fits in memory is the text of a source when its blocks
are used up to the same offset. -/
theorem exists_source (s : Storing) (nonempty : s.text ≠ []) (short : s.text.length < sizeModulus)
    (even : s.Even) (malloc : Allocator UInt8) : ∃ src deck, s.Source malloc src deck := by
  have positive : 0 < s.charQttInBlock := by
    obtain ⟨chunk, member, some_chars⟩ : ∃ chunk ∈ s.chunks, chunk ≠ [] := by
      by_contra none
      apply nonempty
      exact List.flatten_eq_nil_iff.mpr fun chunk member =>
        not_not.mp fun some_chars => none ⟨chunk, member, some_chars⟩
    exact Nat.lt_of_lt_of_le (List.length_pos_of_ne_nil some_chars) (s.bounded chunk member).2
  obtain ⟨start, src, deck, init, stored, owned, backing, size, rep, packed⟩ :=
    LFString.storeChunks_of_init malloc positive s.small s.bounded
  change deck.map (fun entry => entry.2.bytes) = s.blocks at packed
  obtain ⟨-, other, filled⟩ := owned.filled
  obtain rfl := filled.rep.deck_eq rep
  have blocks : src.blocks other = other := by simp [LFString.blocks, backing]
  have text : src.text other = other.chars := by rw [LFString.text, blocks]
  obtain ⟨names, numbers, named⟩ := exists_names rep.distinct
  obtain ⟨first, second⟩ := chars_numbered filled.left 0 named
  rw [packed] at first second
  have chars : (src.text other).length = s.text.length := by
    rw [text, first, List.length_map, ← List.length_map (f := Prod.snd), numbered_text]
  -- the blocks have one length, which is not zero
  have used : ∀ entry ∈ other, entry.2.bytes ∈ s.blocks := by
    intro entry member
    rw [← packed]
    exact List.mem_map_of_mem member
  have length : ∀ entry ∈ other, entry.2.bytes.length = entry.2.rightOffset := by
    intro entry member
    simp [Slab.bytes, filled.left entry member]
  have ends : ∀ entry ∈ src.blocks other,
      entry.2.rightOffset = max (lastRight (src.blocks other)) (entry.2.leftOffset + 1) := by
    intro entry member
    rw [blocks] at member ⊢
    obtain ⟨q, c, inDeck, -, last⟩ := exists_last (List.ne_nil_of_mem member)
    have same := even _ (used _ member) _ (used _ inDeck)
    rw [length _ member, length _ inDeck] at same
    rw [last, filled.left entry member, Nat.zero_add]
    have some_used : entry.2.rightOffset ≠ 0 := by
      intro zero
      apply nonempty
      rw [← s.flatten_blocks]
      apply List.flatten_eq_nil_iff.mpr
      intro block inBlocks
      have none := even _ inBlocks _ (used _ member)
      rw [length _ member, zero] at none
      exact List.length_eq_zero_iff.mp none
    dsimp only at same
    omega
  refine ⟨src, other, ?_, size, LFString.holds (.inl owned) rep ends (chars ▸ short),
    ⟨names, text.trans first⟩, ⟨numbers, by rw [text]; exact second⟩⟩
  simp [Storing.store, init, stored]

/-- A text that is in place is lexed into what the scan of its characters shows. -/
theorem InPlace.lexes (inPlace : s.InPlace) (nonempty : s.text ≠ [])
    (short : s.text.length < sizeModulus) (even : s.Even) :
    ∃ result, scan .free s.text .empty = some result ∧ s.Lexes result.seen := by
  obtain ⟨result, scanned⟩ := Option.isSome_iff_exists.mp inPlace
  have free := scan_free scanned
  rw [show (numbered 0 s.blocks).map (stored s.charQttInBlock).char = s.text from
    s.numbered_text] at free
  refine ⟨_, free, ?_⟩
  intro malloc
  obtain ⟨src, deck, stored, size, holds, ⟨names, text⟩, -⟩ :=
    s.exists_source nonempty short even malloc
  have here := scan_map (stored_maps s.charQttInBlock names) scanned
  rw [← text, ← size] at here
  have lexes := holds.lexes here
  have same : ((result.map (Placed.rename names)).map Prod.snd) = result.map Prod.snd := by
    simp [Scan.map, Function.comp_def, Placed.rename]
  rw [same] at lexes
  exact ⟨src, deck, stored, holds.rep, lexes⟩

/-- A text that is not in place, but could be grown, is not lexed. -/
theorem Lexes.inPlace {seen : List Seen} (lexes : s.Lexes seen) (nonempty : s.text ≠ [])
    (short : s.text.length < sizeModulus) (even : s.Even) (isGrown : s.Grown) : s.InPlace := by
  by_contra stuck
  rw [InPlace, Bool.not_eq_true, Option.isSome_eq_false_iff, Option.isNone_iff_eq_none] at stuck
  obtain ⟨result, scanned⟩ := Option.isSome_iff_exists.mp isGrown
  let malloc : Allocator UInt8 := .bump 0
  obtain ⟨src, deck, stored, size, holds, ⟨names, text⟩, ⟨numbers, renamed⟩⟩ :=
    s.exists_source nonempty short even malloc
  obtain ⟨src', deck', stored', rep', lexes⟩ := lexes malloc
  obtain rfl := Option.some.inj (stored.symm.trans stored')
  obtain rfl := holds.rep.deck_eq rep'
  have here := scan_map (grown_maps s.charQttInBlock names) scanned
  rw [← text, ← size] at here
  have stuckHere : scan (LowFlow.stored src.arena.blockSize) (src.text deck) .empty = none := by
    rw [Option.eq_none_iff_forall_ne_some]
    intro result scanned
    have there := scan_map (stored_maps src.arena.blockSize numbers) scanned
    rw [← renamed, size] at there
    exact absurd (there.symm.trans stuck) (by simp)
  obtain ⟨lists, -, -, -, contains⟩ := LexLists.of_init 4 (by decide) (by decide)
  obtain ⟨fuel, lists', -, lexed, -⟩ := lexes lists _ contains
  rw [lfLex_unset holds contains here stuckHere fuel] at lexed
  cases lexed

end Storing

/-- The two strings are lexed alike: into the same types of tokens, with the same contents
of the lexemes that the tokens have. -/
def Storing.Alike (one two : Storing) : Prop := ∃ seen, one.Lexes seen ∧ two.Lexes seen

/-- **When two strings with one text are lexed alike.** Even blocks with the text in place
are enough. With even blocks and lexemes that are grown as they should be, the text has to
be in place. -/
theorem alike_inPlace {one two : Storing} (same : one.text = two.text) (nonempty : one.text ≠ [])
    (short : one.text.length < sizeModulus) :
    ((one.Even ∧ one.InPlace) ∧ two.Even ∧ two.InPlace → one.Alike two) ∧
      ((one.Even ∧ one.Grown) ∧ two.Even ∧ two.Grown → one.Alike two →
        one.InPlace ∧ two.InPlace) := by
  have nonempty' : two.text ≠ [] := same ▸ nonempty
  have short' : two.text.length < sizeModulus := same ▸ short
  constructor
  · rintro ⟨⟨even, inPlace⟩, even', inPlace'⟩
    obtain ⟨result, scanned, lexes⟩ := inPlace.lexes nonempty short even
    obtain ⟨result', scanned', lexes'⟩ := inPlace'.lexes nonempty' short' even'
    rw [← same, scanned] at scanned'
    obtain rfl := Option.some.inj scanned'
    exact ⟨_, lexes, lexes'⟩
  · rintro ⟨⟨even, isGrown⟩, even', isGrown'⟩ ⟨seen, lexes, lexes'⟩
    exact ⟨lexes.inPlace nonempty short even isGrown,
      lexes'.inPlace nonempty' short' even' isGrown'⟩

/-- `ab,c` in one block of four characters. -/
def wordsWhole : Storing := ⟨4, [[97, 98, 44, 99]], by decide, by decide⟩

/-- `ab,c` in two blocks of two characters. -/
def wordsSplit : Storing := ⟨2, [[97, 98], [44, 99]], by decide, by decide⟩

/-- The word and the other character are in one block each. -/
theorem alike_inPlace_words : wordsWhole.Alike wordsSplit :=
  (@alike_inPlace wordsWhole wordsSplit (by decide) (by decide) (by decide)).1
    ⟨⟨by decide, by decide⟩, by decide, by decide⟩

/-- `func` in one block of four characters. -/
def keywordWhole : Storing := ⟨4, [funcWord], by decide, by decide⟩

/-- `func` in two blocks of two characters. -/
def keywordSplit : Storing := ⟨2, [[102, 117], [110, 99]], by decide, by decide⟩

/-- The keyword goes over the end of a block. There the comparison reads a bound that is
not set. -/
theorem keyword_not_alike :
    keywordWhole.text = keywordSplit.text ∧ ¬ keywordWhole.Alike keywordSplit := by
  refine ⟨by decide, ?_⟩
  rintro ⟨seen, -, lexes⟩
  have inPlace : keywordSplit.InPlace :=
    lexes.inPlace (by decide) (by decide) (by decide) (by decide)
  exact absurd inPlace (by decide)

end LowFlow
