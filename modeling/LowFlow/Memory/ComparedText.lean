import LowFlow.Frontend.Source
import LowFlow.Memory.Comparison

/-!
# What a comparison of strings answers

A comparison with an array of characters is right when it answers whether the
live characters of the string are that array, whatever its unset locals hold.
A string of its own and a slice in one block have all bounds set. In a slice of
several blocks the unset bounds decide how much of a block is compared, and
nothing at all can be compared; there the answer is right only when there is
nothing to compare (`compares_iff`).
-/

set_option autoImplicit false

namespace LowFlow

open Library

/-! ## Locals that hold something -/

/-- What `left_offset` and `right_offset` hold when the round of a block begins. -/
abbrev Locals := BlockPtr → ℕ × ℕ

/-- The locals hold values of `size_t`. -/
def Locals.Fit (locals : Locals) : Prop :=
  ∀ p, (locals p).1 < sizeModulus ∧ (locals p).2 < sizeModulus

/-- The loop of `lf_compare_string` with bounds that hold something where they are
not set. -/
def compareBlocksWith (locals : Locals) (left : LFString UInt8) (rightChar : List UInt8) :
    ℕ → Option BlockPtr → ℕ → ℕ → Option Bool
  | _, _, _, 0 => some true
  | _, none, _, _ => some true
  | 0, some _, _, _ + 1 => none
  | fuel + 1, some curBlock, compared, remaining + 1 => do
      let block ← left.arena.heap.block curBlock
      let leftOffset := (comparedBounds left curBlock block).1.getD (locals curBlock).1
      let rightOffset := (comparedBounds left curBlock block).2.getD (locals curBlock).2
      let rightPadding := sizeSub block.size rightOffset
      let usedSize := sizeSub (sizeSub block.size rightPadding) leftOffset
      let compSize := if remaining + 1 < usedSize then remaining + 1 else usedSize
      let bytes ← left.arena.heap.load ⟨curBlock, leftOffset⟩ compSize
      if rightChar.length < compared + compSize then none
      else if bytes ≠ (rightChar.drop compared).take compSize then some false
      else
        compareBlocksWith locals left rightChar fuel block.next (compared + compSize)
          (remaining + 1 - compSize)

/-- `lf_compare_string`, with locals that hold something. -/
def lfCompareStringWith (locals : Locals) (comp : StringComparison) : Option Bool :=
  let curBlock := match comp.left.slice with
    | some slice => slice.headBlock
    | none => comp.left.arena.headBlock
  let leftStrSize := lfGetStringSize comp.left
  match comp.type with
  | .strChar => do
      let rightChar ← comp.rightChar
      if leftStrSize ≠ comp.rightCharSize then some false
      else
        let remaining :=
          if comp.rightCharSize < leftStrSize then comp.rightCharSize else leftStrSize
        compareBlocksWith locals comp.left rightChar comp.left.arena.heap.serial curBlock 0
          remaining
  | .strStr => none

@[simp] theorem compareBlocksWith_done (locals : Locals) (left : LFString UInt8)
    (rightChar : List UInt8) (fuel : ℕ) (curBlock : Option BlockPtr) (compared : ℕ) :
    compareBlocksWith locals left rightChar fuel curBlock compared 0 = some true := by
  rw [compareBlocksWith]

/-- Where no unset local is read, it does not matter what the locals hold. -/
theorem compareBlocksWith_eq (locals : Locals) {left : LFString UInt8} {rightChar : List UInt8}
    {fuel compared remaining : ℕ} {curBlock : Option BlockPtr} {answer : Bool}
    (compares : compareBlocks left rightChar fuel curBlock compared remaining = some answer) :
    compareBlocksWith locals left rightChar fuel curBlock compared remaining = some answer := by
  induction fuel generalizing curBlock compared remaining with
  | zero =>
      cases remaining with
      | zero => simpa using compares
      | succ remaining =>
          cases curBlock with
          | none => simpa [compareBlocks, compareBlocksWith] using compares
          | some p => simp [compareBlocks] at compares
  | succ fuel ih =>
      cases remaining with
      | zero => simpa using compares
      | succ remaining =>
          cases curBlock with
          | none => simpa [compareBlocks, compareBlocksWith] using compares
          | some p =>
              simp only [compareBlocks, Option.bind_eq_bind, Option.bind_eq_some_iff] at compares
              obtain ⟨block, found, leftOffset, leftSet, rightOffset, rightSet, bytes, loaded,
                rest⟩ := compares
              simp only [compareBlocksWith, found, leftSet, rightSet, Option.getD_some, loaded,
                Option.bind_eq_bind, Option.bind_some]
              generalize sizeSub (sizeSub block.size (sizeSub block.size rightOffset)) leftOffset =
                usedSize at loaded rest ⊢
              generalize (if remaining + 1 < usedSize then remaining + 1 else usedSize) =
                compSize at loaded rest ⊢
              split at rest
              · cases rest
              · rename_i enough
                rw [if_neg enough]
                split at rest
                · rename_i different
                  rw [if_pos different]
                  exact rest
                · rename_i same
                  rw [if_neg same]
                  exact ih rest

theorem lfCompareStringWith_eq (locals : Locals) {comp : StringComparison} {answer : Bool}
    (compares : lfCompareString comp = some answer) :
    lfCompareStringWith locals comp = some answer := by
  simp only [lfCompareString, lfCompareStringWith] at compares ⊢
  cases kind : comp.type with
  | strStr => simp [kind] at compares
  | strChar =>
      simp only [kind, Option.bind_eq_bind, Option.bind_eq_some_iff] at compares ⊢
      obtain ⟨word, given, compares⟩ := compares
      refine ⟨word, given, ?_⟩
      split at compares
      · rename_i other
        rw [if_pos other]
        exact compares
      · rename_i same
        rw [if_neg same]
        exact compareBlocksWith_eq locals compares

/-! ## Strings of their own -/

/-- The characters of a string, without their positions. -/
def LFString.content (str : LFString UInt8) (deck : Deck UInt8) : List UInt8 :=
  (str.text deck).map Prod.snd

theorem Deck.chars_cons (entry : BlockPtr × Slab UInt8) (rest : Deck UInt8) :
    (Deck.chars (entry :: rest)).map Prod.snd =
      entry.2.data.read entry.2.leftOffset (entry.2.rightOffset - entry.2.leftOffset) ++
        rest.chars.map Prod.snd := by
  simp only [chars, List.flatMap_cons, List.map_append, List.map_map, Area.read, positionsFrom,
    List.range'_eq_map_range]
  rfl

theorem Deck.length_chars (deck : Deck UInt8) : deck.chars.length = deck.positions.length := by
  rw [← chars_positions, List.length_map]

/-- The first bytes that are read. -/
theorem Area.take_read {β : Type} (area : Area β) (offset : ℕ) {n k : ℕ} (atMost : k ≤ n) :
    (area.read offset n).take k = area.read offset k := by
  rw [← Nat.add_sub_of_le atMost, ← read_append, List.take_append_of_le_length (by simp),
    List.take_of_length_le (by simp)]

/-- A list is the beginning of two lists when it begins with the first one and goes
on with the beginning of the second one. -/
theorem take_append_eq_iff {α : Type} {here there word : List α} {k : ℕ}
    (whole : here.length ≤ k) : (here ++ there).take k = word ↔
      here = word.take here.length ∧ there.take (k - here.length) = word.drop here.length := by
  rw [List.take_append, List.take_of_length_le whole]
  constructor
  · rintro rfl
    simp
  · rintro ⟨first, second⟩
    have joined := List.take_append_drop here.length word
    rwa [← first, ← second] at joined

/-- The loop over the blocks of an owned string compares its first characters. -/
theorem compareBlocks_owned {str : LFString UInt8} (backing : str.slice = none)
    {word : List UInt8} {after before first : Option BlockPtr} {deck : Deck UInt8}
    (chain : Segment (blockView UInt8) str.arena.heap.block after before first deck)
    (ordered : ∀ entry ∈ deck, entry.2.leftOffset ≤ entry.2.rightOffset ∧
      entry.2.rightOffset ≤ entry.2.size ∧ entry.2.size ≤ entry.2.data.extent)
    {fuel compared remaining : ℕ} (enough : deck.length ≤ fuel)
    (left : remaining ≤ deck.chars.length) (counted : compared + remaining = word.length) :
    compareBlocks str word fuel first compared remaining =
      some (decide ((deck.chars.map Prod.snd).take remaining = word.drop compared)) := by
  induction deck generalizing before first fuel compared remaining with
  | nil =>
      obtain rfl : remaining = 0 := Nat.le_zero.mp left
      simp [← counted]
  | cons entry rest ih =>
      obtain ⟨p, b⟩ := entry
      obtain ⟨rfl, node, found, carried, -, onward⟩ := chain
      cases (show node.toSlab = b from carried)
      obtain ⟨⟨low, high, within⟩, ordered⟩ := List.forall_mem_cons.mp ordered
      cases remaining with
      | zero => simp [← counted]
      | succ remaining =>
          obtain ⟨fuel, rfl⟩ : ∃ n, fuel = n + 1 :=
            ⟨fuel - 1, by rw [List.length_cons] at enough; omega⟩
          dsimp only at low high within
          have used : sizeSub (sizeSub node.size (sizeSub node.size node.rightOffset))
              node.leftOffset = node.rightOffset - node.leftOffset := by
            rw [sizeSub_of_le high, sizeSub_of_le (Nat.sub_le ..), Nat.sub_sub_self high,
              sizeSub_of_le low]
          have loads : ∀ n ≤ node.rightOffset - node.leftOffset,
              str.arena.heap.load ⟨p, node.leftOffset⟩ n =
                some (node.data.read node.leftOffset n) := by
            intro n atMost
            have inArea : Heap.InArea node.data node.leftOffset n := ⟨by omega, by omega⟩
            simp [Heap.load, found, inArea]
          have inWord : ¬ word.length < compared + (remaining + 1) := by omega
          rw [← List.length_map (f := Prod.snd), Deck.chars_cons, List.length_append,
            Area.length_read, List.length_map] at left
          dsimp only at left
          rw [Deck.chars_cons]
          simp only [compareBlocks, found, comparedBounds, backing, used, Option.bind_eq_bind,
            Option.bind_some]
          by_cases inside : remaining + 1 < node.rightOffset - node.leftOffset
          · -- the last characters to compare are in this block
            have last : (word.drop compared).take (remaining + 1) = word.drop compared := by
              apply List.take_of_length_le
              rw [List.length_drop]
              omega
            rw [if_pos inside, loads _ (le_of_lt inside), Option.bind_some, if_neg inWord, last,
              List.take_append_of_le_length (by rw [Area.length_read]; exact le_of_lt inside),
              Area.take_read _ _ (le_of_lt inside), Nat.sub_self, compareBlocks_done]
            by_cases same : node.data.read node.leftOffset (remaining + 1) = word.drop compared <;>
              simp [same]
          · have others : compareBlocks str word fuel node.next
                (compared + (node.rightOffset - node.leftOffset))
                (remaining + 1 - (node.rightOffset - node.leftOffset)) =
                  some (decide (((Deck.chars rest).map Prod.snd).take
                    (remaining + 1 - (node.rightOffset - node.leftOffset)) =
                      word.drop (compared + (node.rightOffset - node.leftOffset)))) := by
              rw [List.length_cons] at enough
              exact ih onward ordered (by omega) (by omega) (by omega)
            have equal := @take_append_eq_iff _
              (node.data.read node.leftOffset (node.rightOffset - node.leftOffset))
              ((Deck.chars rest).map Prod.snd) (word.drop compared) (remaining + 1)
              (by rw [Area.length_read]; omega)
            rw [Area.length_read, List.drop_drop] at equal
            rw [if_neg inside, loads _ le_rfl, Option.bind_some, if_neg (by omega), others]
            by_cases same : node.data.read node.leftOffset (node.rightOffset - node.leftOffset) =
                (word.drop compared).take (node.rightOffset - node.leftOffset)
            · rw [if_neg (not_not_intro same)]
              simp only [equal, eq_true same, true_and]
            · rw [if_pos same]
              simp only [equal, eq_false same, false_and, decide_false]

/-! ## Slices of several blocks -/

/-- The border of a slice in a block, or zero in a block without one. -/
def ArenaSlice.border (slice : ArenaSlice) (p : BlockPtr) : ℕ :=
  if some p = slice.headBlock then slice.headOffset
  else if some p = slice.tailBlock then slice.tailOffset
  else 0

/-- Locals with which both bounds of a block are its border. -/
def ArenaSlice.skipping (slice : ArenaSlice) : Locals := fun p => (slice.border p, slice.border p)

/-- With such locals nothing of a slice of several blocks is compared. -/
theorem compareBlocksWith_skips {str : LFString UInt8} {slice : ArenaSlice}
    (backing : str.slice = some slice) (several : slice.headBlock ≠ slice.tailBlock)
    {word : List UInt8} {before first : Option BlockPtr} {deck : Deck UInt8}
    (chain : Segment (blockView UInt8) str.arena.heap.block none before first deck)
    (borders : ∀ entry ∈ deck, slice.border entry.1 ≤ entry.2.size ∧
      slice.border entry.1 ≤ entry.2.data.extent)
    {fuel : ℕ} (enough : deck.length ≤ fuel) (remaining : ℕ) :
    compareBlocksWith slice.skipping str word fuel first 0 remaining = some true := by
  cases remaining with
  | zero => exact compareBlocksWith_done ..
  | succ remaining =>
  induction deck generalizing before first fuel with
  | nil =>
      cases (show first = none from chain)
      cases fuel <;> simp [compareBlocksWith]
  | cons entry rest ih =>
      obtain ⟨p, b⟩ := entry
      obtain ⟨rfl, node, found, carried, -, onward⟩ := chain
      cases (show node.toSlab = b from carried)
      obtain ⟨⟨bound, within⟩, borders⟩ := List.forall_mem_cons.mp borders
      obtain ⟨fuel, rfl⟩ : ∃ n, fuel = n + 1 :=
        ⟨fuel - 1, by rw [List.length_cons] at enough; omega⟩
      dsimp only at bound within
      have leftBound : (comparedBounds str p node).1.getD (slice.border p) = slice.border p := by
        simp only [comparedBounds, backing, ArenaSlice.border]
        split <;> rfl
      have rightBound : (comparedBounds str p node).2.getD (slice.border p) = slice.border p := by
        simp only [comparedBounds, backing, ArenaSlice.border]
        by_cases tail : some p = slice.tailBlock
        · have notHead : some p ≠ slice.headBlock := fun head => several (head.symm.trans tail)
          rw [if_pos tail, if_neg notHead, if_pos tail]
          rfl
        · rw [if_neg tail]
          rfl
      have nothing : sizeSub (sizeSub node.size (sizeSub node.size (slice.border p)))
          (slice.border p) = 0 := by
        rw [sizeSub_of_le bound, sizeSub_of_le (Nat.sub_le ..), Nat.sub_sub_self bound,
          sizeSub_of_le le_rfl, Nat.sub_self]
      have loads : str.arena.heap.load ⟨p, slice.border p⟩ 0 = some [] := by
        have inArea : Heap.InArea node.data (slice.border p) 0 := ⟨by omega, by simpa using within⟩
        simp [Heap.load, found, inArea, Area.read]
      have onward := ih onward borders (show rest.length ≤ fuel by simpa using enough)
      simp only [compareBlocksWith, found, ArenaSlice.skipping, leftBound, rightBound, nothing,
        Nat.not_lt_zero, ↓reduceIte, loads, Option.bind_eq_bind, Option.bind_some, Nat.add_zero,
        List.take_zero, ne_eq, not_true_eq_false, Nat.sub_zero]
      exact onward

/-- The borders of a slice are inside the used ranges of their blocks. -/
theorem ArenaSlice.LiesIn.border_le {β : Type} {slice : ArenaSlice} {deck : Deck β}
    (lies : slice.LiesIn deck) (distinct : (ptrs deck).Nodup) {entry : BlockPtr × Slab β}
    (member : entry ∈ deck) : slice.border entry.1 ≤ entry.2.rightOffset := by
  obtain ⟨before, blocks, after, rfl, spans⟩ := lies
  have same : ∀ other ∈ blocks, other.1 = entry.1 → other = entry := fun other inBlocks equal =>
    List.inj_on_of_nodup_map distinct (by simp [inBlocks]) member equal
  simp only [border]
  split
  · rename_i head
    obtain ⟨first, rest, split⟩ := List.exists_cons_of_ne_nil spans.nonempty
    have here : first ∈ blocks := by simp [split]
    have equal : first.1 = entry.1 := by simpa [spans.head, split] using head.symm
    obtain rfl := same first here equal
    have within := (spans.trim_within here).2
    have ordered := spans.ordered first here
    simp only [trim, head, ↓reduceIte] at ordered within
    exact ordered.trans within
  · split
    · rename_i tail
      obtain ⟨front, last, split⟩ := (List.eq_nil_or_concat' blocks).resolve_left spans.nonempty
      have here : last ∈ blocks := by simp [split]
      have equal : last.1 = entry.1 := by simpa [spans.tail, split] using tail.symm
      obtain rfl := same last here equal
      exact spans.high last here tail
    · exact Nat.zero_le _

/-! ## Right answers -/

/-- The comparison with every array answers whether it is the content of the string,
whatever the locals hold. -/
def LFString.Compares (str : LFString UInt8) (deck : Deck UInt8) : Prop :=
  ∀ (locals : Locals) (word : List UInt8), locals.Fit → word.length < sizeModulus →
    lfCompareStringWith locals ⟨.strChar, str, some word, word.length⟩ =
      some (decide (str.content deck = word))

section Answers

variable {str : LFString UInt8} {deck : Deck UInt8}

/-- An owned string is compared with its first characters, as many as are counted. -/
theorem lfCompareString_owned (backing : str.slice = none) (filled : Filled str.arena deck)
    {word : List UInt8} (counted : str.arena.size = word.length) :
    lfCompareString ⟨.strChar, str, some word, word.length⟩ =
      some (decide ((str.content deck).take word.length = word)) := by
  have ordered : ∀ entry ∈ deck, entry.2.leftOffset ≤ entry.2.rightOffset ∧
      entry.2.rightOffset ≤ entry.2.size ∧ entry.2.size ≤ entry.2.data.extent := by
    intro entry member
    rw [filled.left entry member, filled.rep.sized entry member, filled.rep.extent entry member]
    exact ⟨Nat.zero_le _, filled.right entry member, le_rfl⟩
  have enough : word.length ≤ deck.chars.length := by
    rw [← counted, filled.size, Deck.length_chars]
    exact Nat.mod_le ..
  have compared := compareBlocks_owned backing filled.rep.chain ordered filled.rep.length_le enough
    (Nat.zero_add _)
  rw [List.drop_zero] at compared
  simp only [lfCompareString, lfGetStringSize, backing, counted, ne_eq, not_true_eq_false,
    ↓reduceIte, ite_self, Option.bind_eq_bind, Option.bind_some, compared, LFString.content,
    LFString.text, LFString.blocks]

theorem compares_owned_iff (backing : str.slice = none) (filled : Filled str.arena deck) :
    str.Compares deck ↔ (str.text deck).length < sizeModulus := by
  have text : str.text deck = deck.chars := by simp [LFString.text, LFString.blocks, backing]
  have size : str.arena.size = sizeWrap (str.text deck).length := by
    rw [text, Deck.length_chars, filled.size]
  have length : (str.content deck).length = (str.text deck).length := List.length_map ..
  constructor
  · intro compares
    by_contra long
    have fits : str.arena.size < sizeModulus := size ▸ sizeWrap_lt _
    have counted : str.arena.size = ((str.content deck).take str.arena.size).length := by
      rw [List.length_take, length]
      omega
    have answer := lfCompareStringWith_eq (fun _ => (0, 0))
      (lfCompareString_owned backing filled counted)
    rw [← counted, decide_eq_true rfl] at answer
    have right :=
      compares (fun _ => (0, 0)) _
        (fun _ => ⟨show 0 < sizeModulus by decide, show 0 < sizeModulus by decide⟩)
      (lt_of_eq_of_lt counted.symm fits)
    rw [← counted, answer, Option.some.injEq, eq_comm, decide_eq_true_iff] at right
    have same := congrArg List.length right
    rw [List.length_take, length] at same
    omega
  · intro short locals word _ _
    apply lfCompareStringWith_eq
    rw [sizeWrap_of_lt short] at size
    by_cases counted : str.arena.size = word.length
    · rw [lfCompareString_owned backing filled counted,
        List.take_of_length_le (by rw [length]; omega)]
    · rw [lfCompareString_size (by simpa [lfGetStringSize, backing] using counted)]
      have different : str.content deck ≠ word := by
        intro same
        rw [← same, length] at counted
        exact counted size
      simp [different]

/-- A slice in one block is compared with its content. -/
theorem compares_single {slice : ArenaSlice} (backing : str.slice = some slice)
    (filled : Filled str.arena deck) {p : BlockPtr} {b : Slab UInt8} (inDeck : (p, b) ∈ deck)
    (blocks : str.blocks deck = [(p, b)].map slice.trim) (spans : slice.Spans [(p, b)])
    (computed : lfGetArenaSliceSize str.arena.heap slice = some slice) : str.Compares deck := by
  obtain ⟨node, found, carried⟩ := filled.rep.lookup inDeck
  cases (show node.toSlab = b from carried)
  have head : slice.headBlock = some p := by simp [spans.head]
  have tail : slice.tailBlock = some p := by simp [spans.tail]
  have high : slice.tailOffset ≤ node.rightOffset := spans.high (p, node.toSlab) (by simp) tail.symm
  have right : node.rightOffset ≤ str.arena.blockSize := filled.right _ inDeck
  have width : node.size = str.arena.blockSize := filled.rep.sized _ inDeck
  have between : slice.headOffset ≤ slice.tailOffset := by
    simpa [ArenaSlice.trim, head, tail] using spans.ordered (p, node.toSlab) (by simp)
  have small := filled.small
  obtain ⟨-, counted, -⟩ := sliceSize_single spans (show node.rightOffset < _ by omega) computed
  have size : slice.size = slice.tailOffset - slice.headOffset := by
    simpa [ArenaSlice.trim, head, tail] using counted
  have content : str.content deck = node.data.read slice.headOffset slice.size := by
    rw [LFString.content, LFString.text, blocks, List.map_singleton, Deck.chars_cons, size]
    simp [ArenaSlice.trim, head, tail, Deck.chars]
  have loaded := filled.rep.load inDeck
    (show slice.headOffset + slice.size ≤ str.arena.blockSize by omega)
  have known : 0 < str.arena.heap.serial :=
    lt_of_le_of_lt (Nat.zero_le _) (filled.rep.known _ (List.mem_map_of_mem inDeck))
  intro locals word _ _
  rw [content]
  apply lfCompareStringWith_eq
  exact lfCompareString_block backing head tail found known (by omega) (by omega) loaded
    (Area.length_read ..) word

/-- With locals that skip, a slice of several blocks is equal to every array of its
recorded size. -/
theorem lfCompareStringWith_skips {slice : ArenaSlice} (backing : str.slice = some slice)
    (filled : Filled str.arena deck) (lies : slice.LiesIn deck)
    (several : slice.headBlock ≠ slice.tailBlock) {word : List UInt8}
    (counted : slice.size = word.length) :
    lfCompareStringWith slice.skipping ⟨.strChar, str, some word, word.length⟩ = some true := by
  have borders : ∀ entry ∈ deck, slice.border entry.1 ≤ entry.2.size ∧
      slice.border entry.1 ≤ entry.2.data.extent := by
    intro entry member
    have border := lies.border_le filled.rep.distinct member
    rw [filled.rep.sized entry member, filled.rep.extent entry member, and_self]
    exact border.trans (filled.right entry member)
  have enough := filled.rep.length_le
  have chain := filled.rep.chain
  obtain ⟨before, blocks, after, rfl, spans⟩ := lies
  rw [List.append_assoc] at chain borders enough
  obtain ⟨middle, -, onward⟩ := segment_append.mp chain
  have head : slice.headBlock = middle := by
    rw [spans.head, onward.first_eq, Option.or_none, ptrs, ptrs, List.map_append,
      List.head?_append_of_ne_nil _ (by simpa using spans.nonempty)]
  have atMost : (blocks ++ after).length ≤ str.arena.heap.serial := by
    rw [List.length_append] at enough
    omega
  have skips : compareBlocksWith slice.skipping str word str.arena.heap.serial slice.headBlock 0
      word.length = some true :=
    compareBlocksWith_skips backing several (head ▸ onward)
      (fun entry member => borders entry (List.mem_append_right _ member)) atMost word.length
  simpa [lfCompareStringWith, lfGetStringSize, backing, counted] using skips

theorem skipping_fit {slice : ArenaSlice} (filled : Filled str.arena deck)
    (lies : slice.LiesIn deck) : slice.skipping.Fit := by
  have small := filled.small
  have bound : ∀ p, slice.border p < sizeModulus := by
    intro p
    by_cases known : p ∈ ptrs deck
    · obtain ⟨entry, member, rfl⟩ := List.mem_map.mp known
      have border := lies.border_le filled.rep.distinct member
      have right := filled.right entry member
      omega
    · obtain ⟨before, blocks, after, rfl, spans⟩ := lies
      have notHead : some p ≠ slice.headBlock := by
        intro head
        have inBlocks := List.mem_of_mem_head? (head.trans spans.head).symm
        exact known (by simp [inBlocks])
      have notTail : some p ≠ slice.tailBlock := by
        intro tail
        have inBlocks := List.mem_of_getLast? (tail.trans spans.tail).symm
        exact known (by simp [inBlocks])
      simp only [ArenaSlice.border, if_neg notHead, if_neg notTail]
      decide
  exact fun p => ⟨bound p, bound p⟩

/-- A slice of several blocks is compared rightly only when its content and its
recorded size are both empty. -/
theorem compares_several_iff {slice : ArenaSlice} (backing : str.slice = some slice)
    (filled : Filled str.arena deck) (lies : slice.LiesIn deck)
    (several : slice.headBlock ≠ slice.tailBlock) (small : slice.size < sizeModulus) :
    str.Compares deck ↔ str.text deck = [] ∧ slice.size = 0 := by
  constructor
  · intro compares
    have content : ∀ word : List UInt8, slice.size = word.length → str.content deck = word := by
      intro word counted
      have right := compares slice.skipping word (skipping_fit filled lies) (counted ▸ small)
      rw [lfCompareStringWith_skips backing filled lies several counted, Option.some.injEq,
        eq_comm, decide_eq_true_iff] at right
      exact right
    have zeros := content (List.replicate slice.size 0) (by simp)
    have ones := content (List.replicate slice.size 1) (by simp)
    have empty : slice.size = 0 := by
      rw [zeros] at ones
      simpa using ones
    rw [empty] at zeros
    exact ⟨List.map_eq_nil_iff.mp zeros, empty⟩
  · rintro ⟨text, empty⟩ locals word _ _
    have content : str.content deck = [] := by rw [LFString.content, text, List.map_nil]
    rw [content]
    cases word with
    | nil => simp [lfCompareStringWith, lfGetStringSize, backing, empty]
    | cons char word =>
        apply lfCompareStringWith_eq
        rw [lfCompareString_size (by simp [lfGetStringSize, backing, empty])]
        simp

end Answers

/-- **Comparisons are right** for a string of its own and for a slice in one block,
but for a slice of several blocks only when it is empty and its head block is full. -/
theorem compares_iff {str : LFString UInt8} (built : str.Owned ∨ str.Backed) {deck : Deck UInt8}
    (rep : Represents str.arena deck) :
    str.Compares deck ↔ (str.text deck).length < sizeModulus ∧
      ∀ slice, str.slice = some slice → slice.headBlock ≠ slice.tailBlock →
        str.text deck = [] ∧ ∀ entry ∈ deck, some entry.1 = slice.headBlock →
          entry.2.rightOffset = entry.2.size := by
  rcases built with owned | backed
  · obtain ⟨backing, other, filled⟩ := owned.filled
    obtain rfl := filled.rep.deck_eq rep
    rw [compares_owned_iff backing filled]
    simp [backing]
  · obtain ⟨other, slice, filled, backing, lies, computed⟩ := backed.slice
    obtain rfl := filled.rep.deck_eq rep
    have counts := sliceSize_eq_iff filled lies computed
    have live : (slice.live other).length = (str.text other).length := by
      rw [LFString.text, Deck.length_chars]
      simp [LFString.blocks, backing, ArenaSlice.live]
    rw [live] at counts
    obtain ⟨before, blocks, after, rfl, spans⟩ := id lies
    obtain ⟨⟨p, b⟩, rest, rfl⟩ := List.exists_cons_of_ne_nil spans.nonempty
    rcases List.eq_nil_or_concat' rest with rfl | ⟨middle, ⟨q, c⟩, rfl⟩
    · obtain ⟨same, size, small⟩ := sliceSize_single spans
        (lt_of_le_of_lt (filled.right (p, b) (by simp)) filled.small) computed
      have blocks : str.blocks (before ++ [(p, b)] ++ after) = [(p, b)].map slice.trim := by
        simp only [LFString.blocks, backing]
        exact spans.cut_eq filled.rep.distinct
      have compares := compares_single backing filled (by simp) blocks spans computed
      rw [backing]
      have short : (str.text (before ++ [(p, b)] ++ after)).length < sizeModulus := by
        rw [LFString.text, blocks, Deck.length_chars, ← size]
        exact small
      refine iff_of_true compares ⟨short, ?_⟩
      rintro _ ⟨⟩ several
      exact absurd same several
    · obtain ⟨several, size⟩ := sliceSize_several filled spans computed
      rw [compares_several_iff backing filled lies several (size ▸ sizeWrap_lt _)]
      constructor
      · rintro ⟨text, empty⟩
        obtain ⟨short, full⟩ := counts.mp (by rw [text, empty]; rfl)
        refine ⟨short, ?_⟩
        intro other same _
        rw [backing, Option.some.injEq] at same
        exact ⟨text, same ▸ full several⟩
      · rintro ⟨short, only⟩
        obtain ⟨text, full⟩ := only slice backing several
        have same := counts.mpr ⟨short, fun _ => full⟩
        rw [text] at same
        exact ⟨text, same.symm⟩

/-- An owned string of two blocks. -/
theorem compares_two_blocks : ∃ (str : LFString UInt8) (deck : Deck UInt8),
    str.content deck = [1, 2, 3, 4, 5, 6] ∧ str.Compares deck := by
  let declared : LFString UInt8 := LFString.declared (Allocator.bump 0) 4
  have ends : ((lfInitString declared).bind fun start =>
      (run stringCall [.alloc 4 [1, 2, 3, 4], .alloc 2 [5, 6]] start).bind fun (_, str) =>
        (blocksFrom str.arena.heap str.arena.blockCount str.arena.headBlock).map fun deck =>
          str.content deck) = some [1, 2, 3, 4, 5, 6] := by
    decide +kernel
  obtain ⟨start, init, ends⟩ := Option.bind_eq_some_iff.mp ends
  obtain ⟨⟨answers, str⟩, runs, ends⟩ := Option.bind_eq_some_iff.mp ends
  have owned : str.Owned := ⟨declared, start, _, answers, rfl, by decide, init, runs⟩
  obtain ⟨backing, deck, filled⟩ := owned.filled
  simp only [filled.rep.blocksFrom_eq, Option.map_some, Option.some.injEq] at ends
  refine ⟨str, deck, ends, (compares_iff (.inl owned) filled.rep).mpr ⟨?_, by simp [backing]⟩⟩
  have length := congrArg List.length ends
  rw [LFString.content, List.length_map] at length
  rw [length]
  decide

/-- A slice of these two blocks is equal to other characters, when the locals say
that there is nothing to compare. -/
theorem slice_equal_to_anything : ∃ (str : LFString UInt8) (deck : Deck UInt8), str.Backed ∧
    Represents str.arena deck ∧ str.content deck = [1, 2, 3, 4, 5, 6] ∧ ¬ str.Compares deck := by
  let declared : LFString UInt8 := LFString.declared (Allocator.bump 0) 4
  let locals : Locals := fun p => if p = 0 then (0, 0) else (2, 2)
  have ends : ((lfInitString declared).bind fun start =>
      (run stringCall [.alloc 4 [1, 2, 3, 4], .alloc 2 [5, 6]] start).bind fun (_, owned) =>
        (lfInitString { owned with slice := some ⟨none, none, 0, 0, 0⟩ }).bind fun str =>
          (blocksFrom str.arena.heap str.arena.blockCount str.arena.headBlock).map fun deck =>
            (str.content deck,
              lfCompareStringWith locals ⟨.strChar, str, some [9, 9, 9, 9, 9, 9], 6⟩)) =
      some ([1, 2, 3, 4, 5, 6], some true) := by
    decide +kernel
  obtain ⟨start, init, ends⟩ := Option.bind_eq_some_iff.mp ends
  obtain ⟨⟨answers, owned⟩, runs, ends⟩ := Option.bind_eq_some_iff.mp ends
  obtain ⟨str, made, ends⟩ := Option.bind_eq_some_iff.mp ends
  have isOwned : owned.Owned := ⟨declared, start, _, answers, rfl, by decide, init, runs⟩
  have backed : str.Backed :=
    ⟨owned, { owned with slice := some ⟨none, none, 0, 0, 0⟩ }, isOwned, rfl, .inr ⟨rfl, made⟩⟩
  obtain ⟨deck, slice, filled, -⟩ := backed.slice
  simp only [filled.rep.blocksFrom_eq, Option.map_some, Option.some.injEq, Prod.mk.injEq] at ends
  obtain ⟨content, answer⟩ := ends
  refine ⟨str, deck, backed, filled.rep, content, ?_⟩
  intro compares
  have fit : locals.Fit := by
    intro p
    by_cases head : p = 0
    · simp only [locals, if_pos head]
      decide
    · simp only [locals, if_neg head]
      decide
  have right := compares locals [9, 9, 9, 9, 9, 9] fit (by decide)
  rw [content, show ([9, 9, 9, 9, 9, 9] : List UInt8).length = 6 from rfl, answer] at right
  revert right
  decide

end LowFlow
