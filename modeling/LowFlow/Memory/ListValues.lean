import LowFlow.Memory.ListRuns
import LowFlow.Memory.Typed

/-!
# Lists of values

A list is used with elements of one type: an element is allocated, and its
members are written and read through the pointer to it.
-/

set_option autoImplicit false

namespace LowFlow

open Library

variable {β α : Type}

/-! ## Writing to an element -/

namespace LFList.Holds

variable {list : LFList β} {deck : Deck β} {front back : List (Element β)} {ptr : Ptr}
  {old bytes : List β}

/-- Writing to an element changes that element. -/
theorem write (holds : list.Holds deck (front ++ (ptr, old) :: back))
    (sized : bytes.length = list.elemSize) :
    ∃ heap deck', list.arena.heap.store ptr bytes = some heap ∧
      LFList.Holds { list with arena := { list.arena with heap } } deck'
        (front ++ (ptr, bytes) :: back) := by
  have tiles := holds.tiles
  simp only [List.map_append, List.map_cons] at tiles
  obtain ⟨⟨p, b⟩, inDeck, block, low, high⟩ := tiles.inside
    (List.mem_append_right _ (List.mem_cons_self ..))
  obtain ⟨q, offset⟩ := ptr
  obtain rfl : q = p := block
  obtain ⟨offset, rfl⟩ := Int.eq_ofNat_of_zero_le (Int.le_trans (Int.natCast_nonneg _) low)
  have bound := holds.bounded _ inDeck
  have short := holds.padded
  have inside : offset + bytes.length ≤ list.arena.blockSize := by
    simp only [cell] at high
    dsimp only at bound
    omega
  have known : q ∈ ptrs deck := List.mem_map_of_mem inDeck
  obtain ⟨heap, stored, rep, keeps⟩ := holds.rep.store known inside
  have ranges : deck.SameRanges (deck.modify q fun b => b.write offset bytes) :=
    Deck.SameRanges.modify deck q (fun _ => rfl) (fun _ => rfl)
  have apart := tiles.pairwise holds.rep.distinct
  have others : ∀ e ∈ front ++ back, Region.Apart (cell list.elemPaddedSize e.1)
      (cell list.elemPaddedSize ⟨q, offset⟩) := by
    obtain ⟨-, here, across⟩ := List.pairwise_append.mp apart
    intro e member
    rcases List.mem_append.mp member with before | behind
    · exact across _ (List.mem_map_of_mem (List.mem_map_of_mem before)) _ (List.mem_cons_self ..)
    · have one :=
        (List.pairwise_cons.mp here).1 _ (List.mem_map_of_mem (List.mem_map_of_mem behind))
      rcases one with other | left | right
      · exact .inl other.symm
      · exact .inr (.inr left)
      · exact .inr (.inl right)
  refine ⟨heap, deck.modify q fun b => b.write offset bytes, stored, ?_⟩
  exact {
    rep := rep
    cursor := by simpa using holds.cursor
    count := by simpa using holds.count
    positive := holds.positive
    padded := holds.padded
    bounded := by
      intro entry changed
      obtain ⟨before, inDeck, -, right⟩ := ranges.origin changed
      rw [right]
      exact holds.bounded before inDeck
    later := by
      intro entry changed
      obtain ⟨before, inTail, left, right⟩ := ranges.tail.origin changed
      rw [left, right]
      exact holds.later before inTail
    sized := by
      intro e member
      rcases List.mem_append.mp member with before | behind
      · exact holds.sized e (List.mem_append_left _ before)
      · rcases List.mem_cons.mp behind with rfl | behind
        · exact sized
        · exact holds.sized e (List.mem_append_right _ (List.mem_cons_of_mem _ behind))
    tiles := ranges.tiles (by simpa using tiles)
    reads := by
      have elsewhere : ∀ e ∈ front ++ back,
          Deck.Reads (deck.modify q fun b => b.write offset bytes) e.1 e.2 := by
        intro e member
        have inAll : e ∈ front ++ (⟨q, offset⟩, old) :: back := by
          simp only [List.mem_append, List.mem_cons] at member ⊢
          rcases member with before | behind
          · exact .inl before
          · exact .inr (.inr behind)
        have size := holds.sized e inAll
        apply (holds.reads e inAll).store_apart ⟨q, offset⟩ (Int.natCast_nonneg _)
        rcases others e member with other | left | right
        · exact .inl other
        · refine .inr (.inl (Int.le_trans ?_ left))
          simp only [cell]
          omega
        · refine .inr (.inr (Int.le_trans ?_ right))
          simp only [cell]
          omega
      intro e member
      rcases List.mem_append.mp member with before | behind
      · exact elsewhere e (List.mem_append_left _ before)
      · rcases List.mem_cons.mp behind with rfl | behind
        · exact @Deck.Reads.store_same _ deck ⟨q, offset⟩ known (Int.natCast_nonneg _) bytes
        · exact elsewhere e (List.mem_append_right _ behind) }

end LFList.Holds

/-! ## Elements of one type -/

/-- `*(T *)elem`. -/
def LFList.read [DecidableEq α] (list : LFList (Cell α)) (size : ℕ) (elem : Ptr) : Option α := do
  whole (← list.arena.heap.load elem size)

/-- `*(T *)elem = value`. -/
def LFList.write (list : LFList (Cell α)) (size : ℕ) (elem : Ptr) (value : α) :
    Option (LFList (Cell α)) := do
  let heap ← list.arena.heap.store elem (pieces size value)
  some { list with arena := { list.arena with heap } }

/-- The list has these elements, and blocks with room for another one. -/
structure LFList.Values (list : LFList (Cell α)) (size : ℕ) (elems : List (Ptr × α)) : Prop where
  elemSize : list.elemSize = size
  room : list.elemPaddedSize ≤ list.arena.blockSize
  small : list.elemPaddedSize < sizeModulus
  holds : ∃ deck, list.Holds deck (elems.map fun e => (e.1, pieces size e.2))

/-- A new element is allocated and then written. -/
theorem LFList.Holds.pushValue {list : LFList (Cell α)} {deck : Deck (Cell α)}
    {live : List (Element (Cell α))} (holds : list.Holds deck live)
    (room : list.elemPaddedSize ≤ list.arena.blockSize) (small : list.elemPaddedSize < sizeModulus)
    (value : α) :
    ∃ ptr list₁ list' deck₁ deck', lfAllocListElem list = some (ptr, list₁) ∧
      list₁.write list.elemSize ptr value = some list' ∧
      AllocTail list.arena list.elemPaddedSize deck ptr deck₁ ∧ deck₁.SameRanges deck' ∧
      list.Keeps list' ∧ list'.Holds deck' (live ++ [(ptr, pieces list.elemSize value)]) := by
  have sized : ∀ v ∈ [pieces list.elemSize value], v.length = list.elemSize := by simp
  obtain ⟨ptr, list', deck₁, deck', pushed, change, ranges, keeps, holds'⟩ :=
    holds.push (by simp) sized (by simpa using room) (by simpa using small)
  simp only [LFList.push, List.length_singleton, Option.bind_eq_bind,
    Option.bind_eq_some_iff] at pushed
  obtain ⟨⟨ptr', list₁⟩, alloc, heap, stored, same⟩ := pushed
  simp only [Option.some.injEq, Prod.mk.injEq] at same
  obtain ⟨rfl, rfl⟩ := same
  simp only [storeElems, Option.bind_eq_bind, Option.bind_fun_some] at stored
  rw [List.length_singleton, Nat.one_mul] at change
  exact ⟨ptr', list₁, _, deck₁, deck', alloc, by simp [LFList.write, stored], change, ranges, keeps,
    by simpa [placesFrom] using holds'⟩

namespace LFList.Values

variable {list : LFList (Cell α)} {size : ℕ} {elems front back : List (Ptr × α)}

theorem read [DecidableEq α] (values : list.Values size elems) {ptr : Ptr} {value : α}
    (member : (ptr, value) ∈ elems) : list.read size ptr = some value := by
  obtain ⟨rfl, -, -, deck, holds⟩ := values
  have loaded := holds.load (List.mem_map_of_mem member)
  dsimp only at loaded
  simp [LFList.read, loaded, whole_pieces holds.positive]

theorem write {ptr : Ptr} {old : α} (values : list.Values size (front ++ (ptr, old) :: back))
    (value : α) : ∃ list', list.write size ptr value = some list' ∧
      list'.Values size (front ++ (ptr, value) :: back) := by
  obtain ⟨rfl, room, small, deck, holds⟩ := values
  rw [List.map_append, List.map_cons] at holds
  obtain ⟨heap, deck', stored, holds'⟩ :=
    holds.write (length_pieces list.elemSize value)
  refine ⟨{ list with arena := { list.arena with heap } }, by simp [LFList.write, stored],
    rfl, room, small, deck', ?_⟩
  rw [List.map_append, List.map_cons]
  exact holds'

/-- A new element is allocated and then written. -/
theorem push (values : list.Values size elems) (value : α) :
    ∃ ptr list₁ list', lfAllocListElem list = some (ptr, list₁) ∧
      list₁.write size ptr value = some list' ∧ list'.Values size (elems ++ [(ptr, value)]) ∧
      list'.elemCount = list.elemCount + 1 := by
  obtain ⟨rfl, room, small, deck, holds⟩ := values
  obtain ⟨ptr, list₁, list', deck₁, deck', alloc, written, -, -, keeps, holds'⟩ :=
    holds.pushValue room small value
  have sameSize : list'.elemSize = list.elemSize := keeps.size
  refine ⟨ptr, list₁, list', alloc, written, ⟨sameSize, ?_, ?_, deck', ?_⟩, ?_⟩
  · exact keeps.padded ▸ keeps.arena ▸ room
  · exact keeps.padded ▸ small
  · simpa using holds'
  · rw [holds'.count, holds.count, List.length_append, List.length_singleton]

/-- A list has its elements in one way. -/
theorem unique [DecidableEq α] {elems' : List (Ptr × α)} (values : list.Values size elems)
    (values' : list.Values size elems') : elems = elems' := by
  obtain ⟨rfl, -, -, deck, holds⟩ := id values
  obtain ⟨-, -, -, deck', holds'⟩ := id values'
  obtain rfl := holds.rep.deck_eq holds'.rep
  have places : elems.map Prod.fst = elems'.map Prod.fst := by
    have even : ∀ ptrs : List Ptr, ∀ r ∈ ptrs.map (cell list.elemPaddedSize),
        r.size = list.elemPaddedSize := by
      intro ptrs r member
      obtain ⟨ptr, -, rfl⟩ := List.mem_map.mp member
      rfl
    have cells := holds.tiles.unique holds'.tiles (even _) (even _)
    have injective : Function.Injective (cell list.elemPaddedSize) :=
      fun one two same => congrArg Region.ptr same
    simpa [Function.comp_def] using injective.list_map cells
  have readings : ∀ es : List (Ptr × α), list.Values list.elemSize es →
      es.map (fun e => (e.1, some e.2)) =
        (es.map Prod.fst).map fun ptr => (ptr, list.read list.elemSize ptr) := by
    intro es values
    rw [List.map_map]
    apply List.map_congr_left
    intro e member
    exact congrArg (Prod.mk e.1) (values.read member).symm
  have injective : Function.Injective fun e : Ptr × α => (e.1, some e.2) := by
    intro one two same
    obtain ⟨ptr, value⟩ := Prod.mk.inj same
    exact Prod.ext ptr (Option.some.inj value)
  apply injective.list_map
  rw [readings _ values, readings _ values', places]

/-- A new list of aligned elements has no elements. -/
theorem of_init {declared : LFList (Cell α)} (positive : 0 < declared.elemSize)
    (some_in_block : 0 < declared.elemQttInBlock)
    (aligned : declared.elemAlignment ∣ declared.elemSize)
    (small : declared.elemQttInBlock * declared.elemSize < sizeModulus) :
    ∃ list, lfInitList declared = some list ∧ list.Values declared.elemSize [] := by
  have atMost : declared.elemSize ≤ declared.elemQttInBlock * declared.elemSize :=
    Nat.le_mul_of_pos_left _ some_in_block
  have area : 0 < declared.elemQttInBlock * declared.elemSize := Nat.mul_pos some_in_block positive
  have width := paddedSize_of_dvd aligned positive (by omega)
  obtain ⟨list, p, b, init, rep, blocks, -, cursor, left, right, -, elemSize, -, elemPadded,
    count⟩ := lfInitList_spec declared positive some_in_block width (by rwa [sizeWrap_of_lt small])
  rw [sizeWrap_of_lt small] at blocks
  refine ⟨list, init, elemSize, by rw [elemPadded, blocks]; exact atMost, by omega, [(p, b)], ?_⟩
  exact {
    rep := rep
    cursor := ⟨p, by simp, cursor⟩
    count := count
    positive := by omega
    padded := by omega
    bounded := List.forall_mem_singleton.mpr (right ▸ startOffset_le ..)
    later := by simp
    sized := by simp
    tiles := tilesDeck_singleton.mpr (left.trans right.symm)
    reads := by simp }

end LFList.Values

/-! ## Walking from the first value on -/

/-- The list has these elements, the first of which is in its head block. -/
structure LFList.Queue (list : LFList (Cell α)) (size : ℕ) (elems : List (Ptr × α)) : Prop where
  values : list.Values size elems
  fits : list.elemPaddedSize ≤
    list.arena.blockSize - startOffset .middle list.arena.blockSize
  head : ∃ p b later, Represents list.arena ((p, b) :: later) ∧
    (b.leftOffset = b.rightOffset →
      later = [] ∧ b.rightOffset = startOffset .middle list.arena.blockSize) ∧
    (elems ≠ [] → b.leftOffset ≠ b.rightOffset)

namespace LFList.Queue

variable {list : LFList (Cell α)} {size : ℕ} {elems front back : List (Ptr × α)}

/-- Moving the cursor to another block changes nothing else. -/
theorem withCursor (queue : list.Queue size elems) {q : BlockPtr}
    (member : ∀ deck, Represents list.arena deck → q ∈ ptrs deck) :
    (list.withCursor (some q)).Queue size elems := by
  obtain ⟨⟨elemSize, room, small, deck, holds⟩, fits, p, b, later, rep, nonempty⟩ := queue
  exact ⟨⟨elemSize, room, small, deck, holds.withCursor (member deck holds.rep)⟩, fits, p, b, later,
    rep.withCursor (some q), nonempty⟩

/-- A new element comes behind the others. -/
theorem push (queue : list.Queue size elems) (value : α) :
    ∃ ptr list₁ list', lfAllocListElem list = some (ptr, list₁) ∧
      list₁.write size ptr value = some list' ∧ list'.Queue size (elems ++ [(ptr, value)]) := by
  obtain ⟨⟨rfl, room, small, deck, holds⟩, fits, p, b, later, rep, empty, nonempty⟩ := queue
  obtain rfl := holds.rep.deck_eq rep
  obtain ⟨ptr, list₁, list', deck₁, deck', alloc, written, change, ranges, keeps, holds'⟩ :=
    holds.pushValue room small value
  refine ⟨ptr, list₁, list', alloc, written, ⟨⟨keeps.size, ?_, ?_, deck', by simpa using holds'⟩,
    ?_, ?_⟩⟩
  · exact keeps.padded ▸ keeps.arena ▸ room
  · exact keeps.padded ▸ small
  · exact keeps.padded ▸ keeps.arena ▸ fits
  obtain ⟨c, later₁, rfl, left, first⟩ := change.firstBlock
  cases ranges with
  | @cons _ entry _ later' here _ =>
  obtain ⟨q, d⟩ := entry
  obtain ⟨rfl, sameLeft, sameRight⟩ := here
  dsimp only at sameLeft sameRight
  have ordered := holds.tiles.left_le (List.mem_cons_self ..)
  have width : b.size = list.arena.blockSize := rep.sized _ (List.mem_cons_self ..)
  have positive : 0 < list.elemPaddedSize := lt_of_lt_of_le holds.positive holds.padded
  dsimp only at ordered
  have filled : d.leftOffset ≠ d.rightOffset := by
    rw [sameLeft, sameRight, left]
    rcases first with ⟨-, -, grown⟩ | ⟨kept, full⟩
    · omega
    · rw [kept]
      intro same
      obtain ⟨rfl, start⟩ := empty same
      have opened := full rfl
      rw [width, start, sizeSub_of_le (startOffset_le ..)] at opened
      omega
  exact ⟨q, d, later', holds'.rep, fun same => absurd same filled, fun _ => filled⟩

/-- Looking up the first element. -/
theorem first {e : Ptr × α} (queue : list.Queue size (e :: back)) :
    ∃ list', lfGetFirstListElem list = some (some e.1, list') ∧ list'.Queue size (e :: back) := by
  obtain ⟨⟨rfl, room, small, deck, holds⟩, fits, p, b, later, rep, empty, nonempty⟩ := id queue
  obtain rfl := holds.rep.deck_eq rep
  have lists := holds.lists
  rw [List.map_cons, List.map_cons] at lists
  refine ⟨list.withCursor (some p), lists.first rfl (nonempty (by simp)), queue.withCursor ?_⟩
  intro deck rep'
  rw [← rep.deck_eq rep']
  exact List.mem_cons_self ..

/-- An empty queue has no first element. -/
theorem nothing (queue : list.Queue size []) : lfGetFirstListElem list = some (none, list) := by
  obtain ⟨⟨rfl, room, small, deck, holds⟩, -⟩ := queue
  exact holds.lists.nothing.1

/-- Looking up the element after an element. -/
theorem next {e e' : Ptr × α} (queue : list.Queue size (front ++ e :: e' :: back)) :
    ∃ list', lfGetNextListElem list e.1 = some (some e'.1, list') ∧
      list'.Queue size (front ++ e :: e' :: back) := by
  obtain ⟨⟨rfl, room, small, deck, holds⟩, -⟩ := id queue
  have lists := holds.lists
  simp only [List.map_append, List.map_cons] at lists
  obtain ⟨q, member, found⟩ := lists.next
  refine ⟨list.withCursor (some q), found, queue.withCursor ?_⟩
  intro deck' rep'
  rwa [← holds.rep.deck_eq rep']

/-- After the last element there is none. -/
theorem next_last {e : Ptr × α} (queue : list.Queue size (front ++ [e])) :
    ∃ list', lfGetNextListElem list e.1 = some (none, list') ∧
      list'.Queue size (front ++ [e]) := by
  obtain ⟨⟨rfl, room, small, deck, holds⟩, -⟩ := id queue
  have lists := holds.lists
  simp only [List.map_append, List.map_cons, List.map_nil] at lists
  obtain ⟨q, member, found⟩ := lists.next_last
  refine ⟨list.withCursor (some q), found, queue.withCursor ?_⟩
  intro deck' rep'
  rwa [← holds.rep.deck_eq rep']

/-- No element is allocated twice. -/
theorem nodup (queue : list.Queue size elems) : (elems.map Prod.fst).Nodup := by
  obtain ⟨⟨rfl, room, small, deck, holds⟩, -⟩ := queue
  have distinct := holds.lists.nodup
  rwa [List.map_map] at distinct

/-- A new list, half a block of which has room for an element. -/
theorem of_init (malloc : Allocator (Cell α)) {qtt size alignment : ℕ} (positive : 0 < size)
    (some_in_block : 0 < qtt) (aligned : alignment ∣ size) (small : qtt * size < sizeModulus)
    (fits : size ≤ qtt * size - startOffset .middle (qtt * size)) :
    ∃ list, lfInitList (LFList.declared malloc qtt size alignment) = some list ∧
      list.Queue size [] := by
  let declared := LFList.declared malloc qtt size alignment
  obtain ⟨list, init, values⟩ :=
    @LFList.Values.of_init _ declared positive some_in_block aligned small
  have atMost : size ≤ qtt * size := Nat.le_mul_of_pos_left _ some_in_block
  have area : 0 < qtt * size := Nat.mul_pos some_in_block positive
  have width : paddedSize declared.elemSize declared.elemAlignment = some size :=
    paddedSize_of_dvd aligned positive (lt_of_le_of_lt atMost small)
  obtain ⟨list', p, b, init', rep, blocks, -, -, left, right, -, -, -, padded, -⟩ :=
    lfInitList_spec declared positive some_in_block width
      (show 0 < sizeWrap (qtt * size) by rwa [sizeWrap_of_lt small])
  obtain rfl : list = list' := Option.some.inj (init.symm.trans init')
  replace blocks : list.arena.blockSize = qtt * size := blocks.trans (sizeWrap_of_lt small)
  refine ⟨list, init, values, by rw [padded, blocks]; exact fits, p, b, [], rep, ?_, by simp⟩
  exact fun _ => ⟨rfl, right⟩

end LFList.Queue

/-! ## Walking through a list -/

/-- In these states of a list its elements can be read, looking up the first one
and the one after another one finds them in order, and the list stays in these states. -/
structure LFList.Passes [DecidableEq α] (In : LFList (Cell α) → Prop) (size : ℕ)
    (elems : List (Ptr × α)) : Prop where
  read : ∀ list, In list → ∀ e ∈ elems, list.read size e.1 = some e.2
  first : ∀ list, In list → ∃ list',
    lfGetFirstListElem list = some (elems.head?.map Prod.fst, list') ∧ In list'
  next : ∀ list front e e' back, In list → elems = front ++ e :: e' :: back → ∃ list',
    lfGetNextListElem list e.1 = some (some e'.1, list') ∧ In list'

/-- And looking up the element after the last one finds none. -/
structure LFList.Walks [DecidableEq α] (In : LFList (Cell α) → Prop) (size : ℕ)
    (elems : List (Ptr × α)) : Prop extends LFList.Passes In size elems where
  last : ∀ list front e, In list → elems = front ++ [e] → ∃ list',
    lfGetNextListElem list e.1 = some (none, list') ∧ In list'

/-- And looking up the element after the last one fails. -/
structure LFList.Breaks [DecidableEq α] (In : LFList (Cell α) → Prop) (size : ℕ)
    (elems : List (Ptr × α)) : Prop extends LFList.Passes In size elems where
  last : ∀ list front e, In list → elems = front ++ [e] → lfGetNextListElem list e.1 = none

/-- Looking up the element after any element. -/
theorem LFList.Walks.onward [DecidableEq α] {In : LFList (Cell α) → Prop} {size : ℕ}
    {elems front back : List (Ptr × α)} {e : Ptr × α} (walks : LFList.Walks In size elems)
    (split : elems = front ++ e :: back) (list : LFList (Cell α)) (inStates : In list) :
    ∃ list', lfGetNextListElem list e.1 = some (back.head?.map Prod.fst, list') ∧ In list' := by
  cases back with
  | nil => exact walks.last list front e inStates split
  | cons e' back => exact walks.next list front e e' back inStates split

/-- A queue can be walked through. -/
theorem LFList.Queue.walks [DecidableEq α] (size : ℕ) (elems : List (Ptr × α)) :
    LFList.Walks (fun list => list.Queue size elems) size elems where
  read := fun list queue e member => queue.values.read member
  first := by
    intro list queue
    cases elems with
    | nil => exact ⟨list, queue.nothing, queue⟩
    | cons e elems => exact queue.first
  next := by
    rintro list front e e' back queue rfl
    exact queue.next
  last := by
    rintro list front e queue rfl
    exact queue.next_last

end LowFlow
