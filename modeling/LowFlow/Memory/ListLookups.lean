import LowFlow.Memory.Reset

/-!
# Walking through a list

The lookups of `core/memory/list.c` on a list that was filled by its
allocations. Going on to the next element does not depend on the cursor and
passes every later element once (`getNext_elem`). The first element is looked up
in the head block and the last one in the tail block, wherever the elements are:
the last one is always found, and the first one when the first allocation found
room behind the middle of the first block (`answersEnds_iff`). Going back from
the first element never answers `NULL` (`not_inverse`).
-/

set_option autoImplicit false

namespace LowFlow

open Library

variable {β : Type}

/-! ## Allocating -/

/-- The calls that allocate. -/
inductive AllocCall where
  | allocListElem
  | allocListElems (qtt : ℕ)
deriving DecidableEq

/-- The number of elements that a call allocates. -/
def AllocCall.qtt : AllocCall → ℕ
  | .allocListElem => 1
  | .allocListElems qtt => qtt

/-- One call, with the new elements noted behind the others. -/
def allocCall : AllocCall → ListInUse β → Option (Ptr × ListInUse β)
  | .allocListElem, t => do
      let (elem, list) ← lfAllocListElem t.list
      some (elem, ⟨list, t.elems ++ [elem]⟩)
  | .allocListElems qtt, t => do
      let (elem, list) ← lfAllocListElems t.list qtt
      some (elem, ⟨list, t.elems ++ placesFrom list.elemPaddedSize elem qtt⟩)

/-- What one call does: so many bytes are allocated at the tail, and all other
fields of the list but the number of elements stay as they are. -/
structure AllocCall.Grows (call : AllocCall) (t : ListInUse β) (deck : Deck β) (elem : Ptr)
    (t' : ListInUse β) (deck' : Deck β) : Prop where
  some_elems : 0 < call.qtt
  some_bytes : 0 < sizeWrap (call.qtt * t.list.elemPaddedSize)
  bound : sizeWrap (call.qtt * t.list.elemPaddedSize) ≤ t.list.arena.blockSize
  change : AllocTail t.list.arena (sizeWrap (call.qtt * t.list.elemPaddedSize)) deck elem deck'
  rep : Represents t'.list.arena deck'
  keeps : t.list.arena.Keeps t'.list.arena
  padded : t'.list.elemPaddedSize = t.list.elemPaddedSize
  count : t'.list.elemCount = t.list.elemCount + call.qtt
  elems : t'.elems = t.elems ++ placesFrom t.list.elemPaddedSize elem call.qtt

theorem allocCall_grows {call : AllocCall} {t t' : ListInUse β} {elem : Ptr} {deck : Deck β}
    (rep : Represents t.list.arena deck) (called : allocCall call t = some (elem, t')) :
    ∃ deck', call.Grows t deck elem t' deck' := by
  have unfolded : ∃ list, lfAllocListElems t.list call.qtt = some (elem, list) ∧
      t' = ⟨list, t.elems ++ placesFrom list.elemPaddedSize elem call.qtt⟩ := by
    cases call with
    | allocListElem =>
        simp only [allocCall, Option.bind_eq_bind, Option.bind_eq_some_iff, Option.some.injEq,
          Prod.mk.injEq, Prod.exists] at called
        obtain ⟨ptr, list, alloc, rfl, rfl⟩ := called
        exact ⟨list, alloc, rfl⟩
    | allocListElems qtt =>
        simp only [allocCall, Option.bind_eq_bind, Option.bind_eq_some_iff, Option.some.injEq,
          Prod.mk.injEq, Prod.exists] at called
        obtain ⟨ptr, list, alloc, rfl, rfl⟩ := called
        exact ⟨list, alloc, rfl⟩
  obtain ⟨list, alloc, rfl⟩ := unfolded
  obtain ⟨some_elems, arena, allocated, rfl⟩ := lfAllocListElems_eq_some alloc
  obtain ⟨some_bytes, bound, deck', change, rep', keeps, -⟩ := rep.of_allocAtTail allocated
  exact ⟨deck', some_elems, some_bytes, bound, change, rep', keeps, rfl, rfl, rfl⟩

/-! ## Lists of elements -/

/-- A list that was only filled: its elements tile its blocks. -/
structure ListInUse.Filled (t : ListInUse β) (deck : Deck β) : Prop where
  rep : Represents t.list.arena deck
  lists : t.list.Lists none deck t.elems

namespace ListInUse.Filled

variable {t t' : ListInUse β} {deck deck' : Deck β}

theorem of_unused {list : LFList β} (unused : list.Unused) (positive : 0 < list.elemPaddedSize) :
    ∃ deck, (⟨list, []⟩ : ListInUse β).Filled deck := by
  obtain ⟨p, b, rep, left, right⟩ := unused.block
  refine ⟨[(p, b)], rep, ?_⟩
  exact {
    chain := rep.chain
    distinct := rep.distinct
    tail := rep.tail
    blocks := rep.count
    cursor := ⟨p, by simp, unused.cursor.trans rep.head_eq⟩
    count := unused.count
    positive := positive
    bounded := by
      intro entry member
      rw [rep.extent entry member]
      obtain rfl := List.mem_singleton.mp member
      exact right ▸ startOffset_le ..
    apart := rep.apart
    later := by simp
    tiles := tilesDeck_singleton.mpr (left.trans right.symm) }

/-- New elements tile the blocks behind the others. -/
theorem alloc (filled : t.Filled deck) {call : AllocCall} {elem : Ptr}
    (grows : call.Grows t deck elem t' deck')
    (small : call.qtt * t.list.elemPaddedSize < sizeModulus) : t'.Filled deck' := by
  have total := sizeWrap_of_lt small
  have change := grows.change
  have bounded : ∀ entry ∈ deck, entry.2.rightOffset ≤ t.list.arena.blockSize := by
    intro entry member
    rw [← filled.rep.extent entry member]
    exact filled.lists.bounded entry member
  have bounded' := change.bounded grows.bound filled.rep.sized bounded
  have tiles := change.tiles grows.some_bytes filled.lists.tiles
  obtain ⟨front, p, b, offset, rfl, -, -⟩ := change.last
  rw [total] at tiles
  refine ⟨grows.rep, ?_⟩
  exact {
    chain := grows.rep.chain
    distinct := grows.rep.distinct
    tail := grows.rep.tail
    blocks := grows.rep.count
    cursor := by
      obtain ⟨q, member, atCursor⟩ := filled.lists.cursor
      exact ⟨q, change.carries.mem_ptrs member, grows.keeps.cursor.trans atCursor⟩
    count := by
      rw [grows.count, grows.elems, List.length_append, length_placesFrom, filled.lists.count]
    positive := grows.padded ▸ filled.lists.positive
    bounded := by
      intro entry member
      rw [grows.rep.extent entry member, grows.keeps.blockSize]
      exact bounded' entry member
    apart := grows.rep.apart
    later := change.later grows.some_bytes filled.lists.later
    tiles := by
      rw [grows.padded, grows.elems, List.map_append]
      exact tiles.splitLast filled.lists.positive }

/-- **A list stays filled** as long as no call allocates more bytes than there are
values of `size_t`. -/
theorem run (filled : t.Filled deck) {calls : List AllocCall} {answers : List Ptr}
    (small : ∀ call ∈ calls, call.qtt * t.list.elemPaddedSize < sizeModulus)
    (runs : Library.run allocCall calls t = some (answers, t')) : ∃ deck', t'.Filled deck' := by
  induction calls generalizing t deck answers with
  | nil =>
      cases runs
      exact ⟨deck, filled⟩
  | cons call calls ih =>
      obtain ⟨elem, t₁, answers, called, onward, rfl⟩ := run_cons_iff.mp runs
      obtain ⟨deck₁, grows⟩ := allocCall_grows filled.rep called
      obtain ⟨here, later⟩ := List.forall_mem_cons.mp small
      refine ih (filled.alloc grows here) ?_ onward
      intro call member
      rw [grows.padded]
      exact later call member

end ListInUse.Filled

/-! ## The next element -/

/-- The chain of the list, from its head block on, has the block. -/
def LFList.HasBlock (list : LFList β) (p : BlockPtr) : Prop :=
  ∃ deck, blocksFrom list.arena.heap list.arena.blockCount list.arena.headBlock = some deck ∧
    p ∈ ptrs deck

/-- The elements that going on from an element passes, up to `NULL`. -/
def elemsAfter : ℕ → LFList β → Ptr → Option (List Ptr)
  | 0, _, _ => none
  | fuel + 1, list, elem => do
      match ← lfGetNextListElem list elem with
      | (none, _) => some []
      | (some next, list) => some (next :: (← elemsAfter fuel list next))

theorem Represents.hasBlock_iff {list : LFList β} {deck : Deck β}
    (rep : Represents list.arena deck) {p : BlockPtr} : list.HasBlock p ↔ p ∈ ptrs deck := by
  constructor
  · rintro ⟨deck', found, member⟩
    rw [rep.blocksFrom_eq] at found
    cases found
    exact member
  · intro member
    exact ⟨deck, rep.blocksFrom_eq, member⟩

namespace LFList.Lists

variable {list : LFList β} {deck : Deck β} {elems : List Ptr}

/-- The answer for an element does not depend on the cursor. -/
theorem getNext (lists : list.Lists none deck elems) {p : BlockPtr} (member : p ∈ ptrs deck) {i : ℕ}
    (inRange : i < elems.length) :
    ∃ q ∈ ptrs deck, lfGetNextListElem (list.withCursor (some p)) elems[i] =
      some (elems[i + 1]?, list.withCursor (some q)) := by
  have moved := lists.withCursor member
  by_cases more : i + 1 < elems.length
  · have split : elems = elems.take i ++ elems[i] :: elems[i + 1] :: elems.drop (i + 2) := by simp
    rw [split] at moved
    obtain ⟨q, member', next⟩ := moved.next
    refine ⟨q, member', ?_⟩
    rw [List.getElem?_eq_getElem more]
    exact next
  · have split : elems = elems.take i ++ [elems[i]] := by
      rw [List.take_append_getElem, List.take_of_length_le (by omega)]
    rw [split] at moved
    obtain ⟨q, member', next⟩ := moved.next_last
    refine ⟨q, member', ?_⟩
    rw [List.getElem?_eq_none (by omega)]
    exact next

/-- Going on from an element passes the later ones, each of them once. -/
theorem elemsAfter_eq (lists : list.Lists none deck elems) {p : BlockPtr} (member : p ∈ ptrs deck)
    {i fuel : ℕ} (inRange : i < elems.length) (enough : elems.length - i ≤ fuel) :
    elemsAfter fuel (list.withCursor (some p)) elems[i] = some (elems.drop (i + 1)) := by
  induction fuel generalizing p i with
  | zero => omega
  | succ fuel ih =>
      obtain ⟨q, member', next⟩ := lists.getNext member inRange
      simp only [elemsAfter, next, Option.bind_eq_bind, Option.bind_some]
      by_cases more : i + 1 < elems.length
      · have onward := ih member' more (by omega)
        simp [List.getElem?_eq_getElem more, onward]
      · rw [List.getElem?_eq_none (by omega), List.drop_eq_nil_of_le (by omega)]

end LFList.Lists

/-- A list as it was initialized is filled with no elements. -/
theorem ListInUse.Filled.of_init {declared start : LFList β}
    (init : lfInitList declared = some start) :
    ∃ deck, (⟨start, []⟩ : ListInUse β).Filled deck := by
  obtain ⟨unused, -, -, -, -, -, blocks, -⟩ := LFList.Unused.init init
  obtain ⟨p, b, rep, -⟩ := id unused.block
  have positive : 0 < start.elemPaddedSize := by
    apply Nat.pos_of_ne_zero
    intro zero
    have room := rep.positive
    rw [blocks, zero] at room
    simp [sizeWrap] at room
  exact of_unused unused positive

/-- **Going on to the next element.** Whichever block the cursor is at, the answer
for an element is the one allocated after it, or `NULL` for the last one; going on
until `NULL` passes each later element once. -/
theorem getNext_elem {declared start : LFList β} {calls : List AllocCall} {answers : List Ptr}
    {t : ListInUse β} (init : lfInitList declared = some start)
    (small : ∀ call ∈ calls, call.qtt * start.elemPaddedSize < sizeModulus)
    (runs : run allocCall calls ⟨start, []⟩ = some (answers, t)) {p : BlockPtr}
    (inChain : t.list.HasBlock p) {i : ℕ} (inRange : i < t.elems.length) :
    (∃ q, t.list.HasBlock q ∧ lfGetNextListElem (t.list.withCursor (some p)) t.elems[i] =
        some (t.elems[i + 1]?, t.list.withCursor (some q))) ∧
      elemsAfter (t.elems.length - i) (t.list.withCursor (some p)) t.elems[i] =
        some (t.elems.drop (i + 1)) ∧
      t.elems.Nodup := by
  obtain ⟨deck₀, fresh⟩ := ListInUse.Filled.of_init init
  obtain ⟨deck, filled⟩ := fresh.run small runs
  have member : p ∈ ptrs deck := filled.rep.hasBlock_iff.mp inChain
  obtain ⟨q, member', next⟩ := filled.lists.getNext member inRange
  refine ⟨⟨q, filled.rep.hasBlock_iff.mpr member', next⟩, ?_, filled.lists.nodup⟩
  exact filled.lists.elemsAfter_eq member inRange le_rfl

/-- A block size of three elements: one element fits behind the middle of the first
block, the next two open a second block. -/
theorem getNext_elem_across : ∃ t : ListInUse UInt8, t.elems = [⟨0, 3⟩, ⟨2, 0⟩, ⟨2, 2⟩] ∧
    ∃ list, lfGetNextListElem (t.list.withCursor (some 2)) ⟨0, 3⟩ = some (some ⟨2, 0⟩, list) := by
  have ends : ((lfInitList (LFList.declared (Allocator.bump (0 : UInt8)) 3 2 1)).bind fun start =>
      (run allocCall [.allocListElem, .allocListElems 2] ⟨start, []⟩).bind fun reached =>
        (blocksFrom reached.2.list.arena.heap reached.2.list.arena.blockCount
          reached.2.list.arena.headBlock).map fun deck =>
            (start.elemPaddedSize, reached.2.elems, ptrs deck)) =
      some (2, [⟨0, 3⟩, ⟨2, 0⟩, ⟨2, 2⟩], [0, 2]) := by
    decide +kernel
  obtain ⟨start, init, ends⟩ := Option.bind_eq_some_iff.mp ends
  obtain ⟨⟨answers, t⟩, runs, ends⟩ := Option.bind_eq_some_iff.mp ends
  obtain ⟨deck, chain, ends⟩ := Option.map_eq_some_iff.mp ends
  simp only [Prod.mk.injEq] at ends
  obtain ⟨width, elems, blocks⟩ := ends
  have inChain : t.list.HasBlock 2 := ⟨deck, chain, by simp [blocks]⟩
  have inRange : 0 < t.elems.length := by simp [elems]
  have small : ∀ call ∈ [AllocCall.allocListElem, .allocListElems 2],
      call.qtt * start.elemPaddedSize < sizeModulus := by
    rw [width]
    decide
  obtain ⟨⟨q, -, next⟩, -, -⟩ := getNext_elem init small runs inChain inRange
  simp only [elems] at next
  exact ⟨t, elems, _, next⟩

/-! ## The first and the last element -/

/-- The first element that was allocated is looked up as the first one, the last as
the last one, and `NULL` when there is none. -/
def ListInUse.AnswersEnds (t : ListInUse β) : Prop :=
  (∃ list, lfGetFirstListElem t.list = some (t.elems.head?, list)) ∧
    ∃ list, lfGetLastListElem t.list = some (t.elems.getLast?, list)

/-- What a list has after its first call, whatever sizes wrapped around: its head
block starts in the middle, and the first element is there or in another block. -/
structure ListInUse.Begun (t : ListInUse β) (first : ℕ) (deck : Deck β) : Prop where
  rep : Represents t.list.arena deck
  count : t.list.elemCount = t.elems.length
  head : ∃ p b rest e, deck = (p, b) :: rest ∧ t.elems.head? = some e ∧
    b.leftOffset = startOffset .middle t.list.arena.blockSize ∧
    (e = ⟨p, b.leftOffset⟩ ↔
      first ≤ t.list.arena.blockSize - startOffset .middle t.list.arena.blockSize)

@[simp] theorem head?_placesFrom (width : ℕ) (ptr : Ptr) (n : ℕ) :
    (placesFrom width ptr (n + 1)).head? = some ptr := rfl

theorem getLast?_placesFrom (width : ℕ) (ptr : Ptr) (n : ℕ) :
    (placesFrom width ptr (n + 1)).getLast? = some ⟨ptr.block, ptr.offset + n * width⟩ := by
  induction n generalizing ptr with
  | zero => simp [placesFrom]
  | succ n ih =>
      rw [placesFrom, List.getLast?_cons, ih]
      simp only [Option.getD_some, Option.some.injEq, Ptr.mk.injEq, true_and]
      push_cast
      rw [Int.add_mul]
      omega

/-- An allocation in an arena of one block. -/
theorem AllocTail.only {arena : Arena β} {size : ℕ} {p : BlockPtr} {b : Slab β} {deck' : Deck β}
    {ptr : Ptr} (alloc : AllocTail arena size [(p, b)] ptr deck') :
    ∃ c rest, deck' = (p, c) :: rest ∧ c.leftOffset = b.leftOffset ∧
      (size ≤ sizeSub b.size b.rightOffset ∧ ptr = ⟨p, b.rightOffset⟩ ∨
        sizeSub b.size b.rightOffset < size ∧ ptr.block = arena.heap.serial) := by
  generalize same : [(p, b)] = deck at alloc
  cases alloc with
  | @fits q c front room =>
      obtain ⟨rfl, same⟩ := List.append_eq_singleton_iff.mp same.symm |>.resolve_right (by simp)
      cases same
      exact ⟨_, _, rfl, rfl, .inl ⟨room, rfl⟩⟩
  | @opens q c front full =>
      obtain ⟨rfl, same⟩ := List.append_eq_singleton_iff.mp same.symm |>.resolve_right (by simp)
      cases same
      exact ⟨_, _, rfl, rfl, .inr ⟨full, rfl⟩⟩

namespace AllocCall.Grows

variable {call : AllocCall} {t t' : ListInUse β} {deck deck' : Deck β} {elem : Ptr}

/-- The new elements are behind the others. -/
theorem count_eq (grows : call.Grows t deck elem t' deck')
    (count : t.list.elemCount = t.elems.length) : t'.list.elemCount = t'.elems.length := by
  rw [grows.count, grows.elems, List.length_append, length_placesFrom, count]

/-- The first call on a list. -/
theorem begins (grows : call.Grows t deck elem t' deck') (unused : t.list.Unused)
    (rep : Represents t.list.arena deck) (empty : t.elems = []) :
    t'.Begun (sizeWrap (call.qtt * t.list.elemPaddedSize)) deck' := by
  obtain ⟨p, b, rep', left, right⟩ := unused.block
  obtain rfl := rep.deck_eq rep'
  have width : b.size = t.list.arena.blockSize := rep.sized _ (List.mem_singleton_self _)
  obtain ⟨c, rest, rfl, sameLeft, place⟩ := grows.change.only
  obtain ⟨n, more⟩ : ∃ n, call.qtt = n + 1 := ⟨call.qtt - 1, by have := grows.some_elems; omega⟩
  have count : t.list.elemCount = t.elems.length := by simp [unused.count, empty]
  refine ⟨grows.rep, grows.count_eq count, p, c, rest, elem, rfl, ?_, ?_, ?_⟩
  · simp [grows.elems, empty, more]
  · rw [sameLeft, left, grows.keeps.blockSize]
  · rw [width, right, sizeSub_of_le (startOffset_le ..)] at place
    rw [sameLeft, left, grows.keeps.blockSize]
    rcases place with ⟨room, rfl⟩ | ⟨full, opened⟩
    · simp [room]
    · have known := rep.known _ (List.mem_singleton_self _)
      constructor
      · intro same
        rw [same] at opened
        exact absurd opened (Nat.ne_of_lt known)
      · intro room
        omega

/-- The calls behind the first one. -/
theorem keeps_begun (grows : call.Grows t deck elem t' deck') {first : ℕ}
    (begun : t.Begun first deck) : t'.Begun first deck' := by
  obtain ⟨p, b, rest, e, rfl, known, left, place⟩ := begun.head
  obtain ⟨c, rest', rfl, sameLeft, -⟩ := grows.change.firstBlock
  refine ⟨grows.rep, grows.count_eq begun.count, p, c, rest', e, rfl, ?_, ?_, ?_⟩
  · rw [grows.elems, List.head?_append, known, Option.some_or]
  · rw [sameLeft, left, grows.keeps.blockSize]
  · rw [sameLeft, grows.keeps.blockSize]
    exact place

/-- What the last call answers for the last element. -/
theorem last_answer (grows : call.Grows t deck elem t' deck')
    (count : t.list.elemCount = t.elems.length) :
    (∃ list, lfGetLastListElem t'.list = some (t'.elems.getLast?, list)) ↔
      call.qtt * t.list.elemPaddedSize < sizeModulus := by
  obtain ⟨front, p, b, offset, rfl, split, right⟩ := grows.change.last
  obtain ⟨node, found, carried⟩ := grows.rep.lookup (p := p) (b := b) (by simp [split])
  have tail : t'.list.arena.tailBlock = some p := (split ▸ grows.rep).tail_eq
  have counted : t'.list.elemCount ≠ 0 := by
    have some_elems := grows.some_elems
    have total := grows.count
    omega
  obtain ⟨n, more⟩ : ∃ n, call.qtt = n + 1 := ⟨call.qtt - 1, by have := grows.some_elems; omega⟩
  have last : t'.elems.getLast? = some ⟨p, offset + n * t.list.elemPaddedSize⟩ := by
    rw [grows.elems, more, List.getLast?_append, getLast?_placesFrom]
    rfl
  have answer : lfGetLastListElem t'.list =
      some (some ⟨p, (node.rightOffset : ℤ) - t.list.elemPaddedSize⟩,
        t'.list.withCursor (some p)) := by
    simp [lfGetLastListElem, counted, tail, found, grows.padded]
  have place : node.rightOffset = offset + sizeWrap (call.qtt * t.list.elemPaddedSize) := by
    rw [← right, ← carried]
  rw [more, Nat.succ_mul] at place
  rw [last, answer, place, more, Nat.succ_mul]
  constructor
  · rintro ⟨list, same⟩
    simp only [Option.some.injEq, Prod.mk.injEq, Ptr.mk.injEq, true_and] at same
    have whole : sizeWrap (n * t.list.elemPaddedSize + t.list.elemPaddedSize) =
        n * t.list.elemPaddedSize + t.list.elemPaddedSize := by
      have offsets := same.1
      push_cast at offsets
      omega
    rw [← whole]
    exact sizeWrap_lt _
  · intro small
    have offsets : ((offset + (n * t.list.elemPaddedSize + t.list.elemPaddedSize) : ℕ) : ℤ) -
        t.list.elemPaddedSize = offset + n * t.list.elemPaddedSize := by
      push_cast
      omega
    rw [sizeWrap_of_lt small, offsets]
    exact ⟨_, rfl⟩

end AllocCall.Grows

/-- A run of calls behind the first one. -/
theorem ListInUse.Begun.run {t t' : ListInUse β} {first : ℕ} {deck : Deck β}
    (begun : t.Begun first deck) {calls : List AllocCall} {answers : List Ptr}
    (runs : Library.run allocCall calls t = some (answers, t')) :
    ∃ deck', t'.Begun first deck' := by
  apply run_invariant (fun s : ListInUse β => ∃ deck, s.Begun first deck) ?_ ⟨deck, begun⟩ runs
  rintro call s elem s' ⟨deck, begun⟩ called
  obtain ⟨deck', grows⟩ := allocCall_grows begun.rep called
  exact ⟨deck', grows.keeps_begun begun⟩

/-- What every run of calls keeps. -/
theorem run_allocCall {t t' : ListInUse β} {deck : Deck β} (rep : Represents t.list.arena deck)
    (count : t.list.elemCount = t.elems.length) {calls : List AllocCall} {answers : List Ptr}
    (runs : run allocCall calls t = some (answers, t')) :
    (∃ deck', Represents t'.list.arena deck') ∧ t'.list.elemCount = t'.elems.length ∧
      t'.list.elemPaddedSize = t.list.elemPaddedSize ∧
      t'.list.arena.blockSize = t.list.arena.blockSize := by
  apply run_invariant (fun s : ListInUse β => (∃ deck', Represents s.list.arena deck') ∧
    s.list.elemCount = s.elems.length ∧ s.list.elemPaddedSize = t.list.elemPaddedSize ∧
    s.list.arena.blockSize = t.list.arena.blockSize) ?_ ⟨⟨deck, rep⟩, count, rfl, rfl⟩ runs
  rintro call s elem s' ⟨⟨deck, rep⟩, count, padded, blocks⟩ called
  obtain ⟨deck', grows⟩ := allocCall_grows rep called
  exact ⟨⟨deck', grows.rep⟩, grows.count_eq count, grows.padded.trans padded,
    grows.keeps.blockSize.trans blocks⟩

/-- The first element is found when it was allocated in the first block. -/
theorem ListInUse.Begun.first_answer {t : ListInUse β} {first : ℕ} {deck : Deck β}
    (begun : t.Begun first deck) :
    (∃ list, lfGetFirstListElem t.list = some (t.elems.head?, list)) ↔
      first ≤ t.list.arena.blockSize - startOffset .middle t.list.arena.blockSize := by
  obtain ⟨p, b, rest, e, rfl, known, left, place⟩ := begun.head
  obtain ⟨node, found, rfl⟩ := begun.rep.lookup (List.mem_cons_self ..)
  have counted : t.list.elemCount ≠ 0 := by
    rw [begun.count]
    intro none
    rw [List.eq_nil_of_length_eq_zero none] at known
    cases known
  have answer : lfGetFirstListElem t.list =
      some (some ⟨p, node.leftOffset⟩, t.list.withCursor (some p)) := by
    simp [lfGetFirstListElem, counted, begun.rep.head_eq, found]
  rw [← place, answer, known]
  constructor
  · rintro ⟨list, same⟩
    simp only [Option.some.injEq, Prod.mk.injEq] at same
    exact same.1.symm
  · intro same
    exact ⟨_, by rw [same]⟩

/-- **The lookups of the first and the last element** find what they should exactly
when the first call found room in the first block, behind its middle, and the bytes
of the last call are not more than there are values of `size_t`. -/
theorem answersEnds_iff {declared start : LFList β} {calls : List AllocCall} {answers : List Ptr}
    {t : ListInUse β} (init : lfInitList declared = some start)
    (runs : run allocCall calls ⟨start, []⟩ = some (answers, t)) :
    t.AnswersEnds ↔
      (∀ first ∈ calls.head?, sizeWrap (first.qtt * start.elemPaddedSize) ≤
        start.arena.blockSize - startOffset .middle start.arena.blockSize) ∧
      ∀ last ∈ calls.getLast?, last.qtt * start.elemPaddedSize < sizeModulus := by
  obtain ⟨unused, -⟩ := LFList.Unused.init init
  obtain ⟨p, b, rep, -⟩ := id unused.block
  have count : start.elemCount = ([] : List Ptr).length := unused.count
  obtain ⟨-, -, -, blocks⟩ := run_allocCall (t := ⟨start, []⟩) rep count runs
  apply and_congr
  · cases calls with
    | nil =>
        cases runs
        simp [lfGetFirstListElem, unused.count]
    | cons call calls =>
        obtain ⟨elem, t₁, answers, called, onward, rfl⟩ := run_cons_iff.mp runs
        obtain ⟨deck₁, grows⟩ := allocCall_grows (t := ⟨start, []⟩) rep called
        have begun := grows.begins unused rep rfl
        obtain ⟨deck, begun⟩ := begun.run onward
        rw [begun.first_answer, blocks]
        simp
  · rcases List.eq_nil_or_concat' calls with rfl | ⟨calls, call, rfl⟩
    · cases runs
      simp [lfGetLastListElem, unused.count]
    · obtain ⟨t₁, front, back, before, last, rfl⟩ := run_append_iff.mp runs
      obtain ⟨elem, t₂, answers, called, ended, rfl⟩ := run_cons_iff.mp last
      cases ended
      obtain ⟨⟨deck₁, rep₁⟩, count₁, padded, -⟩ :=
        run_allocCall (t := ⟨start, []⟩) rep count before
      obtain ⟨deck, grows⟩ := allocCall_grows rep₁ called
      rw [grows.last_answer count₁, padded]
      simp

/-- A block size of two elements: the first one fits behind the middle. -/
theorem answersEnds_of_two : ∃ t : ListInUse UInt8, t.elems = [⟨0, 2⟩] ∧ t.AnswersEnds := by
  have ends : ((lfInitList (LFList.declared (Allocator.bump (0 : UInt8)) 2 2 1)).bind fun start =>
      (run allocCall [.allocListElem] ⟨start, []⟩).map fun reached =>
        (start.elemPaddedSize, start.arena.blockSize, reached.2.elems)) =
      some (2, 4, [⟨0, 2⟩]) := by
    decide +kernel
  obtain ⟨start, init, ends⟩ := Option.bind_eq_some_iff.mp ends
  obtain ⟨⟨answers, t⟩, runs, ends⟩ := Option.map_eq_some_iff.mp ends
  simp only [Prod.mk.injEq] at ends
  obtain ⟨width, blocks, elems⟩ := ends
  refine ⟨t, elems, (answersEnds_iff init runs).mpr ?_⟩
  rw [width, blocks]
  decide

/-- A block size of one element: the first one is allocated in a second block. -/
theorem first_elem_of_one : ∃ (start t : ListInUse UInt8) (answers : List Ptr),
    lfInitList (LFList.declared (Allocator.bump 0) 1 2 1) = some start.list ∧ start.elems = [] ∧
      run allocCall [.allocListElem] start = some (answers, t) ∧ ¬ t.AnswersEnds := by
  have ends : ((lfInitList (LFList.declared (Allocator.bump (0 : UInt8)) 1 2 1)).bind fun start =>
      (run allocCall [.allocListElem] ⟨start, []⟩).map fun reached =>
        (reached.2.elems.head?, (lfGetFirstListElem reached.2.list).map Prod.fst)) =
      some (some ⟨2, 0⟩, some (some ⟨0, 1⟩)) := by
    decide +kernel
  obtain ⟨start, init, ends⟩ := Option.bind_eq_some_iff.mp ends
  obtain ⟨⟨answers, t⟩, runs, ends⟩ := Option.map_eq_some_iff.mp ends
  simp only [Prod.mk.injEq] at ends
  obtain ⟨first, answer⟩ := ends
  refine ⟨⟨start, []⟩, t, answers, init, rfl, runs, ?_⟩
  rintro ⟨⟨list, found⟩, -⟩
  rw [found, first] at answer
  simp at answer

/-! ## The element before -/

/-- Going back undoes going on and the other way round, and both end at `NULL`. -/
structure ListInUse.Inverse (t : ListInUse β) : Prop where
  prev_next : ∀ e ∈ t.elems, ∀ e' list, lfGetNextListElem t.list e = some (some e', list) →
    ∃ list', lfGetPrevListElem list e' = some (some e, list')
  next_prev : ∀ e ∈ t.elems, ∀ e' list, lfGetPrevListElem t.list e = some (some e', list) →
    ∃ list', lfGetNextListElem list e' = some (some e, list')
  prev_first : ∀ e ∈ t.elems.head?, ∃ list, lfGetPrevListElem t.list e = some (none, list)
  next_last : ∀ e ∈ t.elems.getLast?, ∃ list, lfGetNextListElem t.list e = some (none, list)
  live : ∀ e ∈ t.elems, ∀ answer list, (lfGetNextListElem t.list e = some (answer, list) ∨
    lfGetPrevListElem t.list e = some (answer, list)) → ∀ e' ∈ answer, e' ∈ t.elems

/-- A block of at least two bytes starts behind its first byte. -/
theorem startOffset_middle_pos {blockSize : ℕ} (two : 2 ≤ blockSize) :
    0 < startOffset .middle blockSize := by
  have size : 1 <<< (Nat.log2 blockSize - 23) ≤ blockSize := by
    rw [Nat.one_shiftLeft]
    calc
      2 ^ (Nat.log2 blockSize - 23) ≤ 2 ^ Nat.log2 blockSize :=
        Nat.pow_le_pow_right (by decide) (Nat.sub_le _ _)
      _ ≤ blockSize := Nat.log2_self_le (by omega)
  have rounded : 2 ≤ floatOfSize blockSize := by
    simp only [floatOfSize]
    have positive : 0 < 1 <<< (Nat.log2 blockSize - 23) := by
      rw [Nat.one_shiftLeft]
      exact Nat.two_pow_pos _
    generalize 1 <<< (Nat.log2 blockSize - 23) = ulp at size positive
    have below : 1 ≤ blockSize / ulp := (Nat.one_le_div_iff positive).mpr size
    by_cases one : ulp = 1
    · subst one
      rw [Nat.mod_one, if_pos (.inl Nat.one_pos)]
      omega
    · have least : ulp ≤ blockSize / ulp * ulp := Nat.le_mul_of_pos_left _ below
      split
      · omega
      · rw [Nat.add_mul]
        omega
  simp only [startOffset]
  omega

namespace LFList.Lists

variable {list : LFList β} {deck : Deck β} {elems : List Ptr}

/-- An element of the head block does not start where the block's data starts, and
the other blocks have a block before them. -/
theorem getPrev_first {e : Ptr} {rest : List Ptr} (lists : list.Lists none deck (e :: rest))
    (offCentre : ∀ entry ∈ deck.head?, 0 < entry.2.leftOffset) (list' : LFList β) :
    lfGetPrevListElem list e ≠ some (none, list') := by
  intro answer
  have split : e :: rest = [] ++ e :: rest := rfl
  rw [split] at lists
  obtain ⟨before, p, node, later, start, rfl, block, foundNode, back, low, placed, started, found,
    -, -⟩ := lists.locate
  simp only [lfGetPrevListElem, placed, started, found, foundNode, Option.bind_eq_bind,
    Option.bind_some] at answer
  rcases List.eq_nil_or_concat' before with rfl | ⟨before, entry, rfl⟩
  · have behind := offCentre _ rfl
    dsimp only at behind
    rw [if_pos (by omega)] at answer
    simp at answer
  · rw [lastPtr_concat] at back
    split at answer
    · simp at answer
    · rw [back] at answer
      dsimp only at answer
      cases previous : list.arena.heap.block entry.1 with
      | none => simp [previous] at answer
      | some previousNode => simp [previous] at answer

end LFList.Lists

/-- **Going back is not the inverse of going on.** In no list with an even number of
elements to a block is the answer for the first element `NULL`. -/
theorem not_inverse {declared start : LFList β} {n : ℕ} {answers : List Ptr} {t : ListInUse β}
    (even : 2 ∣ declared.elemQttInBlock) (init : lfInitList declared = some start)
    (nonempty : 0 < n)
    (runs : run allocCall (List.replicate n .allocListElem) ⟨start, []⟩ = some (answers, t))
    {p : BlockPtr} (inChain : t.list.HasBlock p) :
    ¬ (⟨t.list.withCursor (some p), t.elems⟩ : ListInUse β).Inverse := by
  obtain ⟨unused, -, -, qtt, -, padded, blocks, -⟩ := LFList.Unused.init init
  obtain ⟨q, b, rep, -⟩ := id unused.block
  have small : ∀ call ∈ List.replicate n AllocCall.allocListElem,
      call.qtt * start.elemPaddedSize < sizeModulus := by
    intro call member
    rw [List.eq_of_mem_replicate member, AllocCall.qtt, Nat.one_mul]
    exact paddedSize_lt padded
  have two : 2 ≤ start.arena.blockSize := by
    have divides : 2 ∣ start.arena.blockSize := by
      rw [blocks, qtt, sizeWrap]
      exact (Nat.dvd_mod_iff (by decide)).mpr (Nat.dvd_mul_right_of_dvd even _)
    exact Nat.le_of_dvd rep.positive divides
  obtain ⟨deck₀, fresh⟩ := ListInUse.Filled.of_init init
  obtain ⟨deck, filled⟩ := fresh.run small runs
  obtain ⟨-, -, -, sameBlocks⟩ := run_allocCall (t := ⟨start, []⟩) rep unused.count runs
  have begun : ∃ first deck, t.Begun first deck := by
    obtain ⟨m, rfl⟩ : ∃ m, n = m + 1 := ⟨n - 1, by omega⟩
    rw [List.replicate_succ] at runs
    obtain ⟨elem, t₁, answers, called, onward, -⟩ := run_cons_iff.mp runs
    obtain ⟨deck₁, grows⟩ := allocCall_grows (t := ⟨start, []⟩) rep called
    exact ⟨_, (grows.begins unused rep rfl).run onward⟩
  obtain ⟨first, deck', begun⟩ := begun
  obtain rfl := filled.rep.deck_eq begun.rep
  obtain ⟨r, c, rest, e, rfl, known, left, -⟩ := begun.head
  have offCentre : 0 < c.leftOffset := by
    rw [left, sameBlocks]
    exact startOffset_middle_pos two
  intro inverse
  obtain ⟨list', answer⟩ := inverse.prev_first e known
  obtain ⟨elems, split⟩ : ∃ elems, t.elems = e :: elems := by
    cases same : t.elems with
    | nil => simp [same] at known
    | cons first elems =>
        rw [same] at known
        cases known
        exact ⟨elems, rfl⟩
  have lists := filled.lists.withCursor (filled.rep.hasBlock_iff.mp inChain)
  rw [split] at lists
  exact lists.getPrev_first (by simpa using offCentre) list' answer

/-- A list of one element with a block size of two: the answer before it is a place
without an element. -/
theorem prev_of_first : ∃ (t : ListInUse UInt8) (start : LFList UInt8) (answers : List Ptr),
    lfInitList (LFList.declared (Allocator.bump 0) 2 2 1) = some start ∧
      run allocCall [.allocListElem] ⟨start, []⟩ = some (answers, t) ∧ ¬ t.Inverse := by
  have ends : ((lfInitList (LFList.declared (Allocator.bump (0 : UInt8)) 2 2 1)).bind fun start =>
      (run allocCall [.allocListElem] ⟨start, []⟩).map fun reached =>
        (reached.2.elems, (lfGetPrevListElem reached.2.list ⟨0, 2⟩).map Prod.fst)) =
      some ([⟨0, 2⟩], some (some ⟨0, 0⟩)) := by
    decide +kernel
  obtain ⟨start, init, ends⟩ := Option.bind_eq_some_iff.mp ends
  obtain ⟨⟨answers, t⟩, runs, ends⟩ := Option.map_eq_some_iff.mp ends
  simp only [Prod.mk.injEq] at ends
  obtain ⟨elems, answer⟩ := ends
  refine ⟨t, start, answers, init, runs, ?_⟩
  intro inverse
  obtain ⟨list, found⟩ := inverse.prev_first ⟨0, 2⟩ (by simp [elems])
  rw [found] at answer
  simp at answer

/-- The same list, with its cursor at its only block. -/
theorem not_inverse_of_two : ∃ t : ListInUse UInt8, t.elems = [⟨0, 2⟩] ∧
    ¬ (⟨t.list.withCursor (some 0), t.elems⟩ : ListInUse UInt8).Inverse := by
  have ends : ((lfInitList (LFList.declared (Allocator.bump (0 : UInt8)) 2 2 1)).bind fun start =>
      (run allocCall (List.replicate 1 .allocListElem) ⟨start, []⟩).bind fun reached =>
        (blocksFrom reached.2.list.arena.heap reached.2.list.arena.blockCount
          reached.2.list.arena.headBlock).map fun deck => (reached.2.elems, ptrs deck)) =
      some ([⟨0, 2⟩], [0]) := by
    decide +kernel
  obtain ⟨start, init, ends⟩ := Option.bind_eq_some_iff.mp ends
  obtain ⟨⟨answers, t⟩, runs, ends⟩ := Option.bind_eq_some_iff.mp ends
  obtain ⟨deck, chain, ends⟩ := Option.map_eq_some_iff.mp ends
  simp only [Prod.mk.injEq] at ends
  obtain ⟨elems, blocks⟩ := ends
  have inChain : t.list.HasBlock 0 := ⟨deck, chain, by simp [blocks]⟩
  exact ⟨t, elems, not_inverse (by decide) init Nat.one_pos runs inChain⟩

end LowFlow
