import LowFlow.Memory.Contents
import LowFlow.Memory.List
import LowFlow.Library.Run

/-!
# A list in use

`Holds` is the invariant of a list that was filled by its own operations: the
elements, first to last, tile the blocks, and what stands at each is its value.
The first block starts in the middle, and when the first elements do not fit
behind it, the block stays empty; from then on the "first element" is a place
without an element, which is why a call answers with the value at the pointer
only for pointers that an allocation returned.
-/

set_option autoImplicit false

namespace LowFlow

open Library

variable {β : Type}

/-! ## Filling new elements -/

/-- Writing values to consecutive elements. -/
def storeElems (width : ℕ) : Heap β → Ptr → List (List β) → Option (Heap β)
  | heap, _, [] => some heap
  | heap, ptr, value :: values => do
      storeElems width (← heap.store ptr value) ⟨ptr.block, ptr.offset + width⟩ values

/-- `lf_alloc_list_elems`, and writing the new elements. -/
def LFList.push (list : LFList β) (values : List (List β)) : Option (Ptr × LFList β) := do
  let (ptr, list) ← lfAllocListElems list values.length
  let heap ← storeElems list.elemPaddedSize list.arena.heap ptr values
  some (ptr, { list with arena := { list.arena with heap } })

/-- The same blocks with the same used ranges. -/
def Deck.SameRanges (deck deck' : Deck β) : Prop :=
  List.Forall₂ (fun one two => two.1 = one.1 ∧ two.2.leftOffset = one.2.leftOffset ∧
    two.2.rightOffset = one.2.rightOffset) deck deck'

namespace Deck.SameRanges

variable {deck deck' : Deck β}

theorem refl (deck : Deck β) : deck.SameRanges deck := by
  induction deck with
  | nil => exact .nil
  | cons entry rest ih => exact .cons ⟨rfl, rfl, rfl⟩ ih

theorem trans {one two three : Deck β} (first : one.SameRanges two)
    (second : two.SameRanges three) :
    one.SameRanges three := by
  induction first generalizing three with
  | nil => exact second
  | cons here _ ih =>
      cases second with
      | cons there onward =>
          refine .cons ⟨there.1.trans here.1, there.2.1.trans here.2.1, ?_⟩ (ih onward)
          exact there.2.2.trans here.2.2

theorem modify (deck : Deck β) (p : BlockPtr) {g : Slab β → Slab β}
    (left_g : ∀ b, (g b).leftOffset = b.leftOffset)
    (right_g : ∀ b, (g b).rightOffset = b.rightOffset) : deck.SameRanges (deck.modify p g) := by
  induction deck with
  | nil => exact .nil
  | cons entry rest ih =>
      refine .cons ⟨rfl, ?_, ?_⟩ ih <;> dsimp only <;> split <;> simp [left_g, right_g]

theorem ptrs (same : deck.SameRanges deck') : Library.ptrs deck' = Library.ptrs deck := by
  induction same with
  | nil => rfl
  | cons here _ ih => simp [here.1, ih]

theorem tail (same : deck.SameRanges deck') : Deck.SameRanges deck.tail deck'.tail := by
  cases same with
  | nil => exact .nil
  | cons _ onward => exact onward

/-- Each block is there before with the same used range. -/
theorem origin (same : deck.SameRanges deck') {entry : BlockPtr × Slab β} (member : entry ∈ deck') :
    ∃ old ∈ deck, entry.2.leftOffset = old.2.leftOffset ∧
      entry.2.rightOffset = old.2.rightOffset := by
  induction same with
  | nil => cases member
  | cons here _ ih =>
      rcases List.mem_cons.mp member with rfl | later
      · exact ⟨_, List.mem_cons_self .., here.2⟩
      · obtain ⟨old, inRest, ranges⟩ := ih later
        exact ⟨old, List.mem_cons_of_mem _ inRest, ranges⟩

theorem tiles (same : deck.SameRanges deck') {regions : List Region}
    (tiles : TilesDeck deck regions) : TilesDeck deck' regions := by
  induction same generalizing regions with
  | nil => exact tiles
  | @cons one two _ _ here _ ih =>
      obtain ⟨p, b⟩ := one
      obtain ⟨q, c⟩ := two
      obtain ⟨rfl, left, right⟩ := here
      obtain ⟨inside, others, rfl, first, onward⟩ := tiles
      exact ⟨inside, others, rfl, by rwa [left, right], ih onward⟩

end Deck.SameRanges

/-- Writing values to consecutive places writes each to its place, and nothing else. -/
theorem storeElems_spec {width : ℕ} {values : List (List β)} {arena : Arena β} {deck : Deck β}
    (rep : Represents arena deck) {p : BlockPtr} (member : p ∈ ptrs deck) {offset : ℕ}
    (sized : ∀ v ∈ values, v.length ≤ width)
    (inside : offset + values.length * width ≤ arena.blockSize) :
    ∃ heap deck', storeElems width arena.heap ⟨p, offset⟩ values = some heap ∧
      Represents { arena with heap } deck' ∧ arena.Keeps { arena with heap } ∧
      deck.SameRanges deck' ∧
      (∀ e ∈ (placesFrom width ⟨p, offset⟩ values.length).zip values, deck'.Reads e.1 e.2) ∧
      ∀ ptr bytes, deck.Reads ptr bytes →
        (ptr.block ≠ p ∨ ptr.offset + bytes.length ≤ offset ∨
          ((offset + values.length * width : ℕ) : ℤ) ≤ ptr.offset) → deck'.Reads ptr bytes := by
  induction values generalizing arena deck offset with
  | nil =>
      exact ⟨arena.heap, deck, rfl, rep, .refl _, .refl _, by simp, fun _ _ reads _ => reads⟩
  | cons value values ih =>
      obtain ⟨short, sized⟩ := List.forall_mem_cons.mp sized
      rw [List.length_cons, Nat.succ_mul] at inside
      obtain ⟨heap₁, stored, rep₁, keeps₁⟩ :=
        rep.store member (show offset + value.length ≤ arena.blockSize by omega)
      obtain ⟨heap, deck', others, rep', keeps, same, reads, frame⟩ :=
        ih rep₁ (by simpa using member) sized
          (show offset + width + values.length * width ≤ arena.blockSize by omega)
      have written := @Deck.Reads.store_same _ deck ⟨p, offset⟩ member (Int.natCast_nonneg _) value
      have ranges : deck.SameRanges (deck.modify p fun b => b.write offset value) :=
        Deck.SameRanges.modify deck p (fun _ => rfl) (fun _ => rfl)
      refine ⟨heap, deck', ?_, rep', keeps₁.trans keeps, ranges.trans same, ?_, ?_⟩
      · simp only [storeElems, stored, Option.bind_eq_bind, Option.bind_some]
        exact others
      · rw [List.length_cons, placesFrom, List.zip_cons_cons]
        refine List.forall_mem_cons.mpr ⟨?_, fun e member => reads e member⟩
        refine frame _ _ written (.inr (.inl ?_))
        push_cast
        omega
      · intro ptr bytes before apart
        rw [List.length_cons, Nat.succ_mul] at apart
        refine frame ptr bytes (before.store_apart ⟨p, offset⟩ (Int.natCast_nonneg _) ?_) ?_
        · rcases apart with other | left | right
          · exact .inl other
          · exact .inr (.inl left)
          · refine .inr (.inr ?_)
            push_cast at right
            simp only []
            omega
        · rcases apart with other | left | right
          · exact .inl other
          · refine .inr (.inl ?_)
            push_cast
            omega
          · refine .inr (.inr ?_)
            push_cast at right ⊢
            omega

/-! ## The invariant -/

/-- What no operation on a list changes. -/
structure LFList.Keeps (list list' : LFList β) : Prop where
  arena : list'.arena.blockSize = list.arena.blockSize
  size : list'.elemSize = list.elemSize
  padded : list'.elemPaddedSize = list.elemPaddedSize

/-- The list has these elements, first to last, in these blocks. -/
structure LFList.Holds (list : LFList β) (deck : Deck β) (live : List (Element β)) : Prop where
  rep : Represents list.arena deck
  cursor : ∃ p ∈ ptrs deck, list.arena.cursorBlock = some p
  count : list.elemCount = live.length
  positive : 0 < list.elemSize
  padded : list.elemSize ≤ list.elemPaddedSize
  bounded : ∀ entry ∈ deck, entry.2.rightOffset ≤ list.arena.blockSize
  later : ∀ entry ∈ deck.tail, entry.2.leftOffset = 0 ∧ 0 < entry.2.rightOffset
  sized : ∀ e ∈ live, e.2.length = list.elemSize
  tiles : TilesDeck deck ((live.map Prod.fst).map (cell list.elemPaddedSize))
  reads : ∀ e ∈ live, deck.Reads e.1 e.2

/-- Behind an allocation at the tail all later blocks start at their left end. -/
theorem AllocTail.later {arena : Arena β} {size : ℕ} {deck deck' : Deck β} {ptr : Ptr}
    (alloc : AllocTail arena size deck ptr deck') (positive : 0 < size)
    (later : ∀ entry ∈ deck.tail, entry.2.leftOffset = 0 ∧ 0 < entry.2.rightOffset) :
    ∀ entry ∈ deck'.tail, entry.2.leftOffset = 0 ∧ 0 < entry.2.rightOffset := by
  cases alloc with
  | @fits p b front room =>
      cases front with
      | nil => simp
      | cons first front =>
          obtain ⟨others, last⟩ := List.forall_mem_append.mp later
          refine List.forall_mem_append.mpr ⟨others, List.forall_mem_singleton.mpr ?_⟩
          have place : b.leftOffset = 0 ∧ 0 < b.rightOffset := last _ (List.mem_singleton_self _)
          exact ⟨place.1, Nat.lt_add_right size place.2⟩
  | @opens p b front full =>
      have split : (front ++ [(p, b)] ++ [(arena.heap.serial,
          (⟨arena.heap.nextArea arena.blockSize, size, 0, arena.blockSize⟩ : Slab β))]).tail =
          (front ++ [(p, b)]).tail ++ [(arena.heap.serial,
            ⟨arena.heap.nextArea arena.blockSize, size, 0, arena.blockSize⟩)] := by
        cases front <;> rfl
      rw [split]
      exact List.forall_mem_append.mpr ⟨later, List.forall_mem_singleton.mpr ⟨rfl, positive⟩⟩

namespace LFList.Holds

variable {list : LFList β} {deck : Deck β} {live : List (Element β)}

theorem lists (holds : list.Holds deck live) : list.Lists none deck (live.map Prod.fst) where
  chain := holds.rep.chain
  distinct := holds.rep.distinct
  tail := holds.rep.tail
  blocks := holds.rep.count
  cursor := holds.cursor
  count := by rw [List.length_map, holds.count]
  positive := lt_of_lt_of_le holds.positive holds.padded
  bounded := fun entry member => by
    rw [holds.rep.extent entry member]
    exact holds.bounded entry member
  apart := holds.rep.apart
  later := holds.later
  tiles := holds.tiles

/-- Moving the cursor to another block changes nothing else. -/
theorem withCursor (holds : list.Holds deck live) {p : BlockPtr} (member : p ∈ ptrs deck) :
    (list.withCursor (some p)).Holds deck live where
  rep := holds.rep.withCursor (some p)
  cursor := ⟨p, member, rfl⟩
  count := holds.count
  positive := holds.positive
  padded := holds.padded
  bounded := holds.bounded
  later := holds.later
  sized := holds.sized
  tiles := holds.tiles
  reads := holds.reads

/-- Every element can be read. -/
theorem load (holds : list.Holds deck live) {e : Element β} (member : e ∈ live) :
    list.arena.heap.load e.1 list.elemSize = some e.2 := by
  have short : e.2.length ≤ list.elemPaddedSize := holds.sized e member ▸ holds.padded
  rw [← holds.sized e member]
  exact holds.lists.load (List.mem_map_of_mem member) (holds.reads e member) short

/-- New elements come behind the others. -/
theorem push (holds : list.Holds deck live) {values : List (List β)} (nonempty : values ≠ [])
    (sized : ∀ v ∈ values, v.length = list.elemSize)
    (fits : values.length * list.elemPaddedSize ≤ list.arena.blockSize)
    (small : values.length * list.elemPaddedSize < sizeModulus) :
    ∃ ptr list' deck₁ deck', list.push values = some (ptr, list') ∧
      AllocTail list.arena (values.length * list.elemPaddedSize) deck ptr deck₁ ∧
      deck₁.SameRanges deck' ∧ list.Keeps list' ∧
      list'.Holds deck'
        (live ++ (placesFrom list.elemPaddedSize ptr values.length).zip values) := by
  have width : 0 < list.elemPaddedSize := lt_of_lt_of_le holds.positive holds.padded
  have positive : 0 < values.length * list.elemPaddedSize :=
    Nat.mul_pos (List.length_pos_iff.mpr nonempty) width
  obtain ⟨ptr, arena, deck₁, alloc, change, rep₁, keeps₁, -⟩ := holds.rep.allocAtTail positive fits
  have bounded := change.bounded fits holds.rep.sized holds.bounded
  have later := change.later positive holds.later
  have tiles := change.tiles positive holds.tiles
  obtain ⟨front, p, b, offset, rfl, split, right⟩ := change.last
  have last : (p, b) ∈ deck₁ := by simp [split]
  have inside : offset + values.length * list.elemPaddedSize ≤ arena.blockSize := by
    have bound : b.rightOffset ≤ list.arena.blockSize := bounded _ last
    rw [keeps₁.blockSize]
    omega
  have short : ∀ v ∈ values, v.length ≤ list.elemPaddedSize := fun v member =>
    sized v member ▸ holds.padded
  obtain ⟨heap, deck', stored, rep', keeps, same, reads, frame⟩ :=
    storeElems_spec rep₁ (List.mem_map_of_mem last) short inside
  have apart := (List.pairwise_append.mp (tiles.pairwise rep₁.distinct)).2.2
  refine ⟨⟨p, offset⟩,
    { list with arena := { arena with heap }, elemCount := list.elemCount + values.length },
    deck₁, deck', ?_, change, same, ⟨keeps₁.blockSize, rfl, rfl⟩, ?_⟩
  · simp [LFList.push, lfAllocListElems, nonempty, sizeWrap_of_lt small, alloc, stored]
  · exact {
      rep := rep'
      cursor := by
        obtain ⟨q, member, atCursor⟩ := holds.cursor
        refine ⟨q, ?_, keeps₁.cursor.trans atCursor⟩
        rw [same.ptrs]
        exact change.carries.mem_ptrs member
      count := by simp [holds.count]
      positive := holds.positive
      padded := holds.padded
      bounded := by
        intro entry member
        obtain ⟨old, inDeck₁, -, sameRight⟩ := same.origin member
        change entry.2.rightOffset ≤ arena.blockSize
        rw [sameRight, keeps₁.blockSize]
        exact bounded old inDeck₁
      later := by
        intro entry member
        obtain ⟨old, inTail, sameLeft, sameRight⟩ := same.tail.origin member
        rw [sameLeft, sameRight]
        exact later old inTail
      sized := by
        intro e member
        rcases List.mem_append.mp member with old | new
        · exact holds.sized e old
        · exact sized e.2 (List.of_mem_zip new).2
      tiles := by
        have cells := tiles.splitLast width
        rw [← List.map_append] at cells
        rw [List.map_append, List.map_fst_zip (by simp)]
        exact same.tiles cells
      reads := by
        intro e member
        rcases List.mem_append.mp member with old | new
        · refine frame _ _ ((holds.reads e old).carried change.carries) ?_
          have short : e.2.length ≤ list.elemPaddedSize := holds.sized e old ▸ holds.padded
          have other := apart _ (List.mem_map_of_mem (List.mem_map_of_mem old)) _
            (List.mem_singleton_self _)
          rcases other with elsewhere | before | after
          · exact .inl elsewhere
          · refine .inr (.inl (Int.le_trans ?_ before))
            simp only [cell]
            omega
          · refine .inr (.inr (Int.le_trans (Int.le_of_eq ?_) after))
            push_cast
            rfl
        · exact reads e new }

end LFList.Holds

/-! ## Calls on a list -/

/-- The calls on a list. An element is known by the number of elements before it. -/
inductive ListCall (β : Type) where
  | alloc (values : List (List β))
  | elemCount
  | getFirst
  | getLast
  | getNext (k : ℕ)

/-- What a call answers: `NULL`, or a pointer with the value of the element it
points to when there is one. -/
inductive Answer (β : Type) where
  | done
  | count (n : ℕ)
  | isEmpty (answer : Bool)
  | null
  | elem (value : Option (List β))
deriving DecidableEq

/-- A list, and where its elements are. -/
structure ListInUse (β : Type) where
  list : LFList β
  elems : List Ptr

/-- What a returned pointer means. -/
def ListInUse.answer (t : ListInUse β) : Option Ptr → Answer β
  | none => .null
  | some ptr => .elem (if ptr ∈ t.elems then t.list.arena.heap.load ptr t.list.elemSize else none)

/-- `elem_count` is a `size_t`. -/
def LFList.wrapCount (list : LFList β) : LFList β :=
  { list with elemCount := sizeWrap list.elemCount }

/-- One call. The values that are written have the element size. -/
def listCall : ListCall β → ListInUse β → Option (Answer β × ListInUse β)
  | .alloc values, t => do
      if ∀ v ∈ values, v.length = t.list.elemSize then
        let (ptr, list) ← t.list.push values
        some (.done,
          ⟨list.wrapCount, t.elems ++ placesFrom list.elemPaddedSize ptr values.length⟩)
      else none
  | .elemCount, t => some (.count t.list.elemCount, t)
  | .getFirst, t => do
      let (ptr, list) ← lfGetFirstListElem t.list
      some (t.answer ptr, ⟨list, t.elems⟩)
  | .getLast, t => do
      let (ptr, list) ← lfGetLastListElem t.list
      some (t.answer ptr, ⟨list, t.elems⟩)
  | .getNext k, t => do
      let (ptr, list) ← lfGetNextListElem t.list (← t.elems[k]?)
      some (t.answer ptr, ⟨list, t.elems⟩)

theorem listCall_alloc {t : ListInUse β} {values : List (List β)} {ptr : Ptr} {list : LFList β}
    (sized : ∀ v ∈ values, v.length = t.list.elemSize)
    (pushed : t.list.push values = some (ptr, list)) :
    listCall (.alloc values) t = some (.done,
      ⟨list.wrapCount, t.elems ++ placesFrom list.elemPaddedSize ptr values.length⟩) := by
  simp only [listCall, if_pos sized, pushed, Option.bind_eq_bind, Option.bind_some]

theorem listCall_getFirst {t : ListInUse β} (counted : t.list.elemCount ≠ 0) {p : BlockPtr}
    {b : Slab β} {rest : Deck β} (rep : Represents t.list.arena ((p, b) :: rest)) :
    listCall .getFirst t =
      some (t.answer (some ⟨p, b.leftOffset⟩), ⟨t.list.withCursor (some p), t.elems⟩) := by
  obtain ⟨node, found, rfl⟩ := rep.lookup (List.mem_cons_self ..)
  simp only [listCall, lfGetFirstListElem, counted, ↓reduceIte, rep.head_eq, found,
    Option.bind_eq_bind, Option.bind_some]

theorem listCall_getLast {t : ListInUse β} (counted : t.list.elemCount ≠ 0) {p : BlockPtr}
    {b : Slab β} {front : Deck β} (rep : Represents t.list.arena (front ++ [(p, b)])) :
    listCall .getLast t =
      some (t.answer (some ⟨p, (b.rightOffset : ℤ) - t.list.elemPaddedSize⟩),
        ⟨t.list.withCursor (some p), t.elems⟩) := by
  obtain ⟨node, found, rfl⟩ := rep.lookup (p := p) (b := b) (by simp)
  simp only [listCall, lfGetLastListElem, counted, ↓reduceIte, rep.tail_eq, found,
    Option.bind_eq_bind, Option.bind_some]

/-- An empty list has no first and no last element. -/
theorem listCall_nothing {t : ListInUse β} (count : t.list.elemCount = 0) :
    listCall .getFirst t = some (.null, t) ∧ listCall .getLast t = some (.null, t) := by
  simp [listCall, lfGetFirstListElem, lfGetLastListElem, count, ListInUse.answer]

/-- What an allocation at the tail does to the first block. -/
theorem AllocTail.firstBlock {arena : Arena β} {size : ℕ} {p : BlockPtr} {b : Slab β}
    {later deck' : Deck β} {ptr : Ptr} (alloc : AllocTail arena size ((p, b) :: later) ptr deck') :
    ∃ c later', deck' = (p, c) :: later' ∧ c.leftOffset = b.leftOffset ∧
      ((later = [] ∧ size ≤ sizeSub b.size b.rightOffset ∧ c.rightOffset = b.rightOffset + size) ∨
        (c.rightOffset = b.rightOffset ∧
          (later = [] → sizeSub b.size b.rightOffset < size))) := by
  generalize same : (p, b) :: later = deck at alloc
  cases alloc with
  | @fits q c front room =>
      cases front with
      | nil =>
          cases same
          exact ⟨_, _, rfl, rfl, .inl ⟨rfl, room, rfl⟩⟩
      | cons first front =>
          obtain ⟨rfl, rfl⟩ := List.cons.inj same
          exact ⟨b, _, rfl, rfl, .inr ⟨rfl, by simp⟩⟩
  | @opens q c front full =>
      cases front with
      | nil =>
          cases same
          exact ⟨b, _, rfl, rfl, .inr ⟨rfl, fun _ => full⟩⟩
      | cons first front =>
          obtain ⟨rfl, rfl⟩ := List.cons.inj same
          exact ⟨b, _, rfl, rfl, .inr ⟨rfl, by simp⟩⟩

end LowFlow
