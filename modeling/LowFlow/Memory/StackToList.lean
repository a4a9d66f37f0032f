import LowFlow.Memory.List
import LowFlow.Memory.StackRuns

/-!
# From a stack to a list

`lf_stack_to_list` copies the blocks of a stack into a list: first into the
blocks the list has, then into new ones, whose headers and data are two arrays.
The used ranges keep their offsets, so the elements of the list are those of the
stack, top first.
-/

set_option autoImplicit false

namespace LowFlow

open Library

variable {β : Type}

/-- A part of an area. -/
def Area.part (area : Area β) (offset extent : ℕ) : Area β :=
  { base := area.base + offset, extent, byte := fun i => area.byte (offset + i) }

/-- A block with the used range of another block copied into it. -/
def copyUsedRange (source target : MemBlock β) : Option (MemBlock β) :=
  let usedSize := sizeSub source.rightOffset source.leftOffset
  if source.leftOffset + usedSize ≤ source.data.extent ∧
      source.leftOffset + usedSize ≤ target.data.extent then
    some
      { target with
        data := target.data.write source.leftOffset (source.data.read source.leftOffset usedSize)
        leftOffset := source.leftOffset
        rightOffset := source.rightOffset }
  else none

/-- Linking a block behind the last one. -/
def linkBlock (heap : Heap β) (lastListBlock curListBlock : BlockPtr) : Option (Heap β) := do
  let heap ← heap.modify lastListBlock fun b => { b with next := some curListBlock }
  heap.modify curListBlock fun b => { b with prev := some lastListBlock }

/-- The variables of the two copy loops. -/
structure CopyState (β : Type) where
  heap : Heap β
  curStackBlock : Option BlockPtr
  curListBlock : Option BlockPtr
  lastListBlock : Option BlockPtr

/-- The first loop: into the blocks of the list. -/
def copyToOwnBlocks (stackHeap : Heap β) : ℕ → CopyState β → Option (CopyState β)
  | 0, s => some s
  | n + 1, s => do
      let source ← stackHeap.block (← s.curStackBlock)
      let curListBlock ← s.curListBlock
      let target ← copyUsedRange source (← s.heap.block curListBlock)
      let heap ← s.heap.modify curListBlock fun _ => target
      let heap ← match s.lastListBlock with
        | some lastListBlock => linkBlock heap lastListBlock curListBlock
        | none => some heap
      let next := (← heap.block curListBlock).next
      copyToOwnBlocks stackHeap n
        { heap, curStackBlock := source.next, curListBlock := next
          lastListBlock := some curListBlock }

/-- The second loop: into new blocks, the headers of which are in an array from
`curListBlock` on, and the data in an area from `offset` on. -/
def copyToNewBlocks (stackHeap : Heap β) (blockSize : ℕ) (data : Area β) :
    ℕ → BlockPtr → ℕ → CopyState β → Option (CopyState β)
  | 0, _, _, s => some s
  | n + 1, curListBlock, offset, s => do
      let source ← stackHeap.block (← s.curStackBlock)
      let block ← s.heap.block curListBlock
      let target ← copyUsedRange source { block with data := data.part offset blockSize }
      let heap ← s.heap.modify curListBlock fun _ => target
      let heap ← linkBlock heap (← s.lastListBlock) curListBlock
      copyToNewBlocks stackHeap blockSize data n (curListBlock + 1) (offset + blockSize)
        { heap, curStackBlock := source.next, curListBlock := some curListBlock
          lastListBlock := some curListBlock }

/-- The headers and the data of the missing blocks, allocated when there are any. -/
def mallocRemaining (heap : Heap β) (missingBlockQtt blockSize : ℕ) : BlockPtr × Area β × Heap β :=
  let headers := heap.mallocHeaders missingBlockQtt
  let data := headers.2.mallocArea (blockSize * missingBlockQtt)
  (headers.1, data.1, if 1 ≤ missingBlockQtt then data.2 else heap)

/-- With more blocks in the list than in the stack the number of missing blocks
wraps around, and `malloc` of that many headers fails. -/
def lfStackToList (stack : Stack β) (list : LFList β) : Option (Stack β × LFList β) := do
  if list.elemSize ≠ stack.elemSize ∨ list.elemAlignment ≠ stack.elemAlignment ∨
      list.elemPaddedSize ≠ stack.elemPaddedSize ∨ list.elemQttInBlock ≠ stack.elemQttInBlock ∨
      list.arena.blockSize ≠ stack.arena.blockSize then none
  if stack.arena.blockCount < list.arena.blockCount then none
  let missingBlockQtt := stack.arena.blockCount - list.arena.blockCount
  let (remainingBlocks, remainingData, heap) :=
    mallocRemaining list.arena.heap missingBlockQtt list.arena.blockSize
  let s ← copyToOwnBlocks stack.arena.heap list.arena.blockCount
    { heap, curStackBlock := stack.arena.headBlock, curListBlock := list.arena.headBlock
      lastListBlock := none }
  let s ← copyToNewBlocks stack.arena.heap list.arena.blockSize remainingData missingBlockQtt
    remainingBlocks 0 s
  some (stack,
    { list with
      elemCount := stack.elemCount
      arena :=
        { list.arena with
          heap := s.heap
          blockCount := stack.arena.blockCount
          tailBlock := s.lastListBlock } })

/-! ## Copies of blocks -/

/-- A block whose used range is that of another, with the same bytes. -/
structure Copied (source copy : BlockPtr × Slab β) : Prop where
  left : copy.2.leftOffset = source.2.leftOffset
  right : copy.2.rightOffset = source.2.rightOffset
  bytes : ∀ i, source.2.leftOffset ≤ i → i < source.2.rightOffset →
    copy.2.data.byte i = source.2.data.byte i

/-- Each copy is the copy of a block. -/
theorem copied_source {deck copies : Deck β} (copied : List.Forall₂ Copied deck copies)
    {copy : BlockPtr × Slab β} (member : copy ∈ copies) : ∃ source ∈ deck, Copied source copy := by
  induction copied with
  | nil => cases member
  | cons here onward ih =>
      rcases List.mem_cons.mp member with rfl | later
      · exact ⟨_, List.mem_cons_self .., here⟩
      · obtain ⟨source, inDeck, same⟩ := ih later
        exact ⟨source, List.mem_cons_of_mem _ inDeck, same⟩

/-- Copying the used range of a block. -/
theorem copyUsedRange_spec (source target : MemBlock β) (p q : BlockPtr)
    (ordered : source.leftOffset ≤ source.rightOffset)
    (inSource : source.rightOffset ≤ source.data.extent)
    (inTarget : source.rightOffset ≤ target.data.extent) :
    ∃ copy, copyUsedRange source target = some copy ∧ copy.prev = target.prev ∧
      copy.next = target.next ∧ copy.data.place = target.data.place ∧
      Copied (p, source.toSlab) (q, copy.toSlab) := by
  have used : sizeSub source.rightOffset source.leftOffset =
      source.rightOffset - source.leftOffset := sizeSub_of_le ordered
  have bounds : source.leftOffset + (source.rightOffset - source.leftOffset) ≤ source.data.extent ∧
      source.leftOffset + (source.rightOffset - source.leftOffset) ≤ target.data.extent := by omega
  let copy : MemBlock β :=
    { target with
      data := target.data.write source.leftOffset
        (source.data.read source.leftOffset (source.rightOffset - source.leftOffset))
      leftOffset := source.leftOffset
      rightOffset := source.rightOffset }
  refine ⟨copy, by rw [copyUsedRange, used, if_pos bounds], rfl, rfl, rfl, rfl, rfl, ?_⟩
  intro i low high
  dsimp only at low high
  have inRange : i - source.leftOffset < source.rightOffset - source.leftOffset := by omega
  simp [copy, Area.write, Area.read, low, inRange, Nat.add_sub_cancel' low]

/-- The elements in a block are in its copy, at the same offsets. -/
theorem Copied.tiles {p q : BlockPtr} {b c : Slab β} (copied : Copied (p, b) (q, c)) {width : ℕ}
    {lo : ℕ} (low : b.leftOffset ≤ lo) {live : List (Element β)}
    (sized : ∀ e ∈ live, e.2.length = width)
    (reads : ∀ e ∈ live, b.data.read e.1.offset.toNat e.2.length = e.2)
    (tiles : Tiles p lo (live.map slot) b.rightOffset) :
    ∃ elems : List Ptr, Tiles q lo (elems.map (cell width)) c.rightOffset ∧
      List.Forall₂ (fun e ptr => ptr.block = q ∧ 0 ≤ ptr.offset ∧
        c.data.read ptr.offset.toNat e.2.length = e.2) live elems := by
  induction live generalizing lo with
  | nil => exact ⟨[], copied.right ▸ tiles, .nil⟩
  | cons e rest ih =>
      obtain ⟨start, positive, onward⟩ := tiles
      obtain ⟨sizedHere, sizedRest⟩ := List.forall_mem_cons.mp sized
      obtain ⟨readsHere, readsRest⟩ := List.forall_mem_cons.mp reads
      have bound := onward.le
      obtain ⟨elems, tilesRest, same⟩ := ih (by omega) sizedRest readsRest onward
      replace start : e.1 = ⟨p, lo⟩ := start
      refine ⟨⟨q, lo⟩ :: elems, ⟨rfl, sizedHere ▸ positive, ?_⟩, .cons ⟨rfl, by simp, ?_⟩ same⟩
      · simpa [cell, slot, sizedHere] using tilesRest
      · rw [start] at readsHere
        refine Eq.trans (List.map_congr_left ?_) readsHere
        intro i member
        have inRange := List.mem_range.mp member
        simp only [slot] at bound
        exact copied.bytes _ (by simp; omega) (by simp; omega)

/-- The elements of a deck are in a copy of it, in the same order. -/
theorem copied_tiles {deck copies : Deck β} (copied : List.Forall₂ Copied deck copies)
    {width : ℕ} {live : List (Element β)} (sized : ∀ e ∈ live, e.2.length = width)
    (reads : ∀ e ∈ live, ∀ b, (e.1.block, b) ∈ deck →
      b.data.read e.1.offset.toNat e.2.length = e.2)
    (tiles : TilesDeck deck (live.map slot)) :
    ∃ elems : List Ptr, TilesDeck copies (elems.map (cell width)) ∧
      List.Forall₂ (fun e ptr => copies.Reads ptr e.2) live elems := by
  induction copied generalizing live with
  | nil =>
      obtain rfl : live = [] := List.map_eq_nil_iff.mp tiles
      exact ⟨[], rfl, .nil⟩
  | @cons source copy deck copies here onward ih =>
      obtain ⟨p, b⟩ := source
      obtain ⟨q, c⟩ := copy
      obtain ⟨first, others, split, tilesFirst, tilesOthers⟩ := tiles
      obtain ⟨liveFirst, liveOthers, rfl, rfl, rfl⟩ := List.map_eq_append_iff.mp split
      obtain ⟨sizedFirst, sizedOthers⟩ := List.forall_mem_append.mp sized
      obtain ⟨readsFirst, readsOthers⟩ := List.forall_mem_append.mp reads
      have inBlock : ∀ e ∈ liveFirst, b.data.read e.1.offset.toNat e.2.length = e.2 := by
        intro e member
        have block := (tilesFirst.inside (List.mem_map_of_mem member)).1
        exact readsFirst e member b (by simp [show e.1.block = p from block])
      obtain ⟨elemsFirst, tilesFirst', same⟩ := here.tiles le_rfl sizedFirst inBlock tilesFirst
      obtain ⟨elemsOthers, tilesOthers', sameOthers⟩ := ih sizedOthers
        (fun e member d inDeck => readsOthers e member d (List.mem_cons_of_mem _ inDeck))
        tilesOthers
      refine ⟨elemsFirst ++ elemsOthers, ?_, ?_⟩
      · rw [List.map_append]
        exact ⟨_, _, rfl, here.left ▸ tilesFirst', tilesOthers'⟩
      · refine List.rel_append (same.imp ?_)
          (sameOthers.imp ?_)
        · intro e ptr found
          obtain ⟨block, low, bytes⟩ := found
          exact ⟨c, by simp [block], low, bytes⟩
        · intro e ptr found
          obtain ⟨d, member, place⟩ := found
          exact ⟨d, List.mem_cons_of_mem _ member, place⟩

/-! ## The second loop -/

/-- Blocks with consecutive headers and consecutive data. -/
def Consecutive (blockSize : ℕ) : ℕ → ℕ → Deck β → Prop
  | _, _, [] => True
  | q, base, entry :: rest =>
      entry.1 = q ∧ entry.2.data.place = (base, blockSize) ∧
        Consecutive blockSize (q + 1) (base + blockSize) rest

theorem Consecutive.above {blockSize base q : ℕ} {deck : Deck β}
    (consecutive : Consecutive blockSize q base deck) {entry : ℕ × Slab β}
    (member : entry ∈ deck) :
    q ≤ entry.1 ∧ base ≤ entry.2.data.base ∧ entry.2.data.extent = blockSize ∧
      entry.2.data.base + blockSize ≤ base + blockSize * deck.length := by
  induction deck generalizing q base with
  | nil => cases member
  | cons first rest ih =>
      obtain ⟨here, place, onward⟩ := consecutive
      replace here : @Eq ℕ first.1 q := here
      have start : first.2.data.base = base := congrArg Prod.fst place
      have extent : first.2.data.extent = blockSize := congrArg Prod.snd place
      rw [List.length_cons, Nat.mul_succ]
      rcases List.mem_cons.mp member with rfl | later
      · omega
      · have place := ih onward later
        omega

theorem Consecutive.apart {blockSize base q : ℕ} {deck : Deck β}
    (consecutive : Consecutive blockSize q base deck) :
    (ptrs deck).Nodup ∧
      deck.Pairwise fun one two => Area.Apart one.2.data.place two.2.data.place := by
  induction deck generalizing q base with
  | nil => simp
  | cons first rest ih =>
      obtain ⟨here, place, onward⟩ := consecutive
      obtain ⟨distinct, apart⟩ := ih onward
      refine ⟨List.nodup_cons.mpr ⟨?_, distinct⟩,
        .cons (?_) apart⟩
      · intro member
        obtain ⟨entry, inRest, same⟩ := List.mem_map.mp member
        have above := (onward.above inRest).1
        rw [same, here] at above
        exact absurd above (Nat.not_succ_le_self q)
      · intro entry member
        rw [place]
        exact .inl (onward.above member).2.1

theorem copyToNewBlocks_spec {stackHeap : Heap β} {blockSize : ℕ} (data : Area β) {rest : Deck β}
    {before cur : Option BlockPtr}
    (sources : Segment (blockView β) stackHeap.block none before cur rest)
    (ordered : ∀ entry ∈ rest, entry.2.leftOffset ≤ entry.2.rightOffset ∧
      entry.2.rightOffset ≤ entry.2.data.extent ∧ entry.2.rightOffset ≤ blockSize)
    {heap : Heap β} {after first : Option BlockPtr} (curList : Option BlockPtr) {done : Deck β}
    {q : ℕ} (offset : ℕ) (chain : Segment (blockView β) heap.block after none first done)
    (nonempty : done ≠ []) (distinct : (ptrs done).Nodup) (below : ∀ r ∈ ptrs done, r < q)
    (headers : ∀ i < rest.length, ∃ b, heap.block (q + i) = some b) :
    ∃ s' after' copies, copyToNewBlocks stackHeap blockSize data rest.length q offset
        ⟨heap, cur, curList, (ptrs done).getLast?⟩ = some s' ∧
      Segment (blockView β) s'.heap.block after' none first (done ++ copies) ∧
      s'.lastListBlock = (ptrs (done ++ copies)).getLast? ∧
      List.Forall₂ Copied rest copies ∧ Consecutive blockSize q (data.base + offset) copies ∧
      (rest = [] → after' = after) ∧
      (∀ unset, (∀ i < rest.length, ∀ b, heap.block (q + i) = some b → b.next = unset) →
        rest ≠ [] → after' = unset) := by
  induction rest generalizing before cur heap after curList done q offset with
  | nil =>
      exact ⟨_, after, [], rfl, by simpa using chain, by simp, .nil, trivial, fun _ => rfl,
        by simp⟩
  | cons entry rest ih =>
      obtain ⟨p, b⟩ := entry
      obtain ⟨rfl, source, foundSource, rfl, -, onward⟩ := sources
      obtain ⟨⟨low, inSource, inBlock⟩, ordered⟩ := List.forall_mem_cons.mp ordered
      obtain ⟨header, foundHeader⟩ := headers 0 (by simp)
      rw [Nat.add_zero] at foundHeader
      obtain ⟨front, ⟨l, lb⟩, rfl⟩ :
          ∃ (front : Deck β) (last : ℕ × Slab β), done = front ++ [last] :=
        List.eq_nil_or_concat' done |>.resolve_left nonempty
      obtain ⟨lastNode, foundLast, carried⟩ := chain.lookup (p := l) (v := lb) (by simp)
      have apart : l ≠ q := Nat.ne_of_lt (below l (by simp))
      obtain ⟨copy, copied, -, linkNext, place, same⟩ := copyUsedRange_spec source
        { header with data := data.part offset blockSize } p q low inSource inBlock
      -- the copy is written, the last block is linked to it, and it is linked back
      obtain ⟨heap₁, written, block₁, -⟩ := Heap.modify_spec foundHeader fun _ => copy
      have foundLast₁ : heap₁.block l = some lastNode := by simp [block₁, apart, foundLast]
      obtain ⟨heap₂, linked, block₂, -⟩ := Heap.modify_spec foundLast₁
        fun b => { b with next := some q }
      have foundCopy : heap₂.block q = some copy := by simp [block₂, block₁, apart.symm]
      obtain ⟨heap₃, linkedBack, block₃, -⟩ := Heap.modify_spec foundCopy
        fun b => { b with prev := some l }
      have relink : ∀ node, heap.block l = some node →
          (blockView β).view { lastNode with next := some q } = (blockView β).view node ∧
            (blockView β).prev { lastNode with next := some q } = (blockView β).prev node ∧
            (blockView β).next { lastNode with next := some q } = some q := by
        intro node found
        cases foundLast.symm.trans found
        exact ⟨rfl, rfl, rfl⟩
      have unused : q ∉ ptrs (front ++ [(l, lb)]) := fun member =>
        absurd (below q member) (Nat.lt_irrefl q)
      have longer := chain.pushBack distinct unused
        (rfl : (blockView β).prev { copy with prev := some l } = some l) relink
      have chain₃ : Segment (blockView β) heap₃.block copy.next none first
          (front ++ [(l, lb)] ++ [(q, copy.toSlab)]) := longer.frame fun r _ => by
        simp only [block₃, block₂, block₁, Function.update_apply]
        split <;> rfl
      have later : ∀ i, heap₃.block (q + 1 + i) = heap.block (q + (i + 1)) := by
        intro i
        have beforeNew : l < q := below l (by simp)
        have notLast : q + (i + 1) ≠ l := by omega
        have notNew : q + (i + 1) ≠ q := by omega
        rw [show q + 1 + i = q + (i + 1) by omega, block₃, Function.update_of_ne notNew, block₂,
          Function.update_of_ne notLast, block₁, Function.update_of_ne notNew]
      have headers₃ : ∀ i < rest.length, ∃ b, heap₃.block (q + 1 + i) = some b := by
        intro i bound
        obtain ⟨b, found⟩ := headers (i + 1) (by simpa using bound)
        exact ⟨b, (later i).trans found⟩
      have below₃ : ∀ r ∈ ptrs (front ++ [(l, lb)] ++ [(q, copy.toSlab)]), r < q + 1 := by
        intro r member
        rw [ptrs, List.map_append, List.mem_append] at member
        rcases member with old | new
        · exact Nat.lt_succ_of_lt (below r old)
        · rw [List.mem_singleton.mp new]
          exact Nat.lt_succ_self q
      have distinct₃ : (ptrs (front ++ [(l, lb)] ++ [(q, copy.toSlab)])).Nodup := by
        rw [ptrs, List.map_append]
        exact List.nodup_append'.mpr ⟨distinct, by simp, by simpa using unused⟩
      obtain ⟨s', after', copies, ran, chain', last, copiedRest, consecutive, ends, left⟩ :=
        ih onward ordered (some q) (offset + blockSize) chain₃ (by simp)
          distinct₃ below₃ headers₃
      refine ⟨s', after', (q, copy.toSlab) :: copies, ?_, by simpa using chain',
        by simpa using last,
        .cons same copiedRest, ⟨rfl, place, by rwa [Nat.add_assoc]⟩, by simp, ?_⟩
      · rw [ptrs, List.map_append, List.map_singleton, List.getLast?_concat] at ran
        simp only [List.length_cons, copyToNewBlocks, Option.bind_eq_bind, Option.bind_some,
          foundSource, foundHeader, copied, written, linkBlock, ptrs, List.map_append,
          List.map_singleton, List.getLast?_concat, linked, linkedBack]
        exact ran
      · intro unset unlinked _
        by_cases lastOne : rest = []
        · rw [ends lastOne, linkNext]
          exact unlinked 0 (by simp) header foundHeader
        · refine left unset (?_) lastOne
          intro i bound b found
          exact unlinked (i + 1) (by simpa using bound) b ((later i).symm.trans found)

/-! ## The list that is made of a stack -/

theorem mallocRemaining_spec (heap : Heap β) (n blockSize : ℕ) :
    ∃ data heap', mallocRemaining heap n blockSize = (heap.serial, data, heap') ∧
      (∀ r < heap.serial, heap'.block r = heap.block r) ∧
      (∀ i < n, heap'.block (heap.serial + i) = some (heap.malloc.header (heap.serial + i))) ∧
      data.extent = blockSize * n ∧ ∀ area ∈ heap.areas, Area.Apart data.place area := by
  refine ⟨_, _, rfl, ?_, ?_, rfl, heap.malloc.apart heap.areas _⟩
  · intro r old
    have notNew : ¬ (heap.serial ≤ r ∧ r < heap.serial + n) := by omega
    split
    · simp [Heap.mallocHeaders, Heap.mallocArea, notNew]
    · rfl
  · intro i bound
    simp [Heap.mallocHeaders, Heap.mallocArea, show 1 ≤ n by omega, bound]

/-- The used ranges of a stack are in order, and inside of the blocks. -/
theorem Stack.Holds.ranges {stack : Stack β} {used : Deck β} {live : List (Element β)}
    (holds : stack.Holds used [] live) : ∀ entry ∈ used,
      entry.2.leftOffset ≤ entry.2.rightOffset ∧ entry.2.rightOffset ≤ entry.2.data.extent ∧
        entry.2.rightOffset ≤ stack.arena.blockSize := by
  intro entry member
  have inDeck : entry ∈ used ++ [] := List.mem_append_left _ member
  have right := holds.right entry inDeck
  have extent := holds.rep.extent entry inDeck
  exact ⟨holds.tiles.left_le member, by omega, by omega⟩

/-- The elements of a stack are read from their blocks. -/
theorem Stack.Holds.bytes {stack : Stack β} {used : Deck β} {live : List (Element β)}
    (holds : stack.Holds used [] live) : ∀ e ∈ live, ∀ d, (e.1.block, d) ∈ used →
      d.data.read e.1.offset.toNat e.2.length = e.2 := by
  intro e member d inUsed
  obtain ⟨d', inDeck, -, same⟩ := holds.reads e member
  exact holds.rep.same_block inDeck (List.mem_append_left _ inUsed) ▸ same

/-- The first loop on a list of one block. -/
theorem copyToOwnBlocks_one {stackHeap heap : Heap β} {p h : BlockPtr} {source target : MemBlock β}
    (foundSource : stackHeap.block p = some source) (found : heap.block h = some target)
    (ordered : source.leftOffset ≤ source.rightOffset)
    (inSource : source.rightOffset ≤ source.data.extent)
    (inTarget : source.rightOffset ≤ target.data.extent) :
    ∃ copy heap', copyToOwnBlocks stackHeap 1 ⟨heap, some p, some h, none⟩ =
        some ⟨heap', source.next, target.next, some h⟩ ∧
      heap'.block = Function.update heap.block h (some copy) ∧ copy.prev = target.prev ∧
      copy.next = target.next ∧ copy.data.place = target.data.place ∧
      Copied (p, source.toSlab) (h, copy.toSlab) := by
  obtain ⟨copy, copied, prev, next, place, same⟩ :=
    copyUsedRange_spec source target p h ordered inSource inTarget
  obtain ⟨heap', written, block, -⟩ := Heap.modify_spec found fun _ => copy
  have here : heap'.block h = some copy := by rw [block, Function.update_self]
  refine ⟨copy, heap', ?_, block, prev, next, place, same⟩
  simp [copyToOwnBlocks, foundSource, found, copied, written, here, next]

/-- The list has the stack's elements, top first. -/
theorem lfStackToList_spec {stack : Stack β} {p : BlockPtr} {b : Slab β} {rest : Deck β}
    {live : List (Element β)} (holds : stack.Holds ((p, b) :: rest) [] live)
    (count : stack.elemCount = live.length)
    (whole : rest = [] ∨ stack.elemSize ∣ stack.arena.blockSize)
    {list : LFList β} {h : BlockPtr} {hb : Slab β} (fresh : Represents list.arena [(h, hb)])
    (cursor : list.arena.cursorBlock = some h) (size : list.elemSize = stack.elemSize)
    (alignment : list.elemAlignment = stack.elemAlignment)
    (padded : list.elemPaddedSize = stack.elemPaddedSize)
    (qtt : list.elemQttInBlock = stack.elemQttInBlock)
    (blockSize : list.arena.blockSize = stack.arena.blockSize) :
    ∃ list' after c copies elems, lfStackToList stack list = some (stack, list') ∧
      list'.Lists after ((h, c) :: copies) elems ∧
      List.Forall₂ (fun e ptr => Deck.Reads ((h, c) :: copies) ptr e.2) live elems ∧
      Copied (p, b) (h, c) ∧ list'.elemSize = list.elemSize ∧
      list'.elemPaddedSize = list.elemPaddedSize ∧
      (rest = [] → after = none) ∧
      (∀ unset, (∀ q, (list.arena.heap.malloc.header q).next = unset) → rest ≠ [] →
        after = unset) := by
  have rep : Represents stack.arena ((p, b) :: rest) := by simpa using holds.rep
  obtain ⟨head, source, foundSource, carried, -, onward⟩ := rep.chain
  cases (show source.toSlab = b from carried)
  obtain ⟨headList, target, foundTarget, carriedTarget, back, nextTarget⟩ := fresh.chain
  cases (show target.toSlab = hb from carriedTarget)
  have one : list.arena.blockCount = 1 := fresh.count
  have several : stack.arena.blockCount = rest.length + 1 := rep.count
  obtain ⟨data, heap₀, remaining, old, headers, extent, apartNew⟩ :=
    mallocRemaining_spec list.arena.heap rest.length list.arena.blockSize
  have ordered := holds.ranges
  rw [← blockSize] at ordered
  have extentTarget : target.data.extent = stack.arena.blockSize :=
    (fresh.extent _ (List.mem_singleton_self _)).trans blockSize
  obtain ⟨low, inSource, inTarget⟩ := ordered _ (List.mem_cons_self ..)
  -- the first loop copies the head block
  have beforeNew : h < list.arena.heap.serial := fresh.known h (by simp)
  have found₀ : heap₀.block h = some target := (old h beforeNew).trans foundTarget
  obtain ⟨copy, heap₁, first, block₁, prev, next, place, same⟩ := copyToOwnBlocks_one foundSource
    found₀ low inSource (by rw [extentTarget, ← blockSize]; exact inTarget)
  have found₁ : heap₁.block h = some copy := by rw [block₁, Function.update_self]
  have noNext : copy.next = none := next.trans nextTarget
  have chain₁ : Segment (blockView β) heap₁.block none none (some h) [(h, copy.toSlab)] :=
    ⟨rfl, copy, found₁, rfl, prev.trans back, noNext⟩
  have headers₁ : ∀ i < rest.length, heap₁.block (list.arena.heap.serial + i) =
      some (list.arena.heap.malloc.header (list.arena.heap.serial + i)) := by
    intro i bound
    have other : list.arena.heap.serial + i ≠ h :=
      Nat.ne_of_gt (Nat.lt_of_lt_of_le beforeNew (Nat.le_add_right ..))
    rw [block₁, Function.update_of_ne other]
    exact headers i bound
  -- the second loop copies the others
  obtain ⟨s', after, copies, second, chain, last, copiedRest, consecutive, ends, left⟩ :=
    copyToNewBlocks_spec data onward
      (fun entry member => ordered entry (List.mem_cons_of_mem _ member)) target.next 0 chain₁
      (by simp) (by simp)
      (by simpa using beforeNew) fun i bound => ⟨_, headers₁ i bound⟩
  have done : lfStackToList stack list = some (stack,
      { list with
        elemCount := stack.elemCount
        arena :=
          { list.arena with
            heap := s'.heap
            blockCount := stack.arena.blockCount
            tailBlock := s'.lastListBlock } }) := by
    rw [blockSize] at remaining second
    simp only [lfStackToList, size, alignment, padded, qtt, blockSize, one, several, head, headList,
      ne_eq, not_true_eq_false, or_self, ↓reduceIte, Nat.add_sub_cancel, remaining, first,
      Option.bind_eq_bind, Option.bind_some, show ¬ rest.length + 1 < 1 by omega]
    exact congrArg (Option.bind · _) second
  -- the result is a list of the copied elements
  obtain ⟨elems, tiles, same'⟩ :=
    copied_tiles (.cons same copiedRest) holds.sized holds.bytes holds.tiles
  have length : copies.length = rest.length := copiedRest.length_eq.symm
  have placeHead : copy.data.place ∈ list.arena.heap.areas :=
    place ▸ fresh.owned _ (List.mem_singleton_self _)
  refine ⟨_, after, copy.toSlab, copies, elems, done, ?_, same', same, rfl, rfl, ends, ?_⟩
  · exact {
      chain := by simpa [headList] using chain
      distinct := by
        refine List.nodup_cons.mpr ⟨?_, consecutive.apart.1⟩
        intro member
        obtain ⟨entry, inCopies, sameBlock⟩ := List.mem_map.mp member
        have above := (consecutive.above inCopies).1
        rw [sameBlock] at above
        exact absurd (Nat.lt_of_lt_of_le beforeNew above) (Nat.lt_irrefl _)
      tail := last
      blocks := by simp [several, length]
      cursor := ⟨h, by simp, cursor⟩
      count := count.trans same'.length_eq
      positive := by
        rw [show list.elemPaddedSize = _ from padded, holds.padded]
        exact holds.positive
      bounded := by
        refine List.forall_mem_cons.mpr ⟨?_, ?_⟩
        · rw [show copy.data.extent = target.data.extent from congrArg Prod.snd place, extentTarget,
            ← blockSize]
          exact same.right ▸ inTarget
        · intro entry member
          obtain ⟨source, inRest, copied⟩ := copied_source copiedRest member
          rw [(consecutive.above member).2.2.1, copied.right]
          exact (ordered source (List.mem_cons_of_mem _ inRest)).2.2
      apart := by
        refine .cons (?_) consecutive.apart.2
        intro entry member
        obtain ⟨-, low, within, high⟩ := consecutive.above member
        have apart := apartNew _ placeHead
        simp only [Area.Apart, Area.place] at apart ⊢
        rw [length] at high
        omega
      later := by
        intro entry member
        obtain ⟨source, inRest, copied⟩ := copied_source copiedRest member
        have whole := whole.resolve_left (List.ne_nil_of_mem inRest)
        obtain ⟨left, right⟩ := holds.filled_behind whole inRest
        have positive := rep.positive
        rw [copied.left, copied.right, left, right]
        exact ⟨rfl, positive⟩
      tiles := by
        rw [show list.elemPaddedSize = _ from padded, holds.padded]
        exact tiles }
  · intro unset unlinked
    refine left unset ?_
    intro i bound b found
    rw [← Option.some.inj ((headers₁ i bound).symm.trans found)]
    exact unlinked _

/-- A stack of one block moves to a list of one block. -/
theorem lfStackToList_single {stack : Stack β} {p : BlockPtr} {b : Slab β}
    (rep : Represents stack.arena [(p, b)]) (ordered : b.leftOffset ≤ b.rightOffset)
    (bounded : b.rightOffset ≤ stack.arena.blockSize) {list : LFList β} {h : BlockPtr} {hb : Slab β}
    (fresh : Represents list.arena [(h, hb)]) (size : list.elemSize = stack.elemSize)
    (alignment : list.elemAlignment = stack.elemAlignment)
    (padded : list.elemPaddedSize = stack.elemPaddedSize)
    (qtt : list.elemQttInBlock = stack.elemQttInBlock)
    (blockSize : list.arena.blockSize = stack.arena.blockSize) :
    ∃ list', lfStackToList stack list = some (stack, list') ∧
      list'.elemCount = stack.elemCount := by
  obtain ⟨source, foundSource, rfl⟩ := rep.lookup (List.mem_singleton_self _)
  obtain ⟨target, found, rfl⟩ := fresh.lookup (List.mem_singleton_self _)
  have extent : source.data.extent = stack.arena.blockSize :=
    rep.extent _ (List.mem_singleton_self _)
  have extent' : target.data.extent = list.arena.blockSize :=
    fresh.extent _ (List.mem_singleton_self _)
  have one : stack.arena.blockCount = 1 := rep.count
  have one' : list.arena.blockCount = 1 := fresh.count
  obtain ⟨copy, heap, first, -⟩ := copyToOwnBlocks_one foundSource found ordered
    (by rw [extent]; exact bounded) (by rw [extent', blockSize]; exact bounded)
  refine ⟨{ list with
    elemCount := stack.elemCount
    arena := { list.arena with heap, blockCount := 1, tailBlock := some h } }, ?_, rfl⟩
  simp [lfStackToList, size, alignment, padded, qtt, blockSize, one, one', rep.head_eq,
    fresh.head_eq, mallocRemaining, first, copyToNewBlocks]

/-! ## A stack that was filled -/

/-- Pushing values leaves them on the stack, the last one in the head block. -/
theorem Stack.Holds.pushes {t : Pushed β} {used : Deck β} (holds : t.stack.Holds used [] t.live)
    (count : t.stack.elemCount = t.live.length)
    (atHead : ∀ e ∈ t.live.head?, (ptrs used).head? = some e.1.block) {values : List (List β)}
    (sized : ∀ v ∈ values, v.length = t.stack.elemSize) :
    ∃ answers t' used', run stackStep (values.map .push) t = some (answers, t') ∧
      t'.stack.Holds used' [] t'.live ∧ t'.stack.elemCount = t'.live.length ∧
      (∀ e ∈ t'.live.head?, (ptrs used').head? = some e.1.block) ∧
      t'.live.map Prod.snd = values.reverse ++ t.live.map Prod.snd ∧ t.stack.Keeps t'.stack := by
  induction values generalizing t used with
  | nil => exact ⟨[], t, used, rfl, holds, count, atHead, rfl, .refl _⟩
  | cons v values ih =>
      obtain ⟨sizedHere, sizedRest⟩ := List.forall_mem_cons.mp sized
      obtain ⟨ptr, stack₁, used₁, pushed, holds₁, keeps₁, more, atHead₁⟩ := holds.push sizedHere
      obtain ⟨answers, t', used', runs, holds', count', atHead', same, keeps⟩ :=
        ih (t := ⟨stack₁, (ptr, v) :: t.live⟩) holds₁ (by simp [more, count])
          (by simpa using atHead₁)
          (by simpa [keeps₁.size] using sizedRest)
      refine ⟨none :: answers, t', used', run_cons (by simp [stackStep, pushed]) runs, holds',
        count', atHead', ?_, keeps₁.trans keeps⟩
      simp [same]

/-- Popping as often as there are elements takes them all. -/
theorem run_lifoStep_pops (elems : List (List β)) :
    run lifoStep (List.replicate elems.length .pop) elems = some (elems.map some, []) := by
  induction elems with
  | nil => rfl
  | cons top rest ih => exact run_cons rfl ih

/-- Popping as often as there are elements answers with them, top first. -/
theorem Stack.Holds.pops {t : Pushed β} {used : Deck β} (holds : t.stack.Holds used [] t.live)
    (count : t.stack.elemCount = t.live.length) :
    ∃ t', run stackStep (List.replicate t.live.length .pop) t =
      some (t.live.map fun e => some e.2, t') := by
  have legal : ∀ op ∈ List.replicate t.live.length (.pop : StackOp β),
      op.Legal t.stack.elemSize := by
    intro op member
    cases List.eq_of_mem_replicate member
    trivial
  obtain ⟨answers, t', -, runs, lifo, -⟩ := holds.runs count legal
  have popped := run_lifoStep_pops (t.live.map Prod.snd)
  rw [List.length_map, lifo, List.map_map] at popped
  obtain ⟨rfl, -⟩ := Prod.mk.inj (Option.some.inj popped)
  exact ⟨t', runs⟩

/-- A stack that nothing was pushed on moves to a list without elements. -/
theorem lfStackToList_nothing (stack : Stack β) {padded : ℕ} (positive : 0 < stack.elemSize)
    (some_in_block : 1 ≤ stack.elemQttInBlock)
    (pads : paddedSize stack.elemSize stack.elemAlignment = some padded)
    (blocks : 0 < sizeWrap (stack.elemQttInBlock * padded)) (list : LFList β)
    (size : list.elemSize = stack.elemSize) (alignment : list.elemAlignment = stack.elemAlignment)
    (qtt : list.elemQttInBlock = stack.elemQttInBlock) :
    ∃ start fresh list', lfInitStack stack = some start ∧ lfInitList list = some fresh ∧
      lfStackToList start fresh = some (start, list') ∧ start.elemCount = 0 ∧
      list'.elemCount = 0 := by
  obtain ⟨start, p, b, init, rep, blockSize, -, left, right, qttStart, sizeStart, alignmentStart,
    paddedStart, count⟩ := lfInitStack_spec positive some_in_block pads blocks
  obtain ⟨fresh, h, hb, initList, repList, blockSizeList, -, -, -, -, qttList, sizeList,
    alignmentList, paddedList, -⟩ := lfInitList_spec list (by rw [size]; exact positive)
      (by rw [qtt]; exact some_in_block) (by rw [size, alignment]; exact pads)
      (by rw [qtt]; exact blocks)
  obtain ⟨list', moved, same⟩ := lfStackToList_single rep (by rw [left, right]) (by rw [right])
    repList (by rw [sizeList, size, sizeStart])
    (by rw [alignmentList, alignment, alignmentStart]) (by rw [paddedList, paddedStart])
    (by rw [qttList, qtt, qttStart]) (by rw [blockSizeList, qtt, blockSize])
  exact ⟨start, fresh, list', init, initList, moved, count, same.trans count⟩

/-- **A stack is listed from its top**: every block is full of elements, or one block is enough. -/
theorem lfStackToList_lists (stack : Stack β) (positive : 0 < stack.elemSize)
    (width : stack.elemSize < sizeModulus) (some_in_block : 1 ≤ stack.elemQttInBlock)
    (aligned : stack.elemAlignment ∣ stack.elemSize)
    (blocks : 0 < sizeWrap (stack.elemQttInBlock * stack.elemSize)) (list : LFList β)
    (size : list.elemSize = stack.elemSize) (alignment : list.elemAlignment = stack.elemAlignment)
    (qtt : list.elemQttInBlock = stack.elemQttInBlock) (values : List (List β))
    (sized : ∀ v ∈ values, v.length = stack.elemSize)
    (whole : stack.elemSize ∣ sizeWrap (stack.elemQttInBlock * stack.elemSize) ∨
      values.length * stack.elemSize ≤ sizeWrap (stack.elemQttInBlock * stack.elemSize)) :
    ∃ start answers t fresh list', lfInitStack stack = some start ∧
      run stackStep (values.map .push) ⟨start, []⟩ = some (answers, t) ∧
      lfInitList list = some fresh ∧ lfStackToList t.stack fresh = some (t.stack, list') ∧
      list'.elemCount = values.length ∧
      (∃ t', run stackStep (List.replicate values.length .pop) t =
        some (values.reverse.map some, t')) ∧
      (∀ k (inRange : k < values.reverse.length), ∃ ptr moved,
        nthElem list' k = some (some ptr, moved) ∧
          moved.arena.heap.load ptr stack.elemSize = some values.reverse[k]) ∧
      (∀ bottom ∈ values.head?, ∃ ptr moved, lfGetLastListElem list' = some (some ptr, moved) ∧
        moved.arena.heap.load ptr stack.elemSize = some bottom) ∧
      (values = [] → lfGetFirstListElem list' = some (none, list')) := by
  have padded := paddedSize_of_dvd aligned positive width
  by_cases fits : stack.elemSize ≤ sizeWrap (stack.elemQttInBlock * stack.elemSize)
  case neg =>
    -- no element fits into a block, so there are none
    obtain rfl : values = [] := by
      by_contra some
      have one := Nat.le_mul_of_pos_left stack.elemSize (List.length_pos_iff.mpr some)
      exact fits (whole.elim (Nat.le_of_dvd blocks) (le_trans one))
    obtain ⟨start, fresh, list', init, initList, moved, -, count⟩ :=
      lfStackToList_nothing stack positive some_in_block padded blocks list size alignment qtt
    exact ⟨start, [], ⟨start, []⟩, fresh, list', init, rfl, initList, moved, count, ⟨_, rfl⟩,
      by simp, by simp, fun _ => by simp [lfGetFirstListElem, count]⟩
  obtain ⟨start, used, init, holds, blockSize, qttStart, sizeStart, alignmentStart, count⟩ :=
    Stack.Holds.init positive some_in_block padded fits
  obtain ⟨answers, t, used, runs, holds, count, atHead, same, keeps⟩ :=
    holds.pushes (t := ⟨start, []⟩) count (by simp) (by simpa [sizeStart] using sized)
  rw [List.map_nil, List.append_nil] at same
  have length : t.live.length = values.length := by
    simpa using congrArg List.length same
  obtain ⟨t', pops⟩ := holds.pops count
  have sizeT : t.stack.elemSize = stack.elemSize := keeps.size.trans sizeStart
  have blocksT : t.stack.arena.blockSize = sizeWrap (stack.elemQttInBlock * stack.elemSize) :=
    keeps.arena.blockSize.trans blockSize
  obtain ⟨⟨p, b⟩, rest, rfl⟩ := List.exists_cons_of_ne_nil holds.nonempty
  -- the head block is in use as soon as there is an element
  have inUse : values ≠ [] → b.leftOffset ≠ b.rightOffset := by
    intro some
    have someLive : t.live ≠ [] := fun none => some (by simpa [none] using same.symm)
    obtain ⟨e, live, split⟩ := List.exists_cons_of_ne_nil someLive
    rw [split] at holds atHead
    have headBlock : p = e.1.block := by simpa using atHead
    exact holds.head_nonempty headBlock.symm
  have oneOrWhole : rest = [] ∨ t.stack.elemSize ∣ t.stack.arena.blockSize := by
    rw [sizeT, blocksT]
    refine whole.symm.imp_left fun enough => holds.single (fun some => inUse fun none => ?_) ?_
    · exact some (List.length_eq_zero_iff.mp (by rw [length, none, List.length_nil]))
    · rw [length, sizeT, blocksT]
      exact enough
  obtain ⟨fresh, h, hb, initList, rep, blockSizeList, -, cursor, -, -, qttList, sizeList,
    alignmentList, paddedList, -⟩ := lfInitList_spec list (by omega) (by omega)
      (by rw [size, alignment]; exact padded)
      (by rw [qtt]; exact blocks)
  have paddedT : fresh.elemPaddedSize = t.stack.elemPaddedSize := by
    rw [paddedList, holds.padded, sizeT]
  obtain ⟨list', after, c, copies, elems, copied, lists, reads, head, sizeList', paddedList', -,
    -⟩ :=
    lfStackToList_spec holds count oneOrWhole rep cursor (by rw [sizeList, size, sizeT])
      (by rw [alignmentList, alignment, keeps.alignment, alignmentStart]) paddedT
      (by rw [qttList, qtt, keeps.qtt, qttStart]) (by rw [blockSizeList, blocksT, qtt])
  have widthList : list'.elemPaddedSize = stack.elemSize := paddedList'.trans paddedList
  -- what stands at an element of the list is the element of the stack in the same place
  have found : ∀ k (inLive : k < t.live.length) (inElems : k < elems.length) q,
      (list'.withCursor (some q)).arena.heap.load elems[k] stack.elemSize =
        some t.live[k].2 := by
    intro k inLive inElems q
    have sized : t.live[k].2.length = stack.elemSize :=
      (holds.sized _ (List.getElem_mem inLive)).trans sizeT
    rw [withCursor_heap, ← sized]
    exact lists.load (List.getElem_mem inElems) (reads.get inLive inElems)
      (by rw [sized, widthList])
  have lengths : elems.length = values.length := reads.length_eq.symm.trans length
  have nonempty : values ≠ [] → c.leftOffset ≠ c.rightOffset := by
    intro some
    rw [show c.leftOffset = _ from head.left, show c.rightOffset = _ from head.right]
    exact inUse some
  refine ⟨start, answers, t, fresh, list', init, runs, initList, copied, ?_, ⟨t', ?_⟩, ?_, ?_, ?_⟩
  · rw [lists.count, lengths]
  · rw [← length, pops, ← same, List.map_map]
    rfl
  · intro k inRange
    have inValues : k < values.length := by simpa using inRange
    obtain ⟨q, -, reached⟩ := lists.nth rfl (nonempty (List.ne_nil_of_length_pos (by omega)))
      (k := k) (by omega)
    refine ⟨_, _, reached, ?_⟩
    rw [found k (by omega) (by omega) q]
    simp [← same]
  · intro bottom member
    obtain ⟨others, rfl⟩ := List.head?_eq_some_iff.mp member
    have someElems : elems ≠ [] := List.ne_nil_of_length_pos (by simp [lengths])
    obtain ⟨earlier, q, d, splitDeck, nonempty'⟩ :=
      lists.last_nonempty rfl (nonempty (by simp))
    have splitLists := lists
    rw [← List.dropLast_append_getLast someElems] at splitLists
    refine ⟨_, _, splitLists.last splitDeck nonempty', ?_⟩
    rw [List.getLast_eq_getElem,
      found (elems.length - 1) (by simp [lengths, length]) (by simp [lengths]) q]
    have bottomOf : t.live.map Prod.snd = others.reverse ++ [bottom] := by rw [same]; simp
    have last : (t.live.map Prod.snd)[elems.length - 1]? = some bottom := by
      rw [bottomOf, lengths]
      simp
    rw [List.getElem?_map, List.getElem?_eq_getElem (by simp [lengths, length])] at last
    exact last
  · intro none
    have noElems : elems = [] := List.length_eq_zero_iff.mp (by simp [lengths, none])
    rw [noElems] at lists
    exact lists.nothing.1

/-- Three elements in two blocks. -/
theorem lfStackToList_lists_three :
    ∃ start answers t fresh list',
      lfInitStack (Stack.declared (Allocator.bump (0 : UInt8)) 2 2 1) = some start ∧
      run stackStep ([[1, 2], [3, 4], [5, 6]].map .push) ⟨start, []⟩ = some (answers, t) ∧
      lfInitList (LFList.declared (Allocator.bump (7 : UInt8)) 2 2 1) = some fresh ∧
      lfStackToList t.stack fresh = some (t.stack, list') ∧ list'.elemCount = 3 ∧
      (∃ t', run stackStep (List.replicate 3 .pop) t =
        some ([some [5, 6], some [3, 4], some [1, 2]], t')) ∧
      (∀ k (inRange : k < [[5, 6], [3, 4], [1, 2]].length), ∃ ptr moved,
        nthElem list' k = some (some ptr, moved) ∧
          moved.arena.heap.load ptr 2 = some [[5, 6], [3, 4], [1, 2]][k]) ∧
      (∀ bottom ∈ [[1, 2], [3, 4], [5, 6]].head?, ∃ ptr moved,
        lfGetLastListElem list' = some (some ptr, moved) ∧
          moved.arena.heap.load ptr 2 = some bottom) ∧
      ([[1, 2], [3, 4], [5, 6]] = ([] : List (List UInt8)) →
        lfGetFirstListElem list' = some (none, list')) :=
  lfStackToList_lists (Stack.declared (Allocator.bump 0) 2 2 1) (by decide) (by decide) (by decide)
    (by decide) (by decide) (LFList.declared (Allocator.bump 7) 2 2 1) rfl rfl rfl
    [[1, 2], [3, 4], [5, 6]] (by simp [Stack.declared]) (.inl (by decide))

/-- With so many elements in a block that the size of a block wraps around to
four bytes, the second of two elements of three bytes each is looked for where
its block starts, and not where it is. -/
theorem lfStackToList_block_size_wraps :
    (do
      let start ← lfInitStack (Stack.declared (Allocator.bump (0 : UInt8)) 12297829382473034412 3 1)
      let (_, t) ← run stackStep [.push [1, 2, 3], .push [4, 5, 6]] ⟨start, []⟩
      let fresh ← lfInitList (LFList.declared (Allocator.bump (0 : UInt8)) 12297829382473034412 3 1)
      let (_, list) ← lfStackToList t.stack fresh
      let (elem, list) ← nthElem list 1
      let (answers, _) ← run stackStep [.pop, .pop] t
      some (← list.arena.heap.load (← elem) 3, answers)) =
    some ([0, 1, 2], [some [4, 5, 6], some [1, 2, 3]]) := by
  decide +kernel

end LowFlow
