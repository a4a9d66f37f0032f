import LowFlow.Memory.ListLookups
import LowFlow.Memory.PaddedStack
import LowFlow.Memory.StackToList

/-!
# When a stack becomes a usable list

`lf_stack_to_list` overwrites the blocks a list has and hangs the missing ones
behind them. It sets the data, the offsets and the back link of a new block, but
neither its size nor the forward link of the last one, and it takes an empty head
block over as it is. So the list keeps its invariant exactly when it had as many
blocks as the stack and the stack's first element is in its head block
(`convertsWell_iff`).
-/

set_option autoImplicit false

namespace LowFlow

open Library

variable {β : Type}

/-! ## Usable lists -/

/-- The elements that a traversal passes, from the first one up to `NULL`, with so
many steps to the next element. -/
def traverse (fuel : ℕ) (list : LFList β) : Option (List Ptr) := do
  match ← lfGetFirstListElem list with
  | (none, _) => some []
  | (some first, list) => some (first :: (← elemsAfter fuel list first))

/-- What the list functions rely on, with the elements in the blocks' used ranges. -/
structure LFList.Usable (list : LFList β) (deck : Deck β) (elems : List Ptr) : Prop where
  /-- The blocks are a null-terminated, doubly linked chain. -/
  chain : Segment (blockView β) list.arena.heap.block none none list.arena.headBlock deck
  tail : list.arena.tailBlock = (ptrs deck).getLast?
  blocks : list.arena.blockCount = deck.length
  sized : ∀ entry ∈ deck, entry.2.size = list.arena.blockSize
  ordered : ∀ entry ∈ deck,
    entry.2.leftOffset ≤ entry.2.rightOffset ∧ entry.2.rightOffset ≤ entry.2.size
  tiles : TilesDeck deck (elems.map (cell list.elemPaddedSize))
  count : list.elemCount = elems.length
  /-- The head block has the first element. -/
  head : ∀ first ∈ elems.head?, list.arena.headBlock = some first.block
  /-- A traversal passes the elements and reaches `NULL` right after them. -/
  traversed : traverse list.elemCount list = some elems
  /-- A new element is the next one of the last one, and no other follows it. -/
  alloc : ∃ elem list', lfAllocListElem list = some (elem, list') ∧
    (∀ last ∈ elems.getLast?, ∃ list'', lfGetNextListElem list' last = some (some elem, list'')) ∧
    ∃ list'', lfGetNextListElem list' elem = some (none, list'')

/-- A list with another allocator behind it. -/
def LFList.withMalloc (list : LFList β) (malloc : Allocator β) : LFList β :=
  { list with arena := { list.arena with heap := { list.arena.heap with malloc } } }

/-- Whatever `malloc` returns, the list that the stack is moved to can be used. -/
def Stack.ConvertsWell (stack : Stack β) (list : LFList β) : Prop :=
  ∀ malloc : Allocator β, ∃ list' deck elems,
    lfStackToList stack (list.withMalloc malloc) = some (stack, list') ∧ list'.Usable deck elems

/-- The assertions on the geometry of the two. -/
structure SameGeometry (stack : Stack β) (list : LFList β) : Prop where
  size : list.elemSize = stack.elemSize
  alignment : list.elemAlignment = stack.elemAlignment
  padded : list.elemPaddedSize = stack.elemPaddedSize
  qtt : list.elemQttInBlock = stack.elemQttInBlock
  blockSize : list.arena.blockSize = stack.arena.blockSize

theorem sameGeometry_iff {stack : Stack β} {list : LFList β} :
    SameGeometry stack list ↔ list.elemSize = stack.elemSize ∧
      list.elemAlignment = stack.elemAlignment ∧ list.elemPaddedSize = stack.elemPaddedSize ∧
      list.elemQttInBlock = stack.elemQttInBlock ∧
      list.arena.blockSize = stack.arena.blockSize :=
  ⟨fun same => ⟨same.size, same.alignment, same.padded, same.qtt, same.blockSize⟩,
    fun ⟨size, alignment, padded, qtt, blockSize⟩ => ⟨size, alignment, padded, qtt, blockSize⟩⟩

instance (stack : Stack β) (list : LFList β) : Decidable (SameGeometry stack list) :=
  decidable_of_iff _ sameGeometry_iff.symm

theorem SameGeometry.withMalloc {stack : Stack β} {list : LFList β}
    (geometry : SameGeometry stack list) (malloc : Allocator β) :
    SameGeometry stack (list.withMalloc malloc) :=
  ⟨geometry.size, geometry.alignment, geometry.padded, geometry.qtt, geometry.blockSize⟩

/-- A list whose arena is one, with its cursor at one of its blocks. -/
def LFList.Intact (list : LFList β) : Prop :=
  ∃ deck, Represents list.arena deck ∧ ∃ p ∈ ptrs deck, list.arena.cursorBlock = some p

theorem Represents.withMalloc {list : LFList β} {deck : Deck β}
    (rep : Represents list.arena deck) (malloc : Allocator β) :
    Represents (list.withMalloc malloc).arena deck :=
  ⟨rep.chain, rep.distinct, rep.tail, rep.count, rep.nonempty, rep.positive, rep.sized, rep.extent,
    rep.known, rep.owned, rep.apart⟩

/-! ## What a conversion returns -/

/-- No block that is there changes its size. -/
def Heap.SameSizes (heap heap' : Heap β) : Prop :=
  ∀ p b', heap'.block p = some b' → ∃ b, heap.block p = some b ∧ b'.size = b.size

theorem Heap.SameSizes.refl (heap : Heap β) : heap.SameSizes heap :=
  fun _ b found => ⟨b, found, rfl⟩

theorem Heap.SameSizes.trans {one two three : Heap β} (first : one.SameSizes two)
    (second : two.SameSizes three) : one.SameSizes three := by
  intro p b'' found
  obtain ⟨b', found', same'⟩ := second p b'' found
  obtain ⟨b, found, same⟩ := first p b' found'
  exact ⟨b, found, same'.trans same⟩

theorem Heap.SameSizes.modify {heap heap' : Heap β} {p : BlockPtr} {f : MemBlock β → MemBlock β}
    (modified : heap.modify p f = some heap')
    (same : ∀ b, heap.block p = some b → (f b).size = b.size) : heap.SameSizes heap' := by
  obtain ⟨b, found, rfl⟩ := Option.map_eq_some_iff.mp modified
  intro q c found'
  by_cases here : q = p
  · subst here
    simp only [Function.update_self, Option.some.injEq] at found'
    exact ⟨b, found, found' ▸ same b found⟩
  · simp only [Function.update_of_ne here] at found'
    exact ⟨c, found', rfl⟩

theorem copyUsedRange_size {source target copy : MemBlock β}
    (copied : copyUsedRange source target = some copy) : copy.size = target.size := by
  simp only [copyUsedRange] at copied
  split at copied
  · cases copied
    rfl
  · cases copied

theorem linkBlock_sameSizes {heap heap' : Heap β} {last cur : BlockPtr}
    (linked : linkBlock heap last cur = some heap') : heap.SameSizes heap' := by
  obtain ⟨heap₁, first, second⟩ := Option.bind_eq_some_iff.mp linked
  exact (Heap.SameSizes.modify first fun _ _ => rfl).trans
    (Heap.SameSizes.modify second fun _ _ => rfl)

/-- The first loop changes no sizes. -/
theorem copyToOwnBlocks_sizes {stackHeap : Heap β} {n : ℕ} {s s' : CopyState β}
    (done : copyToOwnBlocks stackHeap n s = some s') : s.heap.SameSizes s'.heap := by
  induction n generalizing s with
  | zero =>
      cases done
      exact .refl _
  | succ n ih =>
      simp only [copyToOwnBlocks, Option.bind_eq_bind, Option.bind_eq_some_iff] at done
      obtain ⟨p, -, source, -, q, -, target, found, copy, copied, heap₁, written, done⟩ := done
      have first : s.heap.SameSizes heap₁ := by
        apply Heap.SameSizes.modify written
        intro b found'
        cases found.symm.trans found'
        exact copyUsedRange_size copied
      cases before : s.lastListBlock with
      | none =>
          simp only [before, Option.bind_some, Option.bind_eq_some_iff] at done
          obtain ⟨last, -, done⟩ := done
          exact first.trans (ih done)
      | some l =>
          simp only [before, Option.bind_eq_some_iff] at done
          obtain ⟨heap₂, linked, last, -, done⟩ := done
          exact (first.trans (linkBlock_sameSizes linked)).trans (ih done)

/-- Nor does the second loop, which ends at the last one of the new blocks. -/
theorem copyToNewBlocks_sizes {stackHeap : Heap β} {blockSize : ℕ} {data : Area β} {n q offset : ℕ}
    {s s' : CopyState β}
    (done : copyToNewBlocks stackHeap blockSize data n q offset s = some s') :
    s.heap.SameSizes s'.heap ∧
      s'.lastListBlock = if n = 0 then s.lastListBlock else some (q + n - 1) := by
  induction n generalizing q offset s with
  | zero =>
      cases done
      exact ⟨.refl _, rfl⟩
  | succ n ih =>
      simp only [copyToNewBlocks, Option.bind_eq_bind, Option.bind_eq_some_iff] at done
      obtain ⟨p, -, source, -, header, found, copy, copied, heap₁, written, last, -, heap₂, linked,
        done⟩ := done
      obtain ⟨onward, ends⟩ := ih done
      have first : s.heap.SameSizes heap₁ := by
        apply Heap.SameSizes.modify written
        intro b found'
        cases found.symm.trans found'
        have same := copyUsedRange_size copied
        exact same
      refine ⟨(first.trans (linkBlock_sameSizes linked)).trans onward, ?_⟩
      rw [ends, if_neg (Nat.succ_ne_zero n)]
      split
      · subst n
        rfl
      · rw [Nat.add_assoc, Nat.add_comm 1 n]

/-- A conversion that returns has copied to the blocks of the list and to new ones. -/
theorem lfStackToList_copied {stack stack' : Stack β} {list list' : LFList β}
    (done : lfStackToList stack list = some (stack', list')) :
    list.arena.blockCount ≤ stack.arena.blockCount ∧
      ∃ remainingBlocks remainingData heap own new,
        mallocRemaining list.arena.heap (stack.arena.blockCount - list.arena.blockCount)
          list.arena.blockSize = (remainingBlocks, remainingData, heap) ∧
        copyToOwnBlocks stack.arena.heap list.arena.blockCount
          { heap, curStackBlock := stack.arena.headBlock, curListBlock := list.arena.headBlock
            lastListBlock := none } = some own ∧
        copyToNewBlocks stack.arena.heap list.arena.blockSize remainingData
          (stack.arena.blockCount - list.arena.blockCount) remainingBlocks 0 own = some new ∧
        list' =
          { list with
            elemCount := stack.elemCount
            arena :=
              { list.arena with
                heap := new.heap
                blockCount := stack.arena.blockCount
                tailBlock := new.lastListBlock } } := by
  by_cases different : list.elemSize ≠ stack.elemSize ∨
      list.elemAlignment ≠ stack.elemAlignment ∨ list.elemPaddedSize ≠ stack.elemPaddedSize ∨
      list.elemQttInBlock ≠ stack.elemQttInBlock ∨ list.arena.blockSize ≠ stack.arena.blockSize
  · simp [lfStackToList, different] at done
  by_cases fewer : stack.arena.blockCount < list.arena.blockCount
  · simp [lfStackToList, different, fewer] at done
  simp only [lfStackToList, different, fewer, ↓reduceIte, Option.bind_eq_bind,
    Option.bind_eq_some_iff, Option.some.injEq, Prod.mk.injEq] at done
  obtain ⟨own, first, new, second, -, rfl⟩ := done
  exact ⟨Nat.not_lt.mp fewer, _, _, _, own, new, rfl, first, second, rfl⟩

/-- What a conversion that returns has done. The last block of a list that lacked
blocks is a new one, with the size that was in its header. -/
theorem lfStackToList_returns {stack stack' : Stack β} {list list' : LFList β}
    (done : lfStackToList stack list = some (stack', list')) :
    list.arena.blockCount ≤ stack.arena.blockCount ∧
      list'.arena.blockSize = list.arena.blockSize ∧ list'.elemPaddedSize = list.elemPaddedSize ∧
      list'.elemCount = stack.elemCount ∧
      (list.arena.blockCount < stack.arena.blockCount → ∃ p, list'.arena.tailBlock = some p ∧
        ∀ b, list'.arena.heap.block p = some b →
          b.size = (list.arena.heap.malloc.header p).size) := by
  obtain ⟨le, _, _, _, s₁, s₂, remaining, first, second, rfl⟩ := lfStackToList_copied done
  simp only [mallocRemaining, Prod.mk.injEq] at remaining
  obtain ⟨rfl, rfl, rfl⟩ := remaining
  refine ⟨le, rfl, rfl, rfl, ?_⟩
  intro missing
  obtain ⟨sizes, ends⟩ := copyToNewBlocks_sizes second
  rw [if_neg (by omega)] at ends
  refine ⟨_, ends, ?_⟩
  intro b found
  obtain ⟨b₁, found₁, same₁⟩ := sizes _ b found
  obtain ⟨b₀, found₀, same₀⟩ := copyToOwnBlocks_sizes first _ b₁ found₁
  rw [same₁, same₀]
  have some_missing : 1 ≤ stack.arena.blockCount - list.arena.blockCount := by omega
  have new : list.arena.heap.serial ≤ list.arena.heap.serial +
        (stack.arena.blockCount - list.arena.blockCount) - 1 ∧
      list.arena.heap.serial + (stack.arena.blockCount - list.arena.blockCount) - 1 <
        list.arena.heap.serial + (stack.arena.blockCount - list.arena.blockCount) := by
    omega
  simp only [some_missing, ↓reduceIte, Heap.mallocArea, Heap.mallocHeaders, new, and_self,
    Option.some.injEq] at found₀
  rw [← found₀]
  rfl

/-! ## Copying into the blocks of the list -/

/-- Writing what is there changes nothing. -/
theorem Heap.modify_same {heap : Heap β} {p : BlockPtr} {b : MemBlock β}
    {f : MemBlock β → MemBlock β} (found : heap.block p = some b) (same : f b = b) :
    heap.modify p f = some heap := by
  have unchanged : Function.update heap.block p (some b) = heap.block := by
    rw [← found, Function.update_eq_self]
  simp [Heap.modify, found, same, unchanged]

/-- Linking two blocks that are linked. -/
theorem Represents.linkBlock {arena : Arena β} {front back : Deck β} {last cur : BlockPtr}
    {b c : Slab β} (rep : Represents arena (front ++ (last, b) :: (cur, c) :: back)) :
    linkBlock arena.heap last cur = some arena.heap := by
  obtain ⟨-, -, -, node, found, -, -, start, next, foundNext, -, prev, -⟩ :=
    segment_append.mp rep.chain
  have there : arena.heap.modify last (fun b => { b with next := some cur }) = some arena.heap := by
    apply Heap.modify_same found
    rw [← show node.next = some cur from start]
  have back : arena.heap.modify cur (fun b => { b with prev := some last }) = some arena.heap := by
    apply Heap.modify_same foundNext
    rw [← show next.prev = some last from prev]
  simp only [LowFlow.linkBlock, there, back, Option.bind_eq_bind, Option.bind_some]

/-- Overwriting a block, with its links, its size and its area kept. -/
theorem Represents.replace {arena : Arena β} {front back : Deck β} {p : BlockPtr} {b : Slab β}
    {node node' : MemBlock β} (rep : Represents arena (front ++ (p, b) :: back))
    (found : arena.heap.block p = some node) (prev : node'.prev = node.prev)
    (next : node'.next = node.next) (size : node'.size = node.size)
    (place : node'.data.place = node.data.place) :
    ∃ heap, arena.heap.modify p (fun _ => node') = some heap ∧ heap.block p = some node' ∧
      Represents { arena with heap } (front ++ (p, node'.toSlab) :: back) := by
  have distinct := rep.distinct
  rw [ptrs, List.map_append, List.map_cons] at distinct
  have notFront : p ∉ ptrs front := fun member =>
    List.disjoint_of_nodup_append distinct member (by simp)
  have notBack : p ∉ ptrs back := (List.nodup_cons.mp distinct.of_append_right).1
  let g (c : Slab β) : Slab β :=
    { node'.toSlab with
      size := c.size
      data := { node'.data with base := c.data.base, extent := c.data.extent } }
  obtain ⟨heap, modified, rep', -⟩ := rep.modify (p := p) (by simp)
    (f := fun c => ⟨g c.toSlab, c.prev, c.next⟩) (g := g) (fun _ => rfl) (fun _ => rfl)
    (fun _ => rfl) (fun _ => rfl) (fun _ => rfl)
  have same : (⟨g node.toSlab, node.prev, node.next⟩ : MemBlock β) = node' := by
    have base : node'.data.base = node.data.base := congrArg Prod.fst place
    have extent : node'.data.extent = node.data.extent := congrArg Prod.snd place
    simp only [g]
    rw [← prev, ← next, ← size, ← base, ← extent]
  have carried : node.toSlab = b := by
    obtain ⟨other, found', carried⟩ := rep.lookup (p := p) (b := b) (by simp)
    cases found.symm.trans found'
    exact carried
  have written : arena.heap.modify p (fun _ => node') = some heap := by
    rw [← modified]
    simp [Heap.modify, found, same]
  refine ⟨heap, written, ?_, ?_⟩
  · obtain ⟨c, found', rfl⟩ := Option.map_eq_some_iff.mp written
    simp
  · rw [modify_append, modify_of_notMem g notFront, modify_cons p b back g notBack] at rep'
    rwa [← same, carried]

/-- **The first loop** copies block by block, and the chain stays as it is. -/
theorem copyToOwnBlocks_spec {stackHeap : Heap β} {after before cur : Option BlockPtr}
    {sources : Deck β} (chain : Segment (blockView β) stackHeap.block after before cur sources)
    {arena : Arena β} (ordered : ∀ entry ∈ sources, entry.2.leftOffset ≤ entry.2.rightOffset ∧
      entry.2.rightOffset ≤ entry.2.data.extent ∧ entry.2.rightOffset ≤ arena.blockSize)
    {done todo : Deck β} (rep : Represents arena (done ++ todo))
    (length : todo.length = sources.length) :
    ∃ s' copies, copyToOwnBlocks stackHeap sources.length
        ⟨arena.heap, cur, (ptrs todo).head?, (ptrs done).getLast?⟩ = some s' ∧
      Represents { arena with heap := s'.heap } (done ++ copies) ∧
      s'.lastListBlock = (ptrs (done ++ copies)).getLast? ∧
      List.Forall₂ Copied sources copies ∧ ptrs copies = ptrs todo := by
  induction sources generalizing before cur arena done todo with
  | nil =>
      obtain rfl := List.length_eq_zero_iff.mp length
      exact ⟨_, [], rfl, rep, by simp, .nil, rfl⟩
  | cons entry sources ih =>
      obtain ⟨p, b⟩ := entry
      obtain ⟨rfl, source, foundSource, carried, -, onward⟩ := chain
      cases (show source.toSlab = b from carried)
      obtain ⟨⟨low, inSource, inBlock⟩, ordered⟩ := List.forall_mem_cons.mp ordered
      obtain ⟨⟨q, t⟩, todo, rfl⟩ : ∃ entry rest, todo = entry :: rest :=
        List.exists_cons_of_length_eq_add_one length
      obtain ⟨target, found, rfl⟩ := rep.lookup (p := q) (b := t) (by simp)
      have extent : target.data.extent = arena.blockSize := rep.extent (q, target.toSlab) (by simp)
      obtain ⟨copy, copied, prev, next, place, same⟩ :=
        copyUsedRange_spec source target p q low inSource (extent ▸ inBlock)
      obtain ⟨heap, written, foundCopy, rep'⟩ :=
        rep.replace found prev next (copyUsedRange_size copied) place
      -- the block is already linked to the one before it
      have linked : (match (ptrs done).getLast? with
          | some last => linkBlock heap last q
          | none => some heap) = some heap := by
        rcases List.eq_nil_or_concat' done with rfl | ⟨front, ⟨last, lb⟩, rfl⟩
        · rfl
        · rw [List.append_assoc] at rep'
          simpa using rep'.linkBlock
      have nextBlock : copy.next = (ptrs todo).head? := by
        obtain ⟨-, -, -, node, found', -, -, onward⟩ := segment_append.mp rep'.chain
        cases foundCopy.symm.trans found'
        exact onward.first_eq.trans (by simp)
      rw [List.append_cons] at rep'
      obtain ⟨s', copies, ran, rep'', last, copiedRest, sameRest⟩ :=
        @ih _ _ onward { arena with heap } ordered _ _ rep' (by simpa using length)
      refine ⟨s', (q, copy.toSlab) :: copies, ?_, by simpa using rep'', by simpa using last,
        .cons same copiedRest, by simp [sameRest]⟩
      have ends : (ptrs (done ++ [(q, copy.toSlab)])).getLast? = some q := by simp
      rw [ends] at ran
      simp only [List.length_cons, copyToOwnBlocks, Option.bind_eq_bind, Option.bind_some,
        foundSource, List.map_cons, List.head?_cons, found, copied, written]
      cases before : (ptrs done).getLast? with
      | none =>
          simp only [foundCopy, nextBlock, Option.bind_some]
          exact ran
      | some last =>
          simp only [before] at linked
          simp only [linked, foundCopy, nextBlock, Option.bind_some]
          exact ran

/-- What the first loop copies is inside the blocks of the stack. -/
theorem copyToOwnBlocks_inside {stackHeap : Heap β} {after before cur : Option BlockPtr}
    {sources : Deck β} (chain : Segment (blockView β) stackHeap.block after before cur sources)
    (ordered : ∀ entry ∈ sources, entry.2.leftOffset ≤ entry.2.rightOffset) {s s' : CopyState β}
    (current : s.curStackBlock = cur)
    (done : copyToOwnBlocks stackHeap sources.length s = some s') :
    ∀ entry ∈ sources, entry.2.rightOffset ≤ entry.2.data.extent := by
  induction sources generalizing before cur s with
  | nil => simp
  | cons entry sources ih =>
      obtain ⟨p, b⟩ := entry
      obtain ⟨rfl, source, found, carried, -, onward⟩ := chain
      cases (show source.toSlab = b from carried)
      obtain ⟨low, ordered⟩ := List.forall_mem_cons.mp ordered
      simp only [List.length_cons, copyToOwnBlocks, current, Option.bind_eq_bind,
        Option.bind_some, found, Option.bind_eq_some_iff] at done
      obtain ⟨q, -, target, -, copy, copied, heap₁, -, done⟩ := done
      refine List.forall_mem_cons.mpr ⟨?_, ?_⟩
      · have inside : source.leftOffset + sizeSub source.rightOffset source.leftOffset ≤
            source.data.extent := by
          by_contra outside
          simp [copyUsedRange, outside] at copied
        rwa [sizeSub_of_le low, Nat.add_sub_cancel' low] at inside
      · cases before : s.lastListBlock with
        | none =>
            simp only [before, Option.bind_eq_some_iff] at done
            obtain ⟨last, -, done⟩ := done
            exact ih onward ordered rfl done
        | some l =>
            simp only [before, Option.bind_eq_some_iff] at done
            obtain ⟨heap₂, -, last, -, done⟩ := done
            exact ih onward ordered rfl done

/-! ## Stacks after pushes and pops -/

/-- A stack that was pushed to and popped from holds its elements, when the elements are
not padded and one fits in a block. -/
theorem Stack.Holds.of_run {declared start : Stack β} (init : lfInitStack declared = some start)
    (padded : start.elemPaddedSize = start.elemSize)
    (fits : start.elemSize ≤ start.arena.blockSize) {ops : List SlotOp}
    {answers : List (Option Ptr)} {stack : Stack β}
    (runs : run slotStep ops start = some (answers, stack)) :
    ∃ used live, stack.Holds used [] live ∧ stack.elemCount = live.length ∧
      stack.elemSize = start.elemSize := by
  obtain ⟨positive, some_in_block, width, pads, blocks⟩ := lfInitStack_accepts init
  obtain ⟨start', p, b, init', -, size, -, -, -, -, elem, -, padded', -⟩ :=
    lfInitStack_spec positive some_in_block pads blocks
  obtain rfl : start = start' := Option.some.inj (init.symm.trans init')
  obtain rfl : width = declared.elemSize := padded'.symm.trans (padded.trans elem)
  obtain ⟨start', used, init', holds, -, -, -, -, count⟩ :=
    Stack.Holds.init positive some_in_block pads (by rw [← size, ← elem]; exact fits)
  obtain rfl : start = start' := Option.some.inj (init.symm.trans init')
  refine run_invariant (fun s : Stack β => ∃ used live, s.Holds used [] live ∧
    s.elemCount = live.length ∧ s.elemSize = start.elemSize) ?_ ⟨used, [], holds, count, rfl⟩ runs
  rintro op s answer s' ⟨used, live, holds, count, same⟩ taken
  cases op with
  | allocStackElem =>
      obtain ⟨ptr, next, used', old, alloc, holds', keeps, more, -⟩ := holds.alloc
      simp only [slotStep, alloc, Option.bind_eq_bind, Option.bind_some, Option.some.injEq,
        Prod.mk.injEq] at taken
      obtain ⟨-, rfl⟩ := taken
      exact ⟨used', _, holds', by rw [more, count, List.length_cons], keeps.size.trans same⟩
  | popFromStack =>
      cases live with
      | nil =>
          rw [slotStep, lfPopFromStack_empty count] at taken
          obtain ⟨-, rfl⟩ := Prod.mk.inj (Option.some.inj taken)
          exact ⟨used, [], holds, count, same⟩
      | cons top live =>
          rw [List.length_cons] at count
          obtain ⟨next, used', popped, holds', keeps, less, -⟩ := holds.pop (by omega)
          obtain ⟨-, rfl⟩ := Prod.mk.inj (Option.some.inj (taken.symm.trans popped))
          exact ⟨used', live, holds', by rw [less, count, Nat.add_sub_cancel],
            keeps.size.trans same⟩

/-! ## The list that a stack becomes -/

/-- With as many blocks in the list as in the stack, the used ranges of the stack are
copied to the list's own blocks. -/
theorem Represents.converts {stack : Stack β} {used own : Deck β}
    (repStack : Represents stack.arena used)
    (inside : ∀ entry ∈ used, entry.2.leftOffset ≤ entry.2.rightOffset ∧
      entry.2.rightOffset ≤ stack.arena.blockSize) {list : LFList β}
    (geometry : SameGeometry stack list) (rep : Represents list.arena own)
    (blocks : list.arena.blockCount = stack.arena.blockCount) :
    ∃ list' copies, lfStackToList stack list = some (stack, list') ∧
      Represents list'.arena copies ∧ List.Forall₂ Copied used copies ∧ ptrs copies = ptrs own ∧
      list'.elemCount = stack.elemCount ∧ list'.elemPaddedSize = list.elemPaddedSize ∧
      list'.arena.cursorBlock = list.arena.cursorBlock := by
  have ordered : ∀ entry ∈ used, entry.2.leftOffset ≤ entry.2.rightOffset ∧
      entry.2.rightOffset ≤ entry.2.data.extent ∧
      entry.2.rightOffset ≤ list.arena.blockSize := by
    intro entry member
    obtain ⟨low, high⟩ := inside entry member
    rw [repStack.extent entry member, geometry.blockSize]
    exact ⟨low, high, high⟩
  obtain ⟨s', copies, ran, rep', last, copied, same⟩ :=
    @copyToOwnBlocks_spec _ _ _ _ _ _ repStack.chain _ ordered [] own rep
      (by rw [← rep.count, blocks, repStack.count])
  have start := rep.chain.first_eq
  rw [Option.or_none] at start
  rw [← repStack.count, ← start] at ran
  have done : lfStackToList stack list = some (stack,
      { list with
        elemCount := stack.elemCount
        arena :=
          { list.arena with
            heap := s'.heap
            blockCount := stack.arena.blockCount
            tailBlock := s'.lastListBlock } }) := by
    simp only [lfStackToList, geometry.size, geometry.alignment, geometry.padded, geometry.qtt,
      geometry.blockSize, blocks, ne_eq, not_true_eq_false, or_self, ↓reduceIte, Nat.lt_irrefl,
      Nat.sub_self, mallocRemaining, copyToNewBlocks, Option.bind_eq_bind]
    rw [if_neg (show ¬ 1 ≤ 0 by decide)]
    exact congrArg (Option.bind · _) ran
  refine ⟨_, copies, done, ?_, copied, same, rfl, rfl, rfl⟩
  have tail : s'.lastListBlock = list.arena.tailBlock := by
    rw [last, List.nil_append, same, rep.tail]
  rw [List.nil_append] at rep'
  rw [tail, ← blocks]
  exact rep'

/-- A conversion between as many blocks reads no block of the stack behind its end. -/
theorem lfStackToList_inside {stack stack' : Stack β} {list list' : LFList β} {used : Deck β}
    (rep : Represents stack.arena used)
    (ordered : ∀ entry ∈ used, entry.2.leftOffset ≤ entry.2.rightOffset)
    (blocks : list.arena.blockCount = stack.arena.blockCount)
    (done : lfStackToList stack list = some (stack', list')) :
    ∀ entry ∈ used, entry.2.rightOffset ≤ stack.arena.blockSize := by
  obtain ⟨-, _, _, _, own, -, -, first, -, -⟩ := lfStackToList_copied done
  rw [blocks, rep.count] at first
  intro entry member
  rw [← rep.extent entry member]
  exact copyToOwnBlocks_inside rep.chain ordered rfl first entry member

/-- The list gets the elements that the stack holds. -/
theorem Stack.Holds.converts {stack : Stack β} {used own : Deck β} {live : List (Element β)}
    (holds : stack.Holds used [] live) (count : stack.elemCount = live.length) {list : LFList β}
    (geometry : SameGeometry stack list) (rep : Represents list.arena own)
    (blocks : list.arena.blockCount = stack.arena.blockCount) :
    ∃ list' copies, ∃ elems : List Ptr, lfStackToList stack list = some (stack, list') ∧
      Represents list'.arena copies ∧ List.Forall₂ Copied used copies ∧ ptrs copies = ptrs own ∧
      TilesDeck copies (elems.map (cell stack.elemSize)) ∧ list'.elemCount = elems.length ∧
      list'.elemPaddedSize = list.elemPaddedSize ∧
      list'.arena.cursorBlock = list.arena.cursorBlock := by
  have repStack : Represents stack.arena used := by simpa using holds.rep
  obtain ⟨list', copies, done, rep', copied, same, count', padded, cursor⟩ :=
    repStack.converts (fun entry member => ⟨(holds.ranges entry member).1,
      (holds.ranges entry member).2.2⟩) geometry rep blocks
  obtain ⟨elems, tiles, reads⟩ := copied_tiles copied holds.sized holds.bytes holds.tiles
  exact ⟨list', copies, elems, done, rep', copied, same, tiles,
    count'.trans (count.trans reads.length_eq), padded, cursor⟩

/-- A filled list whose first element is in its head block can be used. -/
theorem ListInUse.Filled.usable {t : ListInUse β} {deck : Deck β} (filled : t.Filled deck)
    (head : ∀ first ∈ t.elems.head?, ∀ entry ∈ deck.head?,
      entry.2.leftOffset ≠ entry.2.rightOffset)
    (fits : t.list.elemPaddedSize ≤ t.list.arena.blockSize)
    (small : t.list.elemPaddedSize < sizeModulus) : t.list.Usable deck t.elems where
  chain := filled.rep.chain
  tail := filled.rep.tail
  blocks := filled.rep.count
  sized := filled.rep.sized
  ordered := by
    intro entry member
    have bounded := filled.lists.bounded entry member
    rw [filled.rep.extent entry member, ← filled.rep.sized entry member] at bounded
    exact ⟨filled.lists.tiles.left_le member, bounded⟩
  tiles := filled.lists.tiles
  count := filled.lists.count
  head := by
    intro first member
    obtain ⟨⟨p, b⟩, rest, rfl⟩ := List.exists_cons_of_ne_nil filled.rep.nonempty
    obtain ⟨elems, split⟩ := List.head?_eq_some_iff.mp member
    have tiles := filled.lists.tiles
    rw [split, List.map_cons] at tiles
    have start := (tiles.takeFirst (head first member _ rfl)).1
    rw [filled.rep.head_eq, show first = ⟨p, b.leftOffset⟩ from start]
  traversed := by
    obtain ⟨⟨p, b⟩, rest, rfl⟩ := List.exists_cons_of_ne_nil filled.rep.nonempty
    have lists := filled.lists
    cases same : t.elems with
    | nil =>
        rw [same] at lists
        simp [traverse, lists.nothing.1]
    | cons first elems =>
        have nonempty := head first (by simp [same]) _ rfl
        have inRange : 0 < t.elems.length := by simp [same]
        have onward :=
          lists.elemsAfter_eq (p := p) (by simp) inRange (Nat.le_of_eq lists.count.symm)
        rw [same] at lists
        simp only [same, List.getElem_cons_zero, Nat.zero_add, List.drop_succ_cons,
          List.drop_zero] at onward
        simp [traverse, lists.first rfl nonempty, onward]
  alloc := by
    obtain ⟨elem, arena, -, alloc, -⟩ := filled.rep.allocAtTail filled.lists.positive fits
    let list' : LFList β := { t.list with arena, elemCount := t.list.elemCount + 1 }
    have allocated : lfAllocListElem t.list = some (elem, list') := by
      simp [lfAllocListElem, lfAllocListElems, sizeWrap_of_lt small, alloc, list']
    have called : allocCall .allocListElem t = some (elem, ⟨list', t.elems ++ [elem]⟩) := by
      simp [allocCall, allocated]
    obtain ⟨deck', grows⟩ := allocCall_grows filled.rep called
    have longer := (filled.alloc grows (by simpa [AllocCall.qtt] using small)).lists
    refine ⟨elem, list', allocated, ?_, ?_⟩
    · intro last member
      obtain ⟨front, split⟩ := List.getLast?_eq_some_iff.mp member
      rw [show t.elems = _ from split, List.append_assoc] at longer
      obtain ⟨p, -, next⟩ := longer.next
      exact ⟨_, next⟩
    · obtain ⟨p, -, next⟩ := longer.next_last
      exact ⟨_, next⟩

/-- Going on inside the block of the cursor, and from its last element to the start
of the data of the next block. -/
theorem getNext_in_block {list : LFList β} {p q : BlockPtr} {node next : MemBlock β}
    (found : list.arena.heap.block p = some node) (link : node.next = some q)
    (foundNext : list.arena.heap.block q = some next) (positive : 0 < list.elemPaddedSize)
    (counted : 0 < list.arena.blockCount) {offset : ℕ} (low : node.leftOffset ≤ offset)
    (high : offset + list.elemPaddedSize ≤ node.rightOffset) :
    lfGetNextListElem (list.withCursor (some p)) ⟨p, offset⟩ =
      if offset + list.elemPaddedSize = node.rightOffset then
        some (some ⟨q, 0⟩, list.withCursor (some q))
      else some (some ⟨p, (offset + list.elemPaddedSize : ℕ)⟩, list.withCursor (some p)) := by
  have inCursor : (node.data.base + node.leftOffset : ℤ) ≤ node.data.base + offset ∧
      (node.data.base + offset : ℤ) < node.data.base + node.rightOffset := by omega
  have spans : node.Spans list.elemPaddedSize (node.data.base + offset) := by
    constructor <;> omega
  have placed : (list.withCursor (some p)).arena.heap.address ⟨p, offset⟩ =
      some (node.data.base + offset : ℤ) := by
    simp [Heap.address, found]
  have started : startBlock (list.withCursor (some p)) (node.data.base + offset) =
      some (some p) := by
    simp [startBlock, LFList.withCursor, found, inCursor]
  rw [lfGetNextListElem_of_find placed started (findBlock_here found spans counted) found]
  simp only [withCursor_heap, withCursor_elemPaddedSize, link, foundNext, Option.bind_some]
  by_cases last : offset + list.elemPaddedSize = node.rightOffset
  · rw [if_neg (by omega), if_pos last]
    rfl
  · rw [if_pos (by omega), if_neg last]
    rfl

/-- The first step of a walk. -/
theorem elemsAfter_step {fuel : ℕ} {list list' : LFList β} {e e' : Ptr} {others : List Ptr}
    (walked : elemsAfter fuel list e = some others)
    (next : lfGetNextListElem list e = some (some e', list')) :
    ∃ fuel' rest, elemsAfter fuel' list' e' = some rest ∧ others = e' :: rest := by
  cases fuel with
  | zero => cases walked
  | succ fuel =>
      simp only [elemsAfter, next, Option.bind_eq_bind, Option.bind_some, Option.bind_eq_some_iff,
        Option.some.injEq] at walked
      obtain ⟨rest, onward, rfl⟩ := walked
      exact ⟨fuel, rest, onward, rfl⟩

/-- A traversal goes from the last element of a block to the start of the data of the
next block. -/
theorem elemsAfter_block {list : LFList β} {p q : BlockPtr} {node next : MemBlock β}
    (found : list.arena.heap.block p = some node) (link : node.next = some q)
    (foundNext : list.arena.heap.block q = some next) (positive : 0 < list.elemPaddedSize)
    (counted : 0 < list.arena.blockCount) {lo : ℕ} (low : node.leftOffset ≤ lo) {e : Ptr}
    {elems : List Ptr}
    (tiles : Tiles p lo ((e :: elems).map (cell list.elemPaddedSize)) node.rightOffset) {fuel : ℕ}
    {others : List Ptr}
    (walked : elemsAfter fuel (list.withCursor (some p)) e = some others) :
    ∃ rest, others = elems ++ ⟨q, 0⟩ :: rest := by
  induction elems generalizing lo e fuel others with
  | nil =>
      obtain ⟨start, -, full⟩ := tiles
      obtain rfl : e = ⟨p, lo⟩ := start
      replace full : lo + list.elemPaddedSize = node.rightOffset := full
      have step := getNext_in_block found link foundNext positive counted low (Nat.le_of_eq full)
      rw [if_pos full] at step
      obtain ⟨-, rest, -, rfl⟩ := elemsAfter_step walked step
      exact ⟨rest, rfl⟩
  | cons e' elems ih =>
      obtain ⟨start, -, onward⟩ := tiles
      obtain rfl : e = ⟨p, lo⟩ := start
      obtain ⟨start', positive', beyond⟩ := id onward
      obtain rfl : e' = ⟨p, (lo + list.elemPaddedSize : ℕ)⟩ := start'
      have room : lo + list.elemPaddedSize + list.elemPaddedSize ≤ node.rightOffset := beyond.le
      have step := getNext_in_block found link foundNext positive counted low (by omega)
      rw [if_neg (by omega)] at step
      obtain ⟨fuel', later, walked', rfl⟩ := elemsAfter_step walked step
      obtain ⟨rest, rfl⟩ := ih (by omega) onward walked'
      exact ⟨rest, rfl⟩

namespace LFList.Usable

variable {list : LFList β} {deck : Deck β} {elems : List Ptr}

/-- An element fits in a block. -/
theorem fits (usable : list.Usable deck elems) (small : list.elemPaddedSize < sizeModulus) :
    list.elemPaddedSize ≤ list.arena.blockSize := by
  obtain ⟨elem, list', alloc, -⟩ := usable.alloc
  by_contra large
  simp [lfAllocListElem, lfAllocListElems, lfArenaAllocAtTail, sizeWrap_of_lt small,
    not_le.mp large]
    at alloc

/-- The block at the tail has the arena's block size. -/
theorem tail_size (usable : list.Usable deck elems) {p : BlockPtr}
    (tail : list.arena.tailBlock = some p) :
    ∃ b, list.arena.heap.block p = some b ∧ b.size = list.arena.blockSize := by
  have member : p ∈ ptrs deck := List.mem_of_getLast? (usable.tail.symm.trans tail)
  obtain ⟨⟨q, c⟩, inDeck, rfl⟩ := List.mem_map.mp member
  obtain ⟨node, found, rfl⟩ := usable.chain.lookup inDeck
  exact ⟨node, found, usable.sized _ inDeck⟩

/-- The head block of a list with elements is in use. -/
theorem head_nonempty {p : BlockPtr} {b : Slab β} {rest : Deck β}
    (usable : list.Usable ((p, b) :: rest) elems) (missing : p ∉ ptrs rest)
    (counted : list.elemCount ≠ 0) : b.leftOffset ≠ b.rightOffset := by
  have tiles := usable.tiles
  have count := usable.count
  cases elems with
  | nil => exact absurd count counted
  | cons first others =>
      have atHead : list.arena.headBlock = some first.block := usable.head first rfl
      obtain ⟨start, -⟩ := usable.chain
      exact tiles.first_nonempty missing (Option.some.inj (atHead.symm.trans start))

/-- The block behind the head block starts with an element. -/
theorem left_zero {p q : BlockPtr} {b c : Slab β} {rest : Deck β}
    (usable : list.Usable ((p, b) :: (q, c) :: rest) elems) (positive : 0 < list.elemPaddedSize)
    (nonempty : b.leftOffset ≠ b.rightOffset) (nonempty' : c.leftOffset ≠ c.rightOffset) :
    c.leftOffset = 0 := by
  obtain ⟨start, node, found, carried, -, link, next, foundNext, -⟩ := usable.chain
  cases (show node.toSlab = b from carried)
  obtain ⟨here, there, split, first, onward⟩ := usable.tiles
  obtain ⟨inHere, inThere, rfl, rfl, rfl⟩ := List.map_eq_append_iff.mp split
  cases inHere with
  | nil => exact absurd first nonempty
  | cons e inHere =>
      cases inThere with
      | nil =>
          obtain ⟨beside, behind, nothing, empty, -⟩ := onward
          obtain ⟨rfl, -⟩ := List.append_eq_nil_iff.mp nothing.symm
          exact absurd empty nonempty'
      | cons e' inThere =>
          have second : e' = ⟨q, c.leftOffset⟩ := (onward.takeFirst nonempty').1
          have counted : list.elemCount ≠ 0 := by simp [usable.count]
          have head : lfGetFirstListElem list =
              some (some ⟨p, node.leftOffset⟩, list.withCursor (some p)) := by
            simp [lfGetFirstListElem, counted, start, found]
          have walked := usable.traversed
          simp only [traverse, head, Option.bind_eq_bind, Option.bind_some, Option.bind_eq_some_iff,
            Option.some.injEq] at walked
          obtain ⟨others, walked, same⟩ := walked
          obtain ⟨rfl, rfl⟩ := List.cons.inj same
          obtain ⟨rest, later⟩ := elemsAfter_block found link foundNext positive
            (by simp [usable.blocks]) le_rfl first walked
          have reached : e' = ⟨q, 0⟩ := (List.cons.inj (List.append_cancel_left later)).1
          rw [second] at reached
          simpa using reached

end LFList.Usable

/-- The head block of a stack has its top element. -/
def Stack.HeadInUse (stack : Stack β) : Prop :=
  ∃ b, stack.arena.headBlock.bind stack.arena.heap.block = some b ∧ lfIsBlockEmpty b = false

theorem Represents.headInUse_iff {stack : Stack β} {p : BlockPtr} {b : Slab β} {rest : Deck β}
    (rep : Represents stack.arena ((p, b) :: rest)) :
    stack.HeadInUse ↔ b.leftOffset ≠ b.rightOffset := by
  obtain ⟨node, found, rfl⟩ := rep.lookup (List.mem_cons_self ..)
  simp [Stack.HeadInUse, rep.head_eq, found, lfIsBlockEmpty]

/-- A list that lacks blocks gets some whose sizes are what `malloc` left there. -/
theorem Stack.ConvertsWell.blocks_eq {stack : Stack β} {list : LFList β}
    (converts : stack.ConvertsWell list) (positive : 0 < list.arena.blockSize) :
    list.arena.blockCount = stack.arena.blockCount := by
  let zeroed : Allocator β :=
    { list.arena.heap.malloc with
      header := fun p => { list.arena.heap.malloc.header p with size := 0 } }
  obtain ⟨list', deck, elems, done, usable⟩ := converts zeroed
  obtain ⟨le, blockSize, -, -, missing⟩ := lfStackToList_returns done
  by_contra different
  obtain ⟨p, tail, size⟩ := missing (Nat.lt_of_le_of_ne le different)
  obtain ⟨b, found, sized⟩ := usable.tail_size tail
  have zero : b.size = 0 := size b found
  rw [← show list'.arena.blockSize = list.arena.blockSize from blockSize, ← sized, zero] at positive
  exact absurd positive (Nat.lt_irrefl 0)

namespace Stack.Holds

variable {stack : Stack β} {used own : Deck β} {live : List (Element β)} {list : LFList β}

/-- The copied elements fill a list when its blocks have no slack. -/
theorem fills (holds : stack.Holds used [] live)
    (whole : stack.elemSize ∣ stack.arena.blockSize ∨ stack.arena.blockCount = 1)
    {list : LFList β} {copies : Deck β} {elems : List Ptr} (rep : Represents list.arena copies)
    (copied : List.Forall₂ Copied used copies)
    (tiles : TilesDeck copies (elems.map (cell stack.elemSize)))
    (count : list.elemCount = elems.length) (padded : list.elemPaddedSize = stack.elemSize)
    (blockSize : list.arena.blockSize = stack.arena.blockSize)
    (cursor : ∃ p ∈ ptrs copies, list.arena.cursorBlock = some p) :
    (⟨list, elems⟩ : ListInUse β).Filled copies := by
  refine ⟨rep, ?_⟩
  exact {
    chain := rep.chain
    distinct := rep.distinct
    tail := rep.tail
    blocks := rep.count
    cursor := cursor
    count := count
    positive := padded ▸ holds.positive
    bounded := by
      intro entry member
      obtain ⟨source, inUse, same⟩ := copied_source copied member
      rw [rep.extent entry member, same.right, holds.right source (by simpa using inUse), blockSize]
    apart := rep.apart
    later := by
      intro entry member
      cases copied with
      | nil => cases member
      | cons here onward =>
          obtain ⟨source, inUse, same⟩ := copied_source onward member
          have positive := rep.positive
          rcases whole with whole | single
          · obtain ⟨left, right⟩ := holds.filled_behind whole inUse
            exact ⟨same.left.trans left, by rw [same.right, right, ← blockSize]; exact positive⟩
          · have only := holds.rep.count
            have some_behind := List.length_pos_of_mem inUse
            simp only [List.append_nil, List.length_cons] at only
            omega
    tiles := padded ▸ tiles }

/-- Between a stack and a list of as many blocks. -/
theorem usable_iff (holds : stack.Holds used [] live) (count : stack.elemCount = live.length)
    (small : stack.elemSize < sizeModulus) (geometry : SameGeometry stack list)
    (rep : Represents list.arena own) (cursor : ∃ p ∈ ptrs own, list.arena.cursorBlock = some p)
    (blocks : list.arena.blockCount = stack.arena.blockCount) :
    (∃ list' deck elems, lfStackToList stack list = some (stack, list') ∧ list'.Usable deck elems) ↔
      (stack.elemCount = 0 ∨ stack.HeadInUse) ∧
        (stack.elemSize ∣ stack.arena.blockSize ∨ stack.arena.blockCount = 1) := by
  have repStack : Represents stack.arena used := by simpa using holds.rep
  obtain ⟨list', copies, elems, done, rep', copied, same, tiles, count', padded', cursor'⟩ :=
    holds.converts count geometry rep blocks
  obtain ⟨-, blockSize', -, elemCount', -⟩ := lfStackToList_returns done
  have padded : list'.elemPaddedSize = stack.elemSize := by
    rw [padded', geometry.padded, holds.padded]
  cases copied with
  | nil => exact absurd rfl holds.nonempty
  | @cons source copy rest restCopies here onward =>
      obtain ⟨p, b⟩ := source
      obtain ⟨q, c⟩ := copy
      have left : c.leftOffset = b.leftOffset := here.left
      have right : c.rightOffset = b.rightOffset := here.right
      rw [repStack.headInUse_iff, ← left, ← right]
      constructor
      · rintro ⟨list'', deck, elems', done', usable⟩
        obtain ⟨-, rfl⟩ := Prod.mk.inj (Option.some.inj (done.symm.trans done'))
        obtain rfl : (q, c) :: restCopies = deck := rep'.chain.nodes_eq usable.chain
        have missing := (List.nodup_cons.mp rep'.distinct).1
        have head : stack.elemCount ≠ 0 → c.leftOffset ≠ c.rightOffset := by
          intro counted
          exact usable.head_nonempty missing (elemCount' ▸ counted)
        refine ⟨or_iff_not_imp_left.mpr head, ?_⟩
        cases onward with
        | nil => exact .inr repStack.count
        | @cons source' copy' rest restCopies here' onward =>
            -- the block behind the head block is full, and starts with an element
            obtain ⟨p', b'⟩ := source'
            obtain ⟨q', c'⟩ := copy'
            have left' : c'.leftOffset = b'.leftOffset := here'.left
            have right' : c'.rightOffset = b'.rightOffset := here'.right
            have nonempty : b'.leftOffset ≠ b'.rightOffset := holds.next_nonempty
            obtain ⟨first, behind, split, -, tilesBehind⟩ := holds.tiles
            obtain ⟨second, others, rfl, tilesSecond, -⟩ := tilesBehind
            have counted : stack.elemCount ≠ 0 := by
              intro zero
              obtain rfl := List.length_eq_zero_iff.mp (count.symm.trans zero)
              obtain ⟨-, rfl, -⟩ : first = [] ∧ second = [] ∧ others = [] := by
                simpa using split.symm
              exact nonempty tilesSecond
            have zero : c'.leftOffset = 0 := usable.left_zero (padded ▸ holds.positive)
              (head counted) (by rwa [left', right'])
            have same : ∀ r ∈ second, r.size = stack.elemSize := by
              intro r member
              obtain ⟨e, inLive, rfl⟩ :=
                List.mem_map.mp (split ▸ show r ∈ first ++ (second ++ others) by
                simp [member])
              exact holds.sized e inLive
            have full : b'.rightOffset = stack.arena.blockSize := holds.right (p', b') (by simp)
            refine .inl ⟨second.length, ?_⟩
            rw [← full, tilesSecond.length_eq same, ← left', zero, Nat.zero_add]
      · rintro ⟨head, whole⟩
        have filled := holds.fills whole rep' (.cons here onward) tiles count' padded
          (blockSize'.trans geometry.blockSize) (by rw [same, cursor']; exact cursor)
        refine ⟨list', _, elems, done, filled.usable ?_ ?_ (padded ▸ small)⟩
        · intro first member entry atHead
          cases atHead
          apply head.resolve_left
          rw [← elemCount', count']
          rintro none
          rw [List.length_eq_zero_iff.mp none] at member
          cases member
        · rw [padded, show list'.arena.blockSize = list.arena.blockSize from blockSize',
            geometry.blockSize]
          exact holds.fits

end Stack.Holds

/-- As many bytes are copied as were live. -/
theorem liveBytes_of_copied {deck copies : Deck β} (copied : List.Forall₂ Copied deck copies) :
    copies.liveBytes = deck.liveBytes := by
  induction copied with
  | nil => rfl
  | cons here onward ih => rw [liveBytes_cons, liveBytes_cons, ih, here.left, here.right]

/-- A stack whose used ranges do not hold the counted elements becomes no list. -/
theorem Stack.Misfits.not_convertsWell {stack : Stack β} {deck own : Deck β}
    (misfits : stack.Misfits deck) {list : LFList β} (geometry : SameGeometry stack list)
    (rep : Represents list.arena own) : ¬ stack.ConvertsWell list := by
  intro converts
  have blocks := converts.blocks_eq rep.positive
  obtain ⟨list', own', elems, done, usable⟩ := converts list.arena.heap.malloc
  have inside := lfStackToList_inside misfits.rep misfits.ordered blocks done
  obtain ⟨list'', copies, done', rep', copied, -, count, padded, -⟩ :=
    misfits.rep.converts (fun entry member => ⟨misfits.ordered entry member, inside entry member⟩)
      (geometry.withMalloc list.arena.heap.malloc) (rep.withMalloc _) blocks
  obtain ⟨-, rfl⟩ := Prod.mk.inj (Option.some.inj (done.symm.trans done'))
  obtain rfl : copies = own' := rep'.chain.nodes_eq usable.chain
  have cells : ∀ r ∈ elems.map (cell list'.elemPaddedSize), r.size = list'.elemPaddedSize := by
    simp [cell]
  have whole := usable.tiles.liveBytes_eq cells
  rw [liveBytes_of_copied copied, List.length_map, ← usable.count, count, padded,
    show (list.withMalloc list.arena.heap.malloc).elemPaddedSize = _ from geometry.padded] at whole
  rcases misfits.uneven with ⟨-, more⟩ | ⟨-, lacks⟩
  · omega
  · have less := lacks.liveBytes_lt inside
    omega

/-- A new stack of one empty block becomes a usable list of one block that an element fits in. -/
theorem convertsWell_of_new {stack : Stack β} {p : BlockPtr} {b : Slab β}
    (rep : Represents stack.arena [(p, b)]) (left : b.leftOffset = stack.arena.blockSize)
    (right : b.rightOffset = stack.arena.blockSize) (count : stack.elemCount = 0)
    (small : stack.elemPaddedSize < sizeModulus) (positive : 0 < stack.elemPaddedSize)
    {list : LFList β} {own : Deck β} (repList : Represents list.arena own)
    (cursor : ∃ p ∈ ptrs own, list.arena.cursorBlock = some p)
    (geometry : SameGeometry stack list) :
    stack.ConvertsWell list ↔ list.arena.blockCount = stack.arena.blockCount ∧
      stack.elemPaddedSize ≤ stack.arena.blockSize := by
  constructor
  · intro converts
    obtain ⟨list', deck, elems, done, usable⟩ := converts list.arena.heap.malloc
    obtain ⟨-, blockSize, padded, -⟩ := lfStackToList_returns done
    have same : list'.elemPaddedSize = stack.elemPaddedSize := padded.trans geometry.padded
    have fits := usable.fits (by omega)
    rw [same, blockSize] at fits
    exact ⟨converts.blocks_eq repList.positive, le_of_le_of_eq fits geometry.blockSize⟩
  · rintro ⟨blocks, fits⟩ malloc
    obtain ⟨list', copies, done, rep', copied, same, count', padded, cursor'⟩ :=
      rep.converts (by simp [left, right]) (geometry.withMalloc malloc)
        (repList.withMalloc malloc) blocks
    obtain ⟨-, blockSize, -⟩ := lfStackToList_returns done
    have width : list'.elemPaddedSize = stack.elemPaddedSize := padded.trans geometry.padded
    have bound : list'.arena.blockSize = stack.arena.blockSize :=
      blockSize.trans geometry.blockSize
    obtain ⟨copy, rfl⟩ : ∃ copy, copies = [copy] :=
      List.length_eq_one_iff.mp copied.length_eq.symm
    obtain ⟨here, -⟩ := List.forall₂_cons.mp copied
    have filled : (⟨list', []⟩ : ListInUse β).Filled [copy] := by
      refine ⟨rep', ?_⟩
      exact {
        chain := rep'.chain
        distinct := rep'.distinct
        tail := rep'.tail
        blocks := rep'.count
        cursor := by rw [same, cursor']; exact cursor
        count := count'.trans count
        positive := width ▸ positive
        bounded := by
          rw [List.forall_mem_singleton, here.right, rep'.extent _ (List.mem_singleton_self _),
            bound]
          exact Nat.le_of_eq right
        apart := rep'.apart
        later := by simp
        tiles := ⟨[], [], rfl, by rw [here.left, here.right]; exact left.trans right.symm, rfl⟩ }
    exact ⟨list', [copy], [], done, filled.usable (by simp) (by rw [width, bound]; exact fits)
      (width ▸ small)⟩

/-- **When a stack becomes a usable list.** -/
theorem convertsWell_iff {declared start : Stack β} (init : lfInitStack declared = some start)
    {ops : List SlotOp} {answers : List (Option Ptr)} {stack : Stack β}
    (runs : run slotStep ops start = some (answers, stack)) {list : LFList β}
    (intact : list.Intact) (geometry : SameGeometry stack list) :
    stack.ConvertsWell list ↔
      (stack.elemPaddedSize = stack.elemSize ∨ .allocStackElem ∉ ops) ∧
      list.arena.blockCount = stack.arena.blockCount ∧
      (stack.elemCount = 0 ∨ stack.HeadInUse) ∧
      (stack.elemPaddedSize ∣ stack.arena.blockSize ∨
        stack.arena.blockCount = 1 ∧ stack.elemPaddedSize ≤ stack.arena.blockSize) := by
  obtain ⟨own, rep, cursor⟩ := intact
  obtain ⟨positive, some_in_block, width, pads, blocks⟩ := lfInitStack_accepts init
  obtain ⟨start', p, b, init', new, size, -, left, right, -, elem, -, padded, count⟩ :=
    lfInitStack_spec positive some_in_block pads blocks
  obtain rfl : start = start' := Option.some.inj (init.symm.trans init')
  have small : start.elemPaddedSize < sizeModulus := padded ▸ paddedSize_lt pads
  by_cases pushes : SlotOp.allocStackElem ∈ ops
  case neg =>
    -- nothing was pushed, and the stack is a new one
    obtain rfl := run_pops count pushes runs
    have single : stack.arena.blockCount = 1 := new.count
    have some_bytes : 0 < stack.elemPaddedSize := Nat.pos_of_ne_zero fun zero => by
      simp [← padded, zero, sizeWrap] at blocks
    rw [convertsWell_of_new new left right count small some_bytes rep cursor geometry]
    have divides : stack.elemPaddedSize ∣ stack.arena.blockSize →
        stack.elemPaddedSize ≤ stack.arena.blockSize := Nat.le_of_dvd new.positive
    tauto
  case pos =>
    by_cases same : start.elemPaddedSize = start.elemSize
    case neg =>
      -- no slot is a whole element
      obtain ⟨deck, misfits⟩ := run_misfits new left right count same pushes runs
      have uneven := misfits.uneven
      refine iff_of_false (misfits.not_convertsWell geometry rep) ?_
      rintro ⟨even | none, -⟩
      · omega
      · exact none pushes
    obtain ⟨_, _, _, _, taken, -⟩ := run_first_push count pushes runs
    have fits := (slotStep_alloc new taken).2.1
    obtain ⟨used, live, holds, counts, size⟩ := Stack.Holds.of_run init same fits runs
    have usable_iff := fun malloc => holds.usable_iff counts (by rw [size, ← same]; exact small)
      (geometry.withMalloc malloc) (rep.withMalloc malloc) cursor
    rw [← holds.padded] at usable_iff
    constructor
    · intro converts
      have blocks := converts.blocks_eq rep.positive
      obtain ⟨head, whole⟩ := (usable_iff list.arena.heap.malloc blocks).mp (converts _)
      refine ⟨.inl holds.padded, blocks, head, whole.imp_right fun single => ⟨single, ?_⟩⟩
      exact holds.padded ▸ holds.fits
    · rintro ⟨-, blocks, head, whole⟩ malloc
      exact (usable_iff malloc blocks).mpr ⟨head, whole.imp_right And.left⟩

/-- A new list is intact. -/
theorem LFList.Unused.intact {list : LFList β} (unused : list.Unused) : list.Intact := by
  obtain ⟨p, b, rep, -⟩ := unused.block
  exact ⟨[(p, b)], rep, p, by simp, unused.cursor.trans rep.head_eq⟩

/-- A stack of one element and a new list. -/
theorem convertsWell_of_one : ∃ (stack : Stack UInt8) (fresh : LFList UInt8),
    stack.elemCount = 1 ∧ stack.ConvertsWell fresh := by
  have ends : ((lfInitStack (Stack.declared (Allocator.bump (0 : UInt8)) 2 2 1)).bind fun start =>
      (run slotStep [.allocStackElem] start).bind fun reached =>
        (lfInitList (LFList.declared (Allocator.bump (7 : UInt8)) 2 2 1)).bind fun fresh =>
          (reached.2.arena.headBlock.bind reached.2.arena.heap.block).map fun block =>
            (reached.2.elemCount, decide (SameGeometry reached.2 fresh),
              decide (fresh.arena.blockCount = reached.2.arena.blockCount),
              lfIsBlockEmpty block, decide (reached.2.elemPaddedSize = reached.2.elemSize),
              decide (reached.2.elemPaddedSize ∣ reached.2.arena.blockSize))) =
      some (1, true, true, false, true, true) := by
    decide +kernel
  obtain ⟨start, init, ends⟩ := Option.bind_eq_some_iff.mp ends
  obtain ⟨⟨answers, stack⟩, runs, ends⟩ := Option.bind_eq_some_iff.mp ends
  obtain ⟨fresh, initList, ends⟩ := Option.bind_eq_some_iff.mp ends
  obtain ⟨block, atHead, ends⟩ := Option.map_eq_some_iff.mp ends
  simp only [Prod.mk.injEq, decide_eq_true_eq] at ends
  obtain ⟨count, geometry, blocks, inUse, padded, whole⟩ := ends
  exact ⟨stack, fresh, count, (convertsWell_iff init runs
    (LFList.Unused.init initList).1.intact geometry).mpr
      ⟨.inl padded, blocks, .inr ⟨block, atHead, inUse⟩, .inl whole⟩⟩

/-- A stack of two blocks and a new list, which has one: the size of the new block is
what `malloc` left there. -/
theorem list_with_unset_block : ∃ (start : Stack UInt8) (answers : List (Option Ptr))
    (stack : Stack UInt8) (fresh : LFList UInt8),
    lfInitStack (Stack.declared (Allocator.bump 0) 1 1 1) = some start ∧
      run slotStep [.allocStackElem, .allocStackElem] start = some (answers, stack) ∧
      lfInitList (LFList.declared (Allocator.bump 0) 1 1 1) = some fresh ∧
      fresh.Intact ∧ SameGeometry stack fresh ∧ ¬ stack.ConvertsWell fresh := by
  have ends : ((lfInitStack (Stack.declared (Allocator.bump (0 : UInt8)) 1 1 1)).bind fun start =>
      (run slotStep [.allocStackElem, .allocStackElem] start).bind fun reached =>
        (lfInitList (LFList.declared (Allocator.bump (0 : UInt8)) 1 1 1)).map fun fresh =>
          (decide (SameGeometry reached.2 fresh), fresh.arena.blockCount,
            reached.2.arena.blockCount, fresh.arena.blockSize)) =
      some (true, 1, 2, 1) := by
    decide +kernel
  obtain ⟨start, init, ends⟩ := Option.bind_eq_some_iff.mp ends
  obtain ⟨⟨answers, stack⟩, runs, ends⟩ := Option.bind_eq_some_iff.mp ends
  obtain ⟨fresh, initList, ends⟩ := Option.map_eq_some_iff.mp ends
  simp only [Prod.mk.injEq, decide_eq_true_eq] at ends
  obtain ⟨geometry, blocks, blocks', blockSize⟩ := ends
  refine ⟨start, answers, stack, fresh, init, runs, initList,
    (LFList.Unused.init initList).1.intact, geometry, ?_⟩
  intro converts
  have same := converts.blocks_eq (by rw [blockSize]; decide)
  rw [blocks, blocks'] at same
  exact absurd same (by decide)

end LowFlow
