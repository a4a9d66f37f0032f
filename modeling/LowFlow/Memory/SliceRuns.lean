import LowFlow.Memory.Slices

/-!
# Slices that share an arena

Any number of slices are taken of one arena, and slices and arena are extended
in any order. A record of what happened says, for a slice and an end, whether
anyone else allocated at that end since the slice was made or last allocated
there. The invariant is that exactly then the slice no longer owns the end: its
border is not the border of the arena, and it never is again, since both borders
of the arena only move outwards.
-/

set_option autoImplicit false

namespace LowFlow

open Library

variable {β : Type}

/-! ## Both ends alike -/

/-- Allocating at an end of an arena. -/
def allocAt (side : ArenaEnd) (arena : Arena β) (size : ℕ) : Option (Ptr × Arena β) :=
  match side with
  | .head => lfArenaAllocAtHead arena size
  | .tail => lfArenaAllocAtTail arena size

/-- Allocating through a slice at an end of its arena. -/
def sliceAllocAt (side : ArenaEnd) (slice : ArenaSlice) (arena : Arena β) (size : ℕ) :
    Option (Option Ptr × ArenaSlice × Arena β) :=
  match side with
  | .head => lfArenaSliceAllocAtHead slice arena size
  | .tail => lfArenaSliceAllocAtTail slice arena size

/-- What an allocation at an end does to the blocks. -/
def AllocAt (side : ArenaEnd) (arena : Arena β) (size : ℕ) (deck : Deck β) (ptr : Ptr)
    (deck' : Deck β) : Prop :=
  match side with
  | .head => AllocHead arena size deck ptr deck'
  | .tail => AllocTail arena size deck ptr deck'

/-- A range of positions with more at one end. -/
def extendAt (side : ArenaEnd) (added live : List Position) : List Position :=
  match side with
  | .head => added ++ live
  | .tail => live ++ added

/-- The slice after it was given a region at an end. -/
def ArenaSlice.grown (side : ArenaEnd) (slice : ArenaSlice) (ptr : Ptr) (size : ℕ) : ArenaSlice :=
  match side with
  | .head => slice.grownHead ptr size
  | .tail => slice.grownTail ptr size

theorem Represents.allocAt {arena : Arena β} {deck : Deck β} (rep : Represents arena deck)
    (side : ArenaEnd) {size : ℕ} (positive : 0 < size) (bound : size ≤ arena.blockSize) :
    ∃ ptr arena' deck', LowFlow.allocAt side arena size = some (ptr, arena') ∧
      AllocAt side arena size deck ptr deck' ∧ Represents arena' deck' ∧ arena.Keeps arena' := by
  cases side with
  | head =>
      obtain ⟨ptr, arena', deck', alloc, change, rep', keeps, -⟩ := rep.allocAtHead positive bound
      exact ⟨ptr, arena', deck', alloc, change, rep', keeps⟩
  | tail =>
      obtain ⟨ptr, arena', deck', alloc, change, rep', keeps, -⟩ := rep.allocAtTail positive bound
      exact ⟨ptr, arena', deck', alloc, change, rep', keeps⟩

namespace AllocAt

variable {side : ArenaEnd} {arena : Arena β} {size : ℕ} {deck deck' : Deck β} {ptr : Ptr}

theorem carries (change : AllocAt side arena size deck ptr deck') : deck.Carries deck' := by
  cases side with
  | head => exact AllocHead.carries change
  | tail => exact AllocTail.carries change

/-- The used ranges stay in order. -/
theorem ordered (change : AllocAt side arena size deck ptr deck')
    (ordered : ∀ entry ∈ deck, entry.2.leftOffset ≤ entry.2.rightOffset) :
    ∀ entry ∈ deck', entry.2.leftOffset ≤ entry.2.rightOffset := by
  cases side with
  | head =>
      cases change with
      | fits room =>
          obtain ⟨first, others⟩ := List.forall_mem_cons.mp ordered
          exact List.forall_mem_cons.mpr ⟨le_trans (Nat.sub_le ..) first, others⟩
      | opens full => exact List.forall_mem_cons.mpr ⟨Nat.sub_le .., ordered⟩
  | tail =>
      cases change with
      | @fits p b front room =>
          obtain ⟨others, last⟩ := List.forall_mem_append.mp ordered
          refine List.forall_mem_append.mpr ⟨others, List.forall_mem_singleton.mpr ?_⟩
          have lastOrdered : b.leftOffset ≤ b.rightOffset := last (p, b) (List.mem_singleton_self _)
          exact le_trans lastOrdered (Nat.le_add_right ..)
      | opens full =>
          refine List.forall_mem_append.mpr ⟨ordered, List.forall_mem_singleton.mpr ?_⟩
          exact Nat.zero_le _

end AllocAt

/-! ## Owning an end -/

namespace ArenaSlice

variable {slice : ArenaSlice} {side : ArenaEnd} {arena : Arena β} {size : ℕ} {deck deck' : Deck β}
  {ptr : Ptr}

theorem owns_head_cons {p : BlockPtr} {b : Slab β} {rest : Deck β} :
    slice.Owns ((p, b) :: rest) .head ↔
      slice.headBlock = some p ∧ slice.headOffset ≤ b.leftOffset := by
  constructor
  · rintro ⟨q, c, others, split, head, border⟩
    cases split
    exact ⟨head, border⟩
  · rintro ⟨head, border⟩
    exact ⟨p, b, rest, rfl, head, border⟩

theorem owns_tail_concat {p : BlockPtr} {b : Slab β} {front : Deck β} :
    slice.Owns (front ++ [(p, b)]) .tail ↔
      slice.tailBlock = some p ∧ b.rightOffset ≤ slice.tailOffset := by
  constructor
  · rintro ⟨others, q, c, split, tail, border⟩
    obtain ⟨-, same⟩ := List.append_inj' split rfl
    cases same
    exact ⟨tail, border⟩
  · rintro ⟨tail, border⟩
    exact ⟨front, p, b, rfl, tail, border⟩

/-- A border that lies in the deck is in one of its blocks. -/
theorem LiesIn.blocks_mem (lies : slice.LiesIn deck) :
    (∀ p, slice.headBlock = some p → p ∈ ptrs deck) ∧
      ∀ p, slice.tailBlock = some p → p ∈ ptrs deck := by
  obtain ⟨before, blocks, after, rfl, spans⟩ := lies
  have inDeck : ∀ p ∈ ptrs blocks, p ∈ ptrs (before ++ blocks ++ after) := by
    intro p member
    simp only [ptrs, List.map_append, List.mem_append]
    exact .inl (.inr member)
  refine ⟨fun p head => inDeck p ?_, fun p tail => inDeck p ?_⟩
  · exact List.mem_of_mem_head? (spans.head.symm.trans head)
  · exact List.mem_of_mem_getLast? (spans.tail.symm.trans tail)

/-- Once anyone else has allocated at an end, a slice does not own it. -/
theorem LiesIn.lost (lies : slice.LiesIn deck) (distinct : (ptrs deck).Nodup)
    (distinct' : (ptrs deck').Nodup) (positive : 0 < size)
    (change : AllocAt side arena size deck ptr deck') : ¬ slice.Owns deck' side := by
  intro owns
  cases side with
  | head =>
      cases change with
      | fits room =>
          obtain ⟨head, border⟩ := owns_head_cons.mp owns
          obtain ⟨others, after, -, spans⟩ := lies.atHead distinct head
          have low := spans.low _ (List.mem_cons_self ..) head.symm
          dsimp only at border low
          omega
      | opens full =>
          obtain ⟨head, -⟩ := owns_head_cons.mp owns
          exact (List.nodup_cons.mp distinct').1 (lies.blocks_mem.1 _ head)
  | tail =>
      cases change with
      | @fits p b front room =>
          obtain ⟨tail, border⟩ := owns_tail_concat.mp owns
          obtain ⟨before, others, -, spans⟩ := lies.atTail distinct tail
          have high := spans.high (p, b) (by simp) tail.symm
          dsimp only at border high
          omega
      | opens full =>
          obtain ⟨tail, -⟩ := owns_tail_concat.mp owns
          obtain ⟨entry, inDeck, same⟩ := List.mem_map.mp (lies.blocks_mem.2 _ tail)
          exact distinct_concat distinct' inDeck same

/-- An allocation at one end does not change who owns the other. -/
theorem owns_other {other : ArenaEnd} (nonempty : deck ≠ []) (different : other ≠ side)
    (change : AllocAt side arena size deck ptr deck') :
    slice.Owns deck' other ↔ slice.Owns deck other := by
  cases side with
  | head =>
      obtain rfl : other = .tail := by
        cases other
        · exact absurd rfl different
        · rfl
      cases change with
      | @fits p b rest room =>
          rcases List.eq_nil_or_concat' rest with rfl | ⟨front, last, rfl⟩
          · exact (@owns_tail_concat β slice p _ []).trans (@owns_tail_concat β slice p b []).symm
          · rw [← List.cons_append, ← List.cons_append]
            exact owns_tail_concat.trans owns_tail_concat.symm
      | @opens p b rest full =>
          obtain ⟨front, last, split⟩ :=
            (List.eq_nil_or_concat' ((p, b) :: rest)).resolve_left nonempty
          rw [split, ← List.cons_append]
          exact owns_tail_concat.trans owns_tail_concat.symm
  | tail =>
      obtain rfl : other = .head := by
        cases other
        · rfl
        · exact absurd rfl different
      cases change with
      | @fits p b front room =>
          cases front with
          | nil => exact owns_head_cons.trans (@owns_head_cons β slice p b []).symm
          | cons first front => exact owns_head_cons.trans owns_head_cons.symm
      | @opens p b front full =>
          obtain ⟨first, rest, split⟩ := List.exists_cons_of_ne_nil nonempty
          rw [split]
          exact owns_head_cons.trans owns_head_cons.symm

/-- Growing at one end does not move the border at the other. -/
theorem grown_owns_other {other : ArenaEnd} (different : other ≠ side) :
    (slice.grown side ptr size).Owns deck other ↔ slice.Owns deck other := by
  cases side <;> cases other <;> first | exact absurd rfl different | rfl

theorem LiesIn.alloc (lies : slice.LiesIn deck) (distinct : (ptrs deck).Nodup)
    (distinct' : (ptrs deck').Nodup) (change : AllocAt side arena size deck ptr deck') :
    slice.LiesIn deck' ∧ slice.live deck' = slice.live deck := by
  cases side with
  | head => exact lies.allocHead distinct distinct' change
  | tail => exact lies.allocTail distinct distinct' change

theorem LiesIn.grow (lies : slice.LiesIn deck) (owns : slice.Owns deck side)
    (distinct : (ptrs deck).Nodup) (distinct' : (ptrs deck').Nodup)
    (bound : size ≤ arena.blockSize) (change : AllocAt side arena size deck ptr deck') :
    (slice.grown side ptr size).LiesIn deck' ∧ (slice.grown side ptr size).Owns deck' side ∧
      (slice.grown side ptr size).live deck' =
        extendAt side (Region.positions ⟨ptr, size⟩) (slice.live deck) := by
  cases side with
  | head => exact lies.growHead owns distinct distinct' bound change
  | tail => exact lies.growTail owns distinct distinct' change

theorem sliceAllocAt_refused (rep : Represents arena deck) (lost : ¬ slice.Owns deck side)
    (size : ℕ) : sliceAllocAt side slice arena size = some (none, slice, arena) := by
  cases side with
  | head => exact allocAtHead_refused rep lost size
  | tail => exact allocAtTail_refused rep lost size

theorem sliceAllocAt_granted (rep : Represents arena deck) (owns : slice.Owns deck side)
    (positive : 0 < size) (bound : size ≤ arena.blockSize) :
    ∃ ptr arena' deck', sliceAllocAt side slice arena size =
        some (some ptr, slice.grown side ptr size, arena') ∧
      AllocAt side arena size deck ptr deck' ∧ Represents arena' deck' ∧ arena.Keeps arena' := by
  cases side with
  | head => exact allocAtHead_granted rep owns positive bound
  | tail => exact allocAtTail_granted rep owns positive bound

/-- The owner of an end cannot have a size that the arena does not accept. -/
theorem sliceAllocAt_size (rep : Represents arena deck) (owns : slice.Owns deck side)
    (refused : size = 0 ∨ arena.blockSize < size) : sliceAllocAt side slice arena size = none := by
  cases side with
  | head =>
      obtain ⟨p, b, rest, rfl, head, border⟩ := owns
      obtain ⟨node, found, rfl⟩ := rep.lookup (p := p) (b := b) (by simp)
      simp [sliceAllocAt, lfArenaSliceAllocAtHead, lfArenaAllocAtHead, rep.head_eq, head, found,
        Nat.not_lt.mpr border, refused]
  | tail =>
      obtain ⟨front, p, b, rfl, tail, border⟩ := owns
      obtain ⟨node, found, rfl⟩ := rep.lookup (p := p) (b := b) (by simp)
      simp [sliceAllocAt, lfArenaSliceAllocAtTail, lfArenaAllocAtTail, rep.tail_eq, tail, found,
        Nat.not_lt.mpr border, refused]

end ArenaSlice

/-! ## The system -/

/-- What happens to an arena and its slices. An allocation is done by a slice,
which is known by its number, or directly. -/
inductive SliceEvent where
  | created (slice : ℕ)
  | allocated (who : Option ℕ) (side : ArenaEnd)
deriving DecidableEq

/-- An arena, the slices of it, and what happened, newest first. -/
structure Shared (β : Type) where
  arena : Arena β
  slices : List ArenaSlice
  log : List SliceEvent

/-- The calls: a new slice, in a structure that holds anything, and an
allocation by a slice or a direct one. -/
inductive SliceOp where
  | create (dest : ArenaSlice)
  | alloc (who : Option ℕ) (side : ArenaEnd) (size : ℕ)

/-- Nobody else has allocated at this end since the slice was created or last
allocated there itself. -/
def undisturbed (slice : ℕ) (side : ArenaEnd) : List SliceEvent → Bool
  | [] => false
  | .created other :: log => other = slice || undisturbed slice side log
  | .allocated who place :: log =>
      if place = side then who = some slice else undisturbed slice side log

/-- One call. It answers with what an allocation returns. -/
def sliceStep : SliceOp → Shared β → Option (Option Ptr × Shared β)
  | .create dest, s => do
      let slice ← lfInitArenaSlice s.arena.heap dest (some s.arena)
      some (none, ⟨s.arena, s.slices ++ [slice], .created s.slices.length :: s.log⟩)
  | .alloc none side size, s => do
      let (ptr, arena) ← allocAt side s.arena size
      some (some ptr, ⟨arena, s.slices, .allocated none side :: s.log⟩)
  | .alloc (some i) side size, s => do
      let (answer, slice, arena) ← sliceAllocAt side (← s.slices[i]?) s.arena size
      match answer with
      | none => some (none, ⟨arena, s.slices.set i slice, s.log⟩)
      | some ptr =>
          some (some ptr, ⟨arena, s.slices.set i slice, .allocated (some i) side :: s.log⟩)

/-! ## The invariant -/

/-- Every slice lies in the blocks of the arena, and owns an end exactly when
nobody disturbed it there. -/
structure Shared.Sound (s : Shared β) (blockSize : ℕ) (deck : Deck β) : Prop where
  rep : Represents s.arena deck
  same : s.arena.blockSize = blockSize
  ordered : ∀ entry ∈ deck, entry.2.leftOffset ≤ entry.2.rightOffset
  lies : ∀ (i : ℕ) (slice : ArenaSlice), s.slices[i]? = some slice → slice.LiesIn deck
  owns : ∀ (i : ℕ) (slice : ArenaSlice), s.slices[i]? = some slice → ∀ side,
    undisturbed i side s.log = true ↔ slice.Owns deck side

namespace Shared.Sound

variable {s : Shared β} {blockSize : ℕ} {deck deck' : Deck β}

/-- A slice that did not allocate keeps its live range, and loses the end. -/
theorem others (sound : s.Sound blockSize deck) {side : ArenaEnd} {size : ℕ} {ptr : Ptr}
    (distinct' : (ptrs deck').Nodup) (positive : 0 < size)
    (change : AllocAt side s.arena size deck ptr deck') (who : Option ℕ) {j : ℕ}
    {slice : ArenaSlice} (found : s.slices[j]? = some slice) (other : who ≠ some j) :
    slice.LiesIn deck' ∧ slice.live deck' = slice.live deck ∧
      ∀ place, undisturbed j place (.allocated who side :: s.log) = true ↔
        slice.Owns deck' place := by
  have lies := sound.lies j slice found
  have distinct := sound.rep.distinct
  obtain ⟨lies', live⟩ := lies.alloc distinct distinct' change
  refine ⟨lies', live, ?_⟩
  intro place
  by_cases here : place = side
  · subst here
    have lost := lies.lost distinct distinct' positive change
    simp [undisturbed, other, lost]
  · have kept : slice.Owns deck' place ↔ slice.Owns deck place :=
      ArenaSlice.owns_other sound.rep.nonempty here change
    simp [undisturbed, Ne.symm here, kept, sound.owns j slice found place]

/-- A new slice owns both ends, and nothing else changes. -/
theorem create (sound : s.Sound blockSize deck) (dest : ArenaSlice) :
    ∃ slice, sliceStep (.create dest) s =
        some (none, ⟨s.arena, s.slices ++ [slice], .created s.slices.length :: s.log⟩) ∧
      Sound ⟨s.arena, s.slices ++ [slice], .created s.slices.length :: s.log⟩ blockSize deck := by
  obtain ⟨new, init, -, lies, owns, -⟩ := ArenaSlice.of_init sound.rep sound.ordered dest
  refine ⟨new, by simp [sliceStep, init], sound.rep, sound.same, sound.ordered, ?_, ?_⟩
  · intro i slice found
    rw [List.getElem?_append] at found
    by_cases old : i < s.slices.length
    · rw [if_pos old] at found
      exact sound.lies i slice found
    · rw [if_neg old] at found
      obtain rfl : new = slice := by
        have here := List.mem_of_getElem? found
        exact (List.mem_singleton.mp here).symm
      exact lies
  · intro i slice found side
    rw [List.getElem?_append] at found
    by_cases old : i < s.slices.length
    · rw [if_pos old] at found
      have other : s.slices.length ≠ i := Nat.ne_of_gt old
      simp [undisturbed, other, sound.owns i slice found side]
    · rw [if_neg old] at found
      obtain ⟨rfl, rfl⟩ : i = s.slices.length ∧ new = slice := by
        have bound := (List.getElem?_eq_some_iff.mp found).1
        have here := List.mem_of_getElem? found
        exact ⟨by simp at bound; omega, (List.mem_singleton.mp here).symm⟩
      simp [undisturbed, owns side]

/-- A direct allocation succeeds and takes the end from every slice. -/
theorem direct (sound : s.Sound blockSize deck) (side : ArenaEnd) {size : ℕ} (positive : 0 < size)
    (bound : size ≤ blockSize) :
    ∃ ptr arena' deck', sliceStep (.alloc none side size) s =
        some (some ptr, ⟨arena', s.slices, .allocated none side :: s.log⟩) ∧
      AllocAt side s.arena size deck ptr deck' ∧
      Sound ⟨arena', s.slices, .allocated none side :: s.log⟩ blockSize deck' := by
  obtain ⟨ptr, arena', deck', alloc, change, rep', keeps⟩ :=
    sound.rep.allocAt side positive (sound.same ▸ bound)
  have others := fun j slice (found : s.slices[j]? = some slice) =>
    sound.others rep'.distinct positive change none found (by simp)
  refine ⟨ptr, arena', deck', by simp [sliceStep, alloc], change, rep',
    keeps.blockSize.trans sound.same, change.ordered sound.ordered, ?_, ?_⟩
  · exact fun j slice found => (others j slice found).1
  · exact fun j slice found => (others j slice found).2.2

/-- A slice that was disturbed at an end is refused there, and nothing changes. -/
theorem refused (sound : s.Sound blockSize deck) {i : ℕ} {slice : ArenaSlice}
    (found : s.slices[i]? = some slice) {side : ArenaEnd}
    (disturbed : undisturbed i side s.log = false) (size : ℕ) :
    sliceStep (.alloc (some i) side size) s = some (none, s) := by
  have lost : ¬ slice.Owns deck side := by
    intro owns
    rw [(sound.owns i slice found side).mpr owns] at disturbed
    cases disturbed
  have unchanged : s.slices.set i slice = s.slices := by
    obtain ⟨inRange, same⟩ := List.getElem?_eq_some_iff.mp found
    rw [← same, List.set_getElem_self]
  simp [sliceStep, found, ArenaSlice.sliceAllocAt_refused sound.rep lost, unchanged]

/-- A slice that was not disturbed at an end is granted a region there. -/
theorem granted (sound : s.Sound blockSize deck) {i : ℕ} {slice : ArenaSlice}
    (found : s.slices[i]? = some slice) {side : ArenaEnd}
    (owned : undisturbed i side s.log = true) {size : ℕ} (positive : 0 < size)
    (bound : size ≤ blockSize) :
    ∃ ptr arena' deck', sliceStep (.alloc (some i) side size) s =
        some (some ptr, ⟨arena', s.slices.set i (slice.grown side ptr size),
          .allocated (some i) side :: s.log⟩) ∧
      AllocAt side s.arena size deck ptr deck' ∧
      (slice.grown side ptr size).live deck' =
        extendAt side (Region.positions ⟨ptr, size⟩) (slice.live deck) ∧
      Sound ⟨arena', s.slices.set i (slice.grown side ptr size),
        .allocated (some i) side :: s.log⟩ blockSize deck' := by
  have owns := (sound.owns i slice found side).mp owned
  have inRange := (List.getElem?_eq_some_iff.mp found).1
  obtain ⟨ptr, arena', deck', alloc, change, rep', keeps⟩ :=
    ArenaSlice.sliceAllocAt_granted sound.rep owns positive (sound.same ▸ bound)
  obtain ⟨lies', owns', live'⟩ := (sound.lies i slice found).grow owns sound.rep.distinct
    rep'.distinct (sound.same ▸ bound) change
  refine ⟨ptr, arena', deck', by simp [sliceStep, found, alloc], change, live', rep',
    keeps.blockSize.trans sound.same, change.ordered sound.ordered, ?_, ?_⟩
  · intro j other found'
    by_cases here : i = j
    · subst here
      rw [List.getElem?_set_self inRange] at found'
      cases found'
      exact lies'
    · rw [List.getElem?_set_ne here] at found'
      exact (sound.others rep'.distinct positive change (some i) found' (by simpa)).1
  · intro j other found' place
    by_cases here : i = j
    · subst here
      rw [List.getElem?_set_self inRange] at found'
      cases found'
      by_cases same : place = side
      · subst same
        simp [undisturbed, owns']
      · have kept : (slice.grown side ptr size).Owns deck' place ↔
            (slice.grown side ptr size).Owns deck place :=
          ArenaSlice.owns_other sound.rep.nonempty same change
        rw [kept, ArenaSlice.grown_owns_other same, ← sound.owns i slice found place]
        simp [undisturbed, Ne.symm same]
    · rw [List.getElem?_set_ne here] at found'
      exact (sound.others rep'.distinct positive change (some i) found' (by simpa)).2.2 place

/-- A call that does not end in a refusal has a size that the arena accepts. -/
theorem legal (sound : s.Sound blockSize deck) {who : Option ℕ} {side : ArenaEnd} {size : ℕ}
    (owned : ∀ i, who = some i → undisturbed i side s.log = true) {answer : Option Ptr}
    {s' : Shared β} (taken : sliceStep (.alloc who side size) s = some (answer, s')) :
    0 < size ∧ size ≤ blockSize := by
  have accepted : ¬ (size = 0 ∨ s.arena.blockSize < size) → 0 < size ∧ size ≤ blockSize := by
    have same := sound.same
    omega
  refine accepted ?_
  intro refused
  cases who with
  | none =>
      cases side <;>
        simp [sliceStep, allocAt, lfArenaAllocAtHead, lfArenaAllocAtTail, refused] at taken
  | some i =>
      cases found : s.slices[i]? with
      | none => simp [sliceStep, found] at taken
      | some slice =>
          have owns := (sound.owns i slice found side).mp (owned i rfl)
          simp [sliceStep, found, ArenaSlice.sliceAllocAt_size sound.rep owns refused] at taken

/-- **One call** keeps the invariant. No slice is forgotten, and one that was
disturbed stays so. -/
theorem step (sound : s.Sound blockSize deck) {op : SliceOp} {answer : Option Ptr} {s' : Shared β}
    (taken : sliceStep op s = some (answer, s')) :
    (∃ deck', s'.Sound blockSize deck') ∧ s.slices.length ≤ s'.slices.length ∧
      ∀ i < s.slices.length, ∀ side, undisturbed i side s.log = false →
        undisturbed i side s'.log = false := by
  cases op with
  | create dest =>
      obtain ⟨slice, created, sound'⟩ := sound.create dest
      obtain ⟨-, rfl⟩ := Prod.mk.inj (Option.some.inj (taken.symm.trans created))
      refine ⟨⟨deck, sound'⟩, by simp, ?_⟩
      intro i inRange side disturbed
      have other : s.slices.length ≠ i := Nat.ne_of_gt inRange
      simp [undisturbed, other, disturbed]
  | alloc who side size =>
      cases who with
      | none =>
          obtain ⟨positive, bound⟩ := sound.legal (by simp) taken
          obtain ⟨ptr', arena', deck', taken', -, sound'⟩ := sound.direct side positive bound
          obtain ⟨-, rfl⟩ := Prod.mk.inj (Option.some.inj (taken.symm.trans taken'))
          refine ⟨⟨deck', sound'⟩, le_rfl, ?_⟩
          intro i inRange place disturbed
          by_cases here : side = place <;> simp [undisturbed, here, disturbed]
      | some i =>
          cases found : s.slices[i]? with
          | none => simp [sliceStep, found] at taken
          | some slice =>
              by_cases owned : undisturbed i side s.log = true
              · obtain ⟨positive, bound⟩ := sound.legal (by simpa using owned) taken
                obtain ⟨ptr', arena', deck', taken', -, -, sound'⟩ :=
                  sound.granted found owned positive bound
                obtain ⟨-, rfl⟩ := Prod.mk.inj (Option.some.inj (taken.symm.trans taken'))
                refine ⟨⟨deck', sound'⟩, by simp, ?_⟩
                intro j inRange place disturbed
                by_cases here : side = place
                · subst here
                  have other : i ≠ j := fun same => by simp [same, disturbed] at owned
                  simp [undisturbed, other]
                · simp [undisturbed, here, disturbed]
              · have disturbed : undisturbed i side s.log = false := by simpa using owned
                have same := sound.refused found disturbed size
                obtain ⟨-, rfl⟩ := Prod.mk.inj (Option.some.inj (taken.symm.trans same))
                exact ⟨⟨deck, sound⟩, le_rfl, fun _ _ _ still => still⟩

end Shared.Sound

/-! ## Every run -/

/-- Every run on an arena without slices keeps the invariant. -/
theorem Shared.Sound.of_run {arena start : Arena β} (init : lfInitArena arena = some start)
    {before : List ArenaOp} {answers₀ : List (Option Ptr)} {t : Traced β}
    (ran : run arenaStep before ⟨start, []⟩ = some (answers₀, t)) {ops : List SliceOp}
    {answers : List (Option Ptr)} {s : Shared β}
    (runs : run sliceStep ops ⟨t.arena, [], []⟩ = some (answers, s)) :
    ∃ deck, s.Sound arena.blockSize deck := by
  obtain ⟨deck, tiled⟩ := Traced.Tiled.of_run init ran
  refine run_invariant (fun s => ∃ deck, Shared.Sound s arena.blockSize deck) ?_ ⟨deck, ?_⟩ runs
  · rintro op s answer s' ⟨deck, sound⟩ taken
    exact (sound.step taken).1
  · exact ⟨tiled.rep, tiled.same, fun entry member => tiled.tiles.left_le member, by simp, by simp⟩

/-- A slice that was disturbed at an end is refused there after any run. -/
theorem Shared.Sound.refused_forever {s s' : Shared β} {blockSize : ℕ} {deck : Deck β}
    (sound : s.Sound blockSize deck) {i : ℕ} (inRange : i < s.slices.length) {side : ArenaEnd}
    (disturbed : undisturbed i side s.log = false) {more : List SliceOp}
    {answers : List (Option Ptr)} (runs : run sliceStep more s = some (answers, s')) (size : ℕ) :
    sliceStep (.alloc (some i) side size) s' = some (none, s') := by
  obtain ⟨⟨deck', sound'⟩, inRange', disturbed'⟩ := run_invariant
    (fun s => (∃ deck, Shared.Sound s blockSize deck) ∧ i < s.slices.length ∧
      undisturbed i side s.log = false)
    (by
      rintro op s answer s' ⟨⟨deck, sound⟩, inRange, disturbed⟩ taken
      obtain ⟨sound', more, still⟩ := sound.step taken
      exact ⟨sound', lt_of_lt_of_le inRange more, still i inRange side disturbed⟩)
    ⟨⟨deck, sound⟩, inRange, disturbed⟩ runs
  exact sound'.refused (List.getElem?_eq_getElem inRange') disturbed' size

/-- **Who owns an end.** After any calls on any arena, a slice is granted a
region at an end exactly when nobody disturbed it there. A refusal changes
nothing and is for ever. A region that is granted extends the live range of the
slice, and the live ranges of the others stay, with the bytes in them. -/
theorem slice_owns_undisturbed_end (arena start : Arena β) (init : lfInitArena arena = some start)
    (before : List ArenaOp) (answers₀ : List (Option Ptr)) (t : Traced β)
    (ran : run arenaStep before ⟨start, []⟩ = some (answers₀, t)) (ops : List SliceOp)
    (answers : List (Option Ptr)) (s : Shared β)
    (runs : run sliceStep ops ⟨t.arena, [], []⟩ = some (answers, s)) (i : ℕ) (slice : ArenaSlice)
    (found : s.slices[i]? = some slice) (side : ArenaEnd) (size : ℕ) (positive : 0 < size)
    (bound : size ≤ arena.blockSize) :
    ∃ answer s' deck deck', sliceStep (.alloc (some i) side size) s = some (answer, s') ∧
      Represents s.arena deck ∧ Represents s'.arena deck' ∧
      (answer.isSome = true ↔ undisturbed i side s.log = true) ∧
      (answer = none → s' = s ∧ ∀ more answers' s'',
        run sliceStep more s' = some (answers', s'') → ∀ size',
          sliceStep (.alloc (some i) side size') s'' = some (none, s'')) ∧
      (∀ ptr, answer = some ptr → ∃ slice', s'.slices[i]? = some slice' ∧
        slice'.live deck' = extendAt side (Region.positions ⟨ptr, size⟩) (slice.live deck)) ∧
      (∀ j other, j ≠ i → s.slices[j]? = some other →
        s'.slices[j]? = some other ∧ other.live deck' = other.live deck) ∧
      deck.Carries deck' := by
  obtain ⟨deck, sound⟩ := Shared.Sound.of_run init ran runs
  have inRange := (List.getElem?_eq_some_iff.mp found).1
  by_cases owned : undisturbed i side s.log = true
  · obtain ⟨ptr, arena', deck', taken, change, live, sound'⟩ :=
      sound.granted found owned positive bound
    refine ⟨some ptr, _, deck, deck', taken, sound.rep, sound'.rep, by simp [owned], by simp, ?_,
      ?_, change.carries⟩
    · intro given same
      cases same
      exact ⟨_, List.getElem?_set_self inRange, live⟩
    · intro j other different found'
      refine ⟨(List.getElem?_set_ne different.symm).trans found', ?_⟩
      have kept := sound.others sound'.rep.distinct positive change (some i) found'
        (by simpa using different.symm)
      exact kept.2.1
  · have disturbed : undisturbed i side s.log = false := by simpa using owned
    refine ⟨none, s, deck, deck, sound.refused found disturbed size, sound.rep, sound.rep,
      by simp [disturbed], fun _ => ⟨rfl, fun more answers' s'' runs' size' => ?_⟩, by simp,
      fun j other _ found' => ⟨found', rfl⟩, .refl _⟩
    exact sound.refused_forever inRange disturbed runs' size'

/-- Two slices of an arena with a direct allocation between them: the second
one is asked for two more bytes at the tail. -/
theorem slice_owns_undisturbed_end_second :
    ∃ start answers s slice answer s' deck deck',
      lfInitArena (Arena.declared (Allocator.bump (0 : UInt8)) 8 .middle) = some start ∧
      run sliceStep [.create ⟨none, none, 0, 0, 0⟩, .alloc none .tail 3,
        .create ⟨none, none, 0, 0, 0⟩, .alloc (some 1) .head 5] ⟨start, [], []⟩ =
          some (answers, s) ∧
      s.slices[1]? = some slice ∧ sliceStep (.alloc (some 1) .tail 2) s = some (answer, s') ∧
      Represents s.arena deck ∧ Represents s'.arena deck' ∧
      (answer.isSome = true ↔ undisturbed 1 .tail s.log = true) ∧
      (answer = none → s' = s ∧ ∀ more answers' s'',
        run sliceStep more s' = some (answers', s'') → ∀ size',
          sliceStep (.alloc (some 1) .tail size') s'' = some (none, s'')) ∧
      (∀ ptr, answer = some ptr → ∃ slice', s'.slices[1]? = some slice' ∧
        slice'.live deck' = extendAt .tail (Region.positions ⟨ptr, 2⟩) (slice.live deck)) ∧
      (∀ j other, j ≠ 1 → s.slices[j]? = some other →
        s'.slices[j]? = some other ∧ other.live deck' = other.live deck) ∧
      deck.Carries deck' := by
  let arena : Arena UInt8 := Arena.declared (Allocator.bump 0) 8 .middle
  let ops : List SliceOp := [.create ⟨none, none, 0, 0, 0⟩, .alloc none .tail 3,
    .create ⟨none, none, 0, 0, 0⟩, .alloc (some 1) .head 5]
  obtain ⟨start, init⟩ := Option.isSome_iff_exists.mp
    (by decide +kernel : (lfInitArena arena).isSome = true)
  have ends : (((lfInitArena arena).bind fun start => run sliceStep ops ⟨start, [], []⟩).bind
    fun result => result.2.slices[1]?).isSome = true := by decide +kernel
  obtain ⟨slice, ends⟩ := Option.isSome_iff_exists.mp ends
  rw [init, Option.bind_some, Option.bind_eq_some_iff] at ends
  obtain ⟨⟨answers, s⟩, runs, found⟩ := ends
  obtain ⟨answer, s', deck, deck', result⟩ := slice_owns_undisturbed_end arena start init [] []
    ⟨start, []⟩ rfl ops answers s runs 1 slice found .tail 2 (by decide) (by decide)
  exact ⟨start, answers, s, slice, answer, s', deck, deck', init, runs, found, result⟩

end LowFlow
