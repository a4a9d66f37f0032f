import LowFlow.Library.Run
import LowFlow.Memory.DeckOps

/-!
# The regions an arena hands out

An arena is a deque of regions. Each call of an allocation hands out a region
at one end, freeing an end block takes back the regions in it, and a reset
takes back all of them. The record of the regions that are still handed out is
kept next to the arena, and the invariant says that the regions, in deque
order, tile the used ranges of the blocks from head to tail.
-/

set_option autoImplicit false

namespace LowFlow

open Library

variable {β : Type}

/-! ## Regions -/

/-- A region: where it starts and how many bytes it has. -/
structure Region where
  ptr : Ptr
  size : ℕ
deriving DecidableEq, Repr

/-- Two regions of which no byte is shared. -/
def Region.Apart (one two : Region) : Prop :=
  one.ptr.block ≠ two.ptr.block ∨ one.ptr.offset + one.size ≤ two.ptr.offset ∨
    two.ptr.offset + two.size ≤ one.ptr.offset

/-- The regions fill a range of one block from left to right, without gaps. -/
def Tiles (p : BlockPtr) : ℕ → List Region → ℕ → Prop
  | lo, [], hi => lo = hi
  | lo, r :: rest, hi => r.ptr = ⟨p, lo⟩ ∧ 0 < r.size ∧ Tiles p (lo + r.size) rest hi

/-- The regions fill the used ranges of the blocks, block by block. -/
def TilesDeck : Deck β → List Region → Prop
  | [], regions => regions = []
  | (p, b) :: rest, regions =>
      ∃ here there, regions = here ++ there ∧ Tiles p b.leftOffset here b.rightOffset ∧
        TilesDeck rest there

namespace Tiles

variable {p : BlockPtr} {lo hi : ℕ} {regions : List Region}

theorem le (tiles : Tiles p lo regions hi) : lo ≤ hi := by
  induction regions generalizing lo with
  | nil => exact le_of_eq tiles
  | cons r rest ih =>
      have onward := ih tiles.2.2
      omega

theorem concat (tiles : Tiles p lo regions hi) {size : ℕ} (positive : 0 < size) :
    Tiles p lo (regions ++ [⟨⟨p, hi⟩, size⟩]) (hi + size) := by
  induction regions generalizing lo with
  | nil =>
      cases (tiles : lo = hi)
      exact ⟨rfl, positive, rfl⟩
  | cons r rest ih => exact ⟨tiles.1, tiles.2.1, ih tiles.2.2⟩

theorem append {rest : List Region} :
    Tiles p lo (regions ++ rest) hi ↔ ∃ mid, Tiles p lo regions mid ∧ Tiles p mid rest hi := by
  induction regions generalizing lo with
  | nil => simp [Tiles]
  | cons r regions ih =>
      simp only [List.cons_append, Tiles, ih]
      constructor
      · rintro ⟨start, positive, mid, left, right⟩
        exact ⟨mid, ⟨start, positive, left⟩, right⟩
      · rintro ⟨mid, ⟨start, positive, left⟩, right⟩
        exact ⟨start, positive, mid, left, right⟩

/-- Each region lies in the block and inside the range. -/
theorem inside (tiles : Tiles p lo regions hi) {r : Region} (member : r ∈ regions) :
    r.ptr.block = p ∧ lo ≤ r.ptr.offset ∧ r.ptr.offset + r.size ≤ hi := by
  induction regions generalizing lo with
  | nil => cases member
  | cons first rest ih =>
      obtain ⟨start, positive, onward⟩ := tiles
      rcases List.mem_cons.mp member with rfl | later
      · have bound := onward.le
        simp only [start, true_and]
        omega
      · obtain ⟨block, low, high⟩ := ih onward later
        exact ⟨block, by omega, high⟩

theorem pairwise (tiles : Tiles p lo regions hi) : regions.Pairwise Region.Apart := by
  induction regions generalizing lo with
  | nil => exact .nil
  | cons r rest ih =>
      obtain ⟨start, -, onward⟩ := tiles
      refine .cons (?_) (ih onward)
      intro other member
      obtain ⟨-, low, -⟩ := onward.inside member
      refine .inr (.inl ?_)
      rw [start]
      simpa using low

/-- Regions of one size take as many bytes as there are regions of it. -/
theorem length_eq {width : ℕ} (tiles : Tiles p lo regions hi)
    (same : ∀ r ∈ regions, r.size = width) : hi = lo + width * regions.length := by
  induction regions generalizing lo with
  | nil => exact (tiles : lo = hi).symm
  | cons r rest ih =>
      have first : r.size = width := same r (List.mem_cons_self ..)
      have onward := ih tiles.2.2 fun s member => same s (List.mem_cons_of_mem _ member)
      rw [onward, first, List.length_cons, Nat.mul_succ]
      omega

end Tiles

/-- The bytes in the used ranges of the blocks. -/
def Deck.liveBytes (deck : Deck β) : ℕ :=
  deck.foldr (fun entry n => entry.2.rightOffset - entry.2.leftOffset + n) 0

@[simp] theorem liveBytes_nil : Deck.liveBytes ([] : Deck β) = 0 := rfl

@[simp] theorem liveBytes_cons (entry : BlockPtr × Slab β) (rest : Deck β) :
    Deck.liveBytes (entry :: rest) =
      entry.2.rightOffset - entry.2.leftOffset + rest.liveBytes := rfl

@[simp] theorem liveBytes_append (front back : Deck β) :
    Deck.liveBytes (front ++ back) = front.liveBytes + back.liveBytes := by
  induction front with
  | nil => simp
  | cons entry front ih => simp [ih, Nat.add_assoc]

@[simp] theorem liveBytes_restart (deck : Deck β) (offset : ℕ) :
    (deck.restart offset).liveBytes = 0 := by
  induction deck with
  | nil => rfl
  | cons entry deck ih =>
      rw [Deck.restart, List.map_cons, liveBytes_cons, ← Deck.restart, ih]
      simp [Slab.restart]

theorem tilesDeck_append {front back : Deck β} {regions : List Region} :
    TilesDeck (front ++ back) regions ↔
      ∃ here there, regions = here ++ there ∧ TilesDeck front here ∧ TilesDeck back there := by
  induction front generalizing regions with
  | nil => simp [TilesDeck]
  | cons entry rest ih =>
      simp only [List.cons_append, TilesDeck, ih]
      constructor
      · rintro ⟨first, -, rfl, tiles, here, there, rfl, left, right⟩
        exact ⟨first ++ here, there, by simp, ⟨first, here, rfl, tiles, left⟩, right⟩
      · rintro ⟨-, there, rfl, ⟨first, here, rfl, tiles, left⟩, right⟩
        exact ⟨first, here ++ there, by simp, tiles, here, there, rfl, left, right⟩

theorem tilesDeck_singleton {p : BlockPtr} {b : Slab β} {regions : List Region} :
    TilesDeck [(p, b)] regions ↔ Tiles p b.leftOffset regions b.rightOffset := by
  simp [TilesDeck]

namespace TilesDeck

variable {deck : Deck β} {regions : List Region}

/-- As many bytes are live as the regions take. -/
theorem liveBytes_eq {width : ℕ} (tiles : TilesDeck deck regions)
    (same : ∀ r ∈ regions, r.size = width) : deck.liveBytes = regions.length * width := by
  induction deck generalizing regions with
  | nil =>
      cases (tiles : regions = [])
      simp
  | cons entry rest ih =>
      obtain ⟨here, there, rfl, first, onward⟩ := tiles
      obtain ⟨sameHere, sameThere⟩ := List.forall_mem_append.mp same
      rw [liveBytes_cons, ih onward sameThere, List.length_append, Nat.add_mul,
        first.length_eq sameHere, Nat.add_sub_cancel_left, Nat.mul_comm width]

/-- Each region lies in the used range of one of the blocks. -/
theorem inside (tiles : TilesDeck deck regions) {r : Region} (member : r ∈ regions) :
    ∃ entry ∈ deck, r.ptr.block = entry.1 ∧ (entry.2.leftOffset : ℤ) ≤ r.ptr.offset ∧
      r.ptr.offset + r.size ≤ entry.2.rightOffset := by
  induction deck generalizing regions with
  | nil =>
      cases (tiles : regions = [])
      cases member
  | cons entry rest ih =>
      obtain ⟨here, there, rfl, first, onward⟩ := tiles
      rcases List.mem_append.mp member with inFirst | later
      · exact ⟨entry, List.mem_cons_self .., first.inside inFirst⟩
      · obtain ⟨other, inRest, place⟩ := ih onward later
        exact ⟨other, List.mem_cons_of_mem _ inRest, place⟩

theorem block_mem (tiles : TilesDeck deck regions) {r : Region} (member : r ∈ regions) :
    r.ptr.block ∈ ptrs deck := by
  obtain ⟨entry, inDeck, same, -⟩ := tiles.inside member
  exact same ▸ List.mem_map_of_mem inDeck

/-- Regions that tile distinct blocks do not overlap. -/
theorem pairwise (tiles : TilesDeck deck regions) (distinct : (ptrs deck).Nodup) :
    regions.Pairwise Region.Apart := by
  induction deck generalizing regions with
  | nil =>
      cases (tiles : regions = [])
      exact .nil
  | cons entry rest ih =>
      obtain ⟨here, there, rfl, first, onward⟩ := tiles
      obtain ⟨missing, distinct⟩ := List.nodup_cons.mp distinct
      refine List.pairwise_append.mpr ⟨first.pairwise, ih onward distinct, ?_⟩
      intro one inHere two inThere
      refine .inl fun same => missing ?_
      rw [← (first.inside inHere).1, same]
      exact onward.block_mem inThere

/-- The first region is at the left end of the first block when that is not empty. -/
theorem takeFirst {p : BlockPtr} {b : Slab β} {rest : Deck β} {r : Region}
    (tiles : TilesDeck ((p, b) :: rest) (r :: regions)) (nonempty : b.leftOffset ≠ b.rightOffset) :
    r.ptr = ⟨p, b.leftOffset⟩ ∧ b.leftOffset + r.size ≤ b.rightOffset ∧
      TilesDeck ((p, { b with leftOffset := b.leftOffset + r.size }) :: rest) regions := by
  obtain ⟨here, there, split, first, onward⟩ := tiles
  cases here with
  | nil => exact absurd first nonempty
  | cons s here =>
      obtain ⟨rfl, rfl⟩ := List.cons.inj split
      exact ⟨first.1, first.2.2.le, here, there, rfl, first.2.2, onward⟩

/-- The last region is at the right end of the last block when that is not empty. -/
theorem takeLast {p : BlockPtr} {b : Slab β} {earlier : Deck β} {front : List Region} {r : Region}
    (tiles : TilesDeck (earlier ++ [(p, b)]) (front ++ [r]))
    (nonempty : b.leftOffset ≠ b.rightOffset) :
    ∃ offset : ℕ, r.ptr = ⟨p, offset⟩ ∧ b.leftOffset ≤ offset ∧
      offset + r.size = b.rightOffset := by
  obtain ⟨here, there, split, -, last⟩ := tilesDeck_append.mp tiles
  replace last := tilesDeck_singleton.mp last
  rcases List.eq_nil_or_concat' there with rfl | ⟨there, s, rfl⟩
  · exact absurd last nonempty
  · rw [← List.append_assoc] at split
    obtain ⟨-, same⟩ := List.append_inj' split rfl
    cases same
    obtain ⟨offset, before, start, -, full⟩ := Tiles.append.mp last
    exact ⟨offset, start, before.le, full⟩

/-- No region is in an empty block. -/
theorem skipEmpty {p : BlockPtr} {b : Slab β} {rest : Deck β}
    (tiles : TilesDeck ((p, b) :: rest) regions) (empty : b.leftOffset = b.rightOffset) :
    TilesDeck rest regions := by
  obtain ⟨here, there, rfl, first, onward⟩ := tiles
  cases here with
  | nil => exact onward
  | cons r here =>
      have past := first.2.2.le
      have positive := first.2.1
      omega

/-- Without regions the blocks are empty. -/
theorem first_empty {p : BlockPtr} {b : Slab β} {rest : Deck β}
    (tiles : TilesDeck ((p, b) :: rest) []) : b.leftOffset = b.rightOffset := by
  obtain ⟨here, there, split, first, -⟩ := tiles
  obtain ⟨rfl, -⟩ := List.append_eq_nil_iff.mp split.symm
  exact first

/-- A block that has the first region is not empty. -/
theorem first_nonempty {p : BlockPtr} {b : Slab β} {rest : Deck β} {r : Region}
    (tiles : TilesDeck ((p, b) :: rest) (r :: regions)) (missing : p ∉ ptrs rest)
    (block : r.ptr.block = p) : b.leftOffset ≠ b.rightOffset := by
  intro empty
  have inRest := (tiles.skipEmpty empty).block_mem (List.mem_cons_self ..)
  exact missing (block ▸ inRest)

/-- After a reset no region is left. -/
theorem restart (deck : Deck β) (offset : ℕ) : TilesDeck (deck.restart offset) [] := by
  induction deck with
  | nil => rfl
  | cons entry rest ih => exact ⟨[], [], rfl, rfl, ih⟩

/-- Without the regions of the first block, the others tile the rest. -/
theorem dropFirst {p : BlockPtr} {b : Slab β} {rest : Deck β}
    (tiles : TilesDeck ((p, b) :: rest) regions) (missing : p ∉ ptrs rest) :
    TilesDeck rest (regions.filter fun r => r.ptr.block ∈ ptrs rest) := by
  obtain ⟨here, there, rfl, first, onward⟩ := tiles
  have none : here.filter (fun r => r.ptr.block ∈ ptrs rest) = [] :=
    List.filter_eq_nil_iff.mpr fun r member => by
      simpa [(first.inside member).1] using missing
  have all : there.filter (fun r => r.ptr.block ∈ ptrs rest) = there :=
    List.filter_eq_self.mpr fun r member => by simpa using onward.block_mem member
  rwa [List.filter_append, none, all]

/-- Without the regions of the last block, the others tile the front. -/
theorem dropLast {p : BlockPtr} {b : Slab β} {front : Deck β}
    (tiles : TilesDeck (front ++ [(p, b)]) regions) (missing : p ∉ ptrs front) :
    TilesDeck front (regions.filter fun r => r.ptr.block ∈ ptrs front) := by
  obtain ⟨here, there, rfl, onward, last⟩ := tilesDeck_append.mp tiles
  have all : here.filter (fun r => r.ptr.block ∈ ptrs front) = here :=
    List.filter_eq_self.mpr fun r member => by simpa using onward.block_mem member
  have none : there.filter (fun r => r.ptr.block ∈ ptrs front) = [] :=
    List.filter_eq_nil_iff.mpr fun r member => by
      simpa [((tilesDeck_singleton.mp last).inside member).1] using missing
  rwa [List.filter_append, all, none, List.append_nil]

end TilesDeck

/-- An allocation at the head puts its region in front of the others. -/
theorem AllocHead.tiles {arena : Arena β} {size : ℕ} {deck deck' : Deck β} {ptr : Ptr}
    {regions : List Region} (alloc : AllocHead arena size deck ptr deck') (positive : 0 < size)
    (bound : size ≤ arena.blockSize) (tiles : TilesDeck deck regions) :
    TilesDeck deck' (⟨ptr, size⟩ :: regions) := by
  cases alloc with
  | fits room =>
      obtain ⟨here, there, split, first, onward⟩ := tiles
      refine ⟨⟨_, size⟩ :: here, there, by simp [split], ⟨rfl, positive, ?_⟩, onward⟩
      rwa [Nat.sub_add_cancel room]
  | opens full =>
      refine ⟨[_], _, rfl, ⟨rfl, positive, ?_⟩, tiles⟩
      exact Nat.sub_add_cancel bound

/-- An allocation at the tail puts its region behind the others. -/
theorem AllocTail.tiles {arena : Arena β} {size : ℕ} {deck deck' : Deck β} {ptr : Ptr}
    {regions : List Region} (alloc : AllocTail arena size deck ptr deck') (positive : 0 < size)
    (tiles : TilesDeck deck regions) : TilesDeck deck' (regions ++ [⟨ptr, size⟩]) := by
  cases alloc with
  | @fits p b front room =>
      obtain ⟨here, there, split, onward, last⟩ := tilesDeck_append.mp tiles
      refine tilesDeck_append.mpr
        ⟨here, there ++ [⟨⟨p, b.rightOffset⟩, size⟩], by simp [split], onward, ?_⟩
      exact tilesDeck_singleton.mpr ((tilesDeck_singleton.mp last).concat positive)
  | opens full =>
      refine tilesDeck_append.mpr ⟨_, [_], rfl, tiles, tilesDeck_singleton.mpr ?_⟩
      exact ⟨rfl, positive, Nat.zero_add _⟩

/-- Regions tile the used ranges, whatever the blocks hold. -/
theorem TilesDeck.modify {deck : Deck β} {regions : List Region} (tiles : TilesDeck deck regions)
    (p : BlockPtr) {g : Slab β → Slab β} (left_g : ∀ b, (g b).leftOffset = b.leftOffset)
    (right_g : ∀ b, (g b).rightOffset = b.rightOffset) : TilesDeck (deck.modify p g) regions := by
  induction deck generalizing regions with
  | nil => exact tiles
  | cons entry rest ih =>
      obtain ⟨here, there, rfl, first, onward⟩ := tiles
      refine ⟨here, there, rfl, ?_, ih onward⟩
      split
      · rwa [left_g, right_g]
      · exact first

/-- So many places of a width, one after the other. -/
def placesFrom (width : ℕ) : Ptr → ℕ → List Ptr
  | _, 0 => []
  | ptr, n + 1 => ptr :: placesFrom width ⟨ptr.block, ptr.offset + width⟩ n

@[simp] theorem length_placesFrom (width : ℕ) (ptr : Ptr) (n : ℕ) :
    (placesFrom width ptr n).length = n := by
  induction n generalizing ptr with
  | zero => rfl
  | succ n ih => simp [placesFrom, ih]

/-- Each place is a number of widths from the first one. -/
theorem mem_placesFrom {width n : ℕ} {ptr place : Ptr} :
    place ∈ placesFrom width ptr n ↔ ∃ k < n, place = ⟨ptr.block, ptr.offset + k * width⟩ := by
  induction n generalizing ptr with
  | zero => simp [placesFrom]
  | succ n ih =>
      rw [placesFrom, List.mem_cons, ih]
      constructor
      · rintro (rfl | ⟨k, less, rfl⟩)
        · exact ⟨0, Nat.succ_pos n, by simp⟩
        · refine ⟨k + 1, Nat.succ_lt_succ less, ?_⟩
          rw [Int.natCast_add, Int.add_mul, Int.add_comm (_ * _), ← Int.add_assoc]
          simp
      · rintro ⟨k, less, rfl⟩
        cases k with
        | zero => exact .inl (by simp)
        | succ k =>
            refine .inr ⟨k, Nat.lt_of_succ_lt_succ less, ?_⟩
            rw [Int.natCast_add, Int.add_mul, Int.add_comm (_ * _), ← Int.add_assoc]
            simp

/-- The region of a place. -/
def cell (width : ℕ) (ptr : Ptr) : Region := ⟨ptr, width⟩

/-- A region of many cells is as good as the cells. -/
theorem Tiles.split {p : BlockPtr} {lo hi offset width n : ℕ} {regions : List Region}
    (positive : 0 < width) (tiles : Tiles p lo (regions ++ [⟨⟨p, offset⟩, n * width⟩]) hi) :
    Tiles p lo (regions ++ (placesFrom width ⟨p, offset⟩ n).map (cell width)) hi := by
  obtain ⟨mid, front, start, -, stop⟩ := Tiles.append.mp tiles
  refine Tiles.append.mpr ⟨mid, front, ?_⟩
  obtain rfl : offset = mid := Int.ofNat.inj (congrArg Ptr.offset start)
  replace stop : offset + n * width = hi := stop
  clear tiles front start
  induction n generalizing offset with
  | zero =>
      change offset = hi
      simpa using stop
  | succ n ih =>
      refine ⟨rfl, positive, ?_⟩
      rw [Nat.succ_mul] at stop
      exact ih (show offset + width + n * width = hi by omega)

theorem TilesDeck.splitLast {deck : Deck β} {p : BlockPtr} {offset width n : ℕ}
    {regions : List Region} (positive : 0 < width)
    (tiles : TilesDeck deck (regions ++ [⟨⟨p, offset⟩, n * width⟩])) :
    TilesDeck deck (regions ++ (placesFrom width ⟨p, offset⟩ n).map (cell width)) := by
  induction deck generalizing regions with
  | nil =>
      have none : regions ++ [⟨⟨p, offset⟩, n * width⟩] = [] := tiles
      simp at none
  | cons entry rest ih =>
      obtain ⟨q, b⟩ := entry
      obtain ⟨here, there, split, first, onward⟩ := tiles
      rcases List.eq_nil_or_concat' there with rfl | ⟨there, last, rfl⟩
      · obtain rfl : regions ++ [⟨⟨p, offset⟩, n * width⟩] = here := by simpa using split
        obtain rfl : p = q := (first.inside (r := ⟨⟨p, offset⟩, n * width⟩) (by simp)).1
        exact ⟨_, [], (List.append_nil _).symm, first.split positive, onward⟩
      · rw [← List.append_assoc] at split
        obtain ⟨rfl, same⟩ := List.append_inj' split rfl
        cases same
        exact ⟨here, _, List.append_assoc .., first, ih onward⟩

/-- Regions of one width fill a range in one way. -/
theorem Tiles.unique {p : BlockPtr} {lo hi width : ℕ} {one two : List Region}
    (tiles : Tiles p lo one hi) (tiles' : Tiles p lo two hi) (even : ∀ r ∈ one, r.size = width)
    (even' : ∀ r ∈ two, r.size = width) : one = two := by
  induction one generalizing lo two with
  | nil =>
      cases two with
      | nil => rfl
      | cons r two =>
          obtain ⟨-, positive, onward⟩ := tiles'
          have stop : lo = hi := tiles
          have bound := onward.le
          omega
  | cons r one ih =>
      obtain ⟨start, positive, onward⟩ := tiles
      cases two with
      | nil =>
          have stop : lo = hi := tiles'
          have bound := onward.le
          omega
      | cons r' two =>
          obtain ⟨start', -, onward'⟩ := tiles'
          obtain ⟨size, evenRest⟩ := List.forall_mem_cons.mp even
          obtain ⟨size', evenRest'⟩ := List.forall_mem_cons.mp even'
          have same : r = r' := by
            cases r
            cases r'
            simp only at start start' size size'
            simp [start, start', size, size']
          subst same
          rw [ih onward onward' evenRest evenRest']

/-- Regions of one width fill the used ranges of the blocks in one way. -/
theorem TilesDeck.unique {deck : Deck β} {width : ℕ} {one two : List Region}
    (tiles : TilesDeck deck one) (tiles' : TilesDeck deck two) (even : ∀ r ∈ one, r.size = width)
    (even' : ∀ r ∈ two, r.size = width) : one = two := by
  induction deck generalizing one two with
  | nil =>
      have none : one = [] := tiles
      have none' : two = [] := tiles'
      rw [none, none']
  | cons entry rest ih =>
      obtain ⟨p, b⟩ := entry
      obtain ⟨here, there, rfl, first, onward⟩ := tiles
      obtain ⟨here', there', rfl, first', onward'⟩ := tiles'
      obtain ⟨evenHere, evenThere⟩ := List.forall_mem_append.mp even
      obtain ⟨evenHere', evenThere'⟩ := List.forall_mem_append.mp even'
      rw [first.unique first' evenHere evenHere', ih onward onward' evenThere evenThere']
/-! ## The record of what is handed out -/

/-- The end of an arena at which a region was allocated. -/
inductive ArenaEnd where
  | head
  | tail
deriving DecidableEq, Repr

/-- A call that handed out a region. -/
structure Handed where
  side : ArenaEnd
  region : Region

/-- The regions handed out at one end, newest first. -/
def handedAt (side : ArenaEnd) (handed : List Handed) : List Region :=
  (handed.filter fun h => h.side = side).map Handed.region

/-- Head allocations newest first, then tail allocations oldest first. -/
def dequeOrder (handed : List Handed) : List Region :=
  handedAt .head handed ++ (handedAt .tail handed).reverse

theorem dequeOrder_head (r : Region) (handed : List Handed) :
    dequeOrder (⟨.head, r⟩ :: handed) = r :: dequeOrder handed := by
  simp [dequeOrder, handedAt]

theorem dequeOrder_tail (r : Region) (handed : List Handed) :
    dequeOrder (⟨.tail, r⟩ :: handed) = dequeOrder handed ++ [r] := by
  simp [dequeOrder, handedAt]

theorem mem_dequeOrder {handed : List Handed} {h : Handed} (member : h ∈ handed) :
    h.region ∈ dequeOrder handed := by
  obtain ⟨side, region⟩ := h
  cases side with
  | head => exact List.mem_append_left _ (List.mem_map.mpr ⟨_, by simpa using member, rfl⟩)
  | tail =>
      refine List.mem_append_right _ (List.mem_reverse.mpr ?_)
      exact List.mem_map.mpr ⟨_, by simpa using member, rfl⟩

theorem dequeOrder_filter (handed : List Handed) (keep : Region → Bool) :
    dequeOrder (handed.filter fun h => keep h.region) = (dequeOrder handed).filter keep := by
  induction handed with
  | nil => rfl
  | cons h rest ih =>
      obtain ⟨side, region⟩ := h
      cases side <;> cases kept : keep region <;>
        simp [dequeOrder_head, dequeOrder_tail, kept, ih]

/-- An arena with the record of the regions it handed out since the last reset,
newest first, in blocks that were not freed. -/
structure Traced (β : Type) where
  arena : Arena β
  handed : List Handed

/-- What can be done with an arena. -/
inductive ArenaOp where
  | allocAtHead (size : ℕ)
  | allocAtTail (size : ℕ)
  | deallocHeadBlock
  | deallocTailBlock
  | reset

/-- The sizes an arena accepts. -/
def ArenaOp.Legal (blockSize : ℕ) : ArenaOp → Prop
  | .allocAtHead size => 0 < size ∧ size ≤ blockSize
  | .allocAtTail size => 0 < size ∧ size ≤ blockSize
  | _ => True

/-- The record without the regions of freed blocks. -/
def stillAllocated (arena : Arena β) (handed : List Handed) : List Handed :=
  handed.filter fun h => (arena.heap.block h.region.ptr.block).isSome

/-- One operation, with the region it hands out. -/
def arenaStep : ArenaOp → Traced β → Option (Option Ptr × Traced β)
  | .allocAtHead size, t => do
      let (ptr, arena) ← lfArenaAllocAtHead t.arena size
      some (some ptr, ⟨arena, ⟨.head, ⟨ptr, size⟩⟩ :: t.handed⟩)
  | .allocAtTail size, t => do
      let (ptr, arena) ← lfArenaAllocAtTail t.arena size
      some (some ptr, ⟨arena, ⟨.tail, ⟨ptr, size⟩⟩ :: t.handed⟩)
  | .deallocHeadBlock, t => do
      let (_, arena) ← lfDeallocArenaHeadBlock t.arena
      some (none, ⟨arena, stillAllocated arena t.handed⟩)
  | .deallocTailBlock, t => do
      let (_, arena) ← lfDeallocArenaTailBlock t.arena
      some (none, ⟨arena, stillAllocated arena t.handed⟩)
  | .reset, t => do
      let arena ← lfResetArena t.arena
      some (none, ⟨arena, []⟩)

/-! ## The invariant -/

/-- The blocks of the arena, and the regions that tile them. -/
structure Traced.Tiled (t : Traced β) (blockSize : ℕ) (deck : Deck β) : Prop where
  rep : Represents t.arena deck
  same : t.arena.blockSize = blockSize
  bounded : ∀ entry ∈ deck, entry.2.rightOffset ≤ blockSize
  tiles : TilesDeck deck (dequeOrder t.handed)

/-- A used range is never inverted: regions tile it. -/
theorem TilesDeck.left_le {deck : Deck β} {regions : List Region} (tiles : TilesDeck deck regions)
    {entry : BlockPtr × Slab β} (member : entry ∈ deck) :
    entry.2.leftOffset ≤ entry.2.rightOffset := by
  obtain ⟨front, back, rfl⟩ := List.append_of_mem member
  obtain ⟨-, -, -, -, here, there, -, first, -⟩ := tilesDeck_append.mp tiles
  exact first.le

namespace Traced.Tiled

variable {t : Traced β} {blockSize : ℕ} {deck : Deck β}

theorem allocAtHead (tiled : t.Tiled blockSize deck) {size : ℕ} (positive : 0 < size)
    (bound : size ≤ blockSize) :
    ∃ answer t', arenaStep (.allocAtHead size) t = some (answer, t') ∧
      ∃ deck', t'.Tiled blockSize deck' := by
  obtain ⟨ptr, arena, deck', alloc, change, rep, keeps, -⟩ :=
    tiled.rep.allocAtHead positive (tiled.same ▸ bound)
  refine ⟨some ptr, ⟨arena, ⟨.head, ⟨ptr, size⟩⟩ :: t.handed⟩, by simp [arenaStep, alloc], deck',
    rep, keeps.blockSize.trans tiled.same, ?_, ?_⟩
  · cases change with
    | fits room => exact List.forall_mem_cons.mpr (List.forall_mem_cons.mp tiled.bounded)
    | opens full => exact List.forall_mem_cons.mpr ⟨le_of_eq tiled.same, tiled.bounded⟩
  · rw [dequeOrder_head]
    exact change.tiles positive (tiled.same ▸ bound) tiled.tiles

theorem allocAtTail (tiled : t.Tiled blockSize deck) {size : ℕ} (positive : 0 < size)
    (bound : size ≤ blockSize) :
    ∃ answer t', arenaStep (.allocAtTail size) t = some (answer, t') ∧
      ∃ deck', t'.Tiled blockSize deck' := by
  obtain ⟨ptr, arena, deck', alloc, change, rep, keeps, -⟩ :=
    tiled.rep.allocAtTail positive (tiled.same ▸ bound)
  refine ⟨some ptr, ⟨arena, ⟨.tail, ⟨ptr, size⟩⟩ :: t.handed⟩, by simp [arenaStep, alloc], deck',
    rep, keeps.blockSize.trans tiled.same, ?_, ?_⟩
  · have bounded := change.bounded (tiled.same ▸ bound) tiled.rep.sized (tiled.same ▸ tiled.bounded)
    rwa [tiled.same] at bounded
  · rw [dequeOrder_tail]
    exact change.tiles positive tiled.tiles

/-- What stays of the record when a block is freed: the regions in the others. -/
theorem stillAllocated_eq {arena : Arena β} {deck' : Deck β} {p : BlockPtr}
    (tiles : TilesDeck deck (dequeOrder t.handed)) (rep : Represents arena deck')
    (others : ∀ q ∈ ptrs deck, q = p ∨ q ∈ ptrs deck') (freed : arena.heap.block p = none) :
    dequeOrder (stillAllocated arena t.handed) =
      (dequeOrder t.handed).filter fun r => r.ptr.block ∈ ptrs deck' := by
  rw [stillAllocated, dequeOrder_filter t.handed fun r => (arena.heap.block r.ptr.block).isSome]
  apply List.filter_congr
  intro r member
  by_cases kept : r.ptr.block ∈ ptrs deck'
  · obtain ⟨entry, inDeck, same⟩ := List.mem_map.mp kept
    obtain ⟨node, found, -⟩ := rep.lookup (p := entry.1) (b := entry.2) inDeck
    rw [← same] at kept ⊢
    rw [found, Option.isSome_some, decide_eq_true kept]
  · have gone : r.ptr.block = p := (others _ (tiles.block_mem member)).resolve_right kept
    simp only [gone] at kept ⊢
    simp [freed, kept]

/-- When no block is freed, the record stays as it is. -/
theorem stillAllocated_self (tiled : t.Tiled blockSize deck) :
    stillAllocated t.arena t.handed = t.handed := by
  apply List.filter_eq_self.mpr
  intro h member
  obtain ⟨entry, inDeck, same, -⟩ := tiled.tiles.inside (mem_dequeOrder member)
  obtain ⟨node, found, -⟩ := tiled.rep.lookup (p := entry.1) (b := entry.2) inDeck
  simp [same, found]

theorem deallocHeadBlock (tiled : t.Tiled blockSize deck) :
    ∃ answer t', arenaStep .deallocHeadBlock t = some (answer, t') ∧
      ∃ deck', t'.Tiled blockSize deck' := by
  obtain ⟨⟨p, b⟩, rest, rfl⟩ := List.exists_cons_of_ne_nil tiled.rep.nonempty
  cases rest with
  | nil =>
      refine ⟨none, t, ?_, _, tiled⟩
      simp [arenaStep, tiled.rep.deallocHead_single, tiled.stillAllocated_self]
  | cons next rest =>
      obtain ⟨q, c⟩ := next
      obtain ⟨arena, dealloc, rep, keeps, -, freed⟩ := tiled.rep.deallocHead
      refine ⟨none, ⟨arena, stillAllocated arena t.handed⟩, by simp [arenaStep, dealloc], _, rep,
        keeps.blockSize.trans tiled.same, (List.forall_mem_cons.mp tiled.bounded).2, ?_⟩
      have others : ∀ r ∈ ptrs ((p, b) :: (q, c) :: rest), r = p ∨ r ∈ ptrs ((q, c) :: rest) :=
        fun r member => List.mem_cons.mp member
      rw [stillAllocated_eq tiled.tiles rep others freed]
      exact tiled.tiles.dropFirst (List.nodup_cons.mp tiled.rep.distinct).1

theorem deallocTailBlock (tiled : t.Tiled blockSize deck) :
    ∃ answer t', arenaStep .deallocTailBlock t = some (answer, t') ∧
      ∃ deck', t'.Tiled blockSize deck' := by
  obtain ⟨front, ⟨p, b⟩, rfl⟩ := List.eq_nil_or_concat' deck |>.resolve_left tiled.rep.nonempty
  rcases List.eq_nil_or_concat' front with rfl | ⟨front, ⟨q, c⟩, rfl⟩
  · refine ⟨none, t, ?_, _, tiled⟩
    simp [arenaStep, Represents.deallocTail_single tiled.rep, tiled.stillAllocated_self]
  · obtain ⟨arena, dealloc, rep, keeps, -, freed⟩ := tiled.rep.deallocTail
    refine ⟨none, ⟨arena, stillAllocated arena t.handed⟩, by simp [arenaStep, dealloc], _, rep,
      keeps.blockSize.trans tiled.same, (List.forall_mem_append.mp tiled.bounded).1, ?_⟩
    have others : ∀ r ∈ ptrs (front ++ [(q, c)] ++ [(p, b)]),
        r = p ∨ r ∈ ptrs (front ++ [(q, c)]) := by
      intro r member
      rw [ptrs, List.map_append, List.mem_append] at member
      exact member.symm.imp List.mem_singleton.mp id
    have missing : p ∉ ptrs (front ++ [(q, c)]) := by
      have distinct := tiled.rep.distinct
      rw [ptrs, List.map_append] at distinct
      exact fun member => List.disjoint_of_nodup_append distinct member (by simp)
    rw [stillAllocated_eq tiled.tiles rep others freed]
    exact tiled.tiles.dropLast missing

theorem reset (tiled : t.Tiled blockSize deck) :
    ∃ answer t', arenaStep .reset t = some (answer, t') ∧ ∃ deck', t'.Tiled blockSize deck' := by
  obtain ⟨arena, reset, rep, keeps, -⟩ := tiled.rep.reset
  refine ⟨none, ⟨arena, []⟩, by simp [arenaStep, reset], _, rep,
    keeps.blockSize.trans tiled.same, ?_, TilesDeck.restart ..⟩
  refine List.forall_mem_map.mpr ?_
  intro entry member
  exact tiled.same ▸ startOffset_le ..

/-- **One operation.** Every legal operation succeeds and keeps the invariant. -/
theorem step (tiled : t.Tiled blockSize deck) {op : ArenaOp} (legal : op.Legal blockSize) :
    ∃ answer t', arenaStep op t = some (answer, t') ∧ ∃ deck', t'.Tiled blockSize deck' := by
  cases op with
  | allocAtHead size => exact tiled.allocAtHead legal.1 legal.2
  | allocAtTail size => exact tiled.allocAtTail legal.1 legal.2
  | deallocHeadBlock => exact tiled.deallocHeadBlock
  | deallocTailBlock => exact tiled.deallocTailBlock
  | reset => exact tiled.reset

/-- A new arena has handed out nothing. -/
theorem init (arena : Arena β) (positive : 0 < arena.blockSize) :
    ∃ start deck, lfInitArena arena = some start ∧
      (Traced.mk start []).Tiled arena.blockSize deck := by
  obtain ⟨start, init, rep, same, -⟩ := lfInitArena_spec arena positive
  refine ⟨start, _, init, rep, same, ?_, tilesDeck_singleton.mpr rfl⟩
  exact List.forall_mem_singleton.mpr (startOffset_le ..)

end Traced.Tiled

/-- The arena refuses sizes that are not legal. -/
theorem ArenaOp.legal_of_step {op : ArenaOp} {t t' : Traced β} {answer : Option Ptr}
    (taken : arenaStep op t = some (answer, t')) : op.Legal t.arena.blockSize := by
  have accepted : ∀ size, ¬ (size = 0 ∨ t.arena.blockSize < size) →
      0 < size ∧ size ≤ t.arena.blockSize := by omega
  cases op with
  | allocAtHead size =>
      refine accepted size ?_
      intro refused
      simp [arenaStep, lfArenaAllocAtHead, refused] at taken
  | allocAtTail size =>
      refine accepted size ?_
      intro refused
      simp [arenaStep, lfArenaAllocAtTail, refused] at taken
  | deallocHeadBlock => trivial
  | deallocTailBlock => trivial
  | reset => trivial

/-- Every arena that operations lead to has the invariant. -/
theorem Traced.Tiled.of_run {arena start : Arena β} (init : lfInitArena arena = some start)
    {ops : List ArenaOp} {answers : List (Option Ptr)} {t : Traced β}
    (runs : run arenaStep ops ⟨start, []⟩ = some (answers, t)) :
    ∃ deck, t.Tiled arena.blockSize deck := by
  have positive := lfInitArena_accepts init
  obtain ⟨start', deck, init', tiled⟩ := Traced.Tiled.init arena positive
  obtain rfl : start = start' := Option.some.inj (init.symm.trans init')
  refine run_invariant (fun t => ∃ deck, Traced.Tiled t arena.blockSize deck) ?_ ⟨deck, tiled⟩ runs
  rintro op t answer t' ⟨deck, tiled⟩ taken
  have legal := ArenaOp.legal_of_step taken
  rw [tiled.same] at legal
  obtain ⟨answer', t'', taken', tiled'⟩ := tiled.step legal
  obtain ⟨-, rfl⟩ := Prod.mk.inj (Option.some.inj (taken.symm.trans taken'))
  exact tiled'

/-! ## Every run -/

/-- **An arena is a deque of regions.** After any operations on a new arena the
blocks form one chain, their used ranges are inside the blocks, and the regions
that are handed out tile the used ranges in deque order. -/
theorem arena_is_deque_of_regions (arena : Arena β) (positive : 0 < arena.blockSize)
    (ops : List ArenaOp) (legal : ∀ op ∈ ops, op.Legal arena.blockSize) :
    ∃ start answers t deck, lfInitArena arena = some start ∧
      run arenaStep ops ⟨start, []⟩ = some (answers, t) ∧
      Represents t.arena deck ∧ 1 ≤ t.arena.blockCount ∧
      (∀ entry ∈ deck, entry.2.leftOffset ≤ entry.2.rightOffset ∧
        entry.2.rightOffset ≤ entry.2.size ∧ entry.2.size = arena.blockSize) ∧
      TilesDeck deck (dequeOrder t.handed) ∧ (dequeOrder t.handed).Pairwise Region.Apart := by
  obtain ⟨start, deck₀, init, tiled₀⟩ := Traced.Tiled.init arena positive
  obtain ⟨answers, t, runs, deck, tiled⟩ :=
    run_keeps (fun t => ∃ deck, Traced.Tiled t arena.blockSize deck) (ArenaOp.Legal arena.blockSize)
      (fun op t legal tiled => tiled.choose_spec.step legal) legal ⟨deck₀, tiled₀⟩
  refine ⟨start, answers, t, deck, init, runs, tiled.rep, ?_, ?_, tiled.tiles,
    tiled.tiles.pairwise tiled.rep.distinct⟩
  · rw [tiled.rep.count]
    exact List.length_pos_iff.mpr tiled.rep.nonempty
  · intro entry member
    have sized : entry.2.size = arena.blockSize := (tiled.rep.sized entry member).trans tiled.same
    exact ⟨tiled.tiles.left_le member, sized ▸ tiled.bounded entry member, sized⟩

/-- An arena of eight bytes a block, filled from both ends and from the middle. -/
theorem arena_is_deque_of_regions_eight :
    ∃ start answers t deck,
      lfInitArena (Arena.declared (Allocator.bump (0 : UInt8)) 8 .middle) = some start ∧
      run arenaStep [.allocAtHead 3, .allocAtTail 4, .allocAtTail 1, .deallocHeadBlock]
        ⟨start, []⟩ = some (answers, t) ∧
      Represents t.arena deck ∧ 1 ≤ t.arena.blockCount ∧
      (∀ entry ∈ deck, entry.2.leftOffset ≤ entry.2.rightOffset ∧
        entry.2.rightOffset ≤ entry.2.size ∧ entry.2.size = 8) ∧
      TilesDeck deck (dequeOrder t.handed) ∧ (dequeOrder t.handed).Pairwise Region.Apart :=
  arena_is_deque_of_regions (Arena.declared (Allocator.bump 0) 8 .middle) (by decide)
    [.allocAtHead 3, .allocAtTail 4, .allocAtTail 1, .deallocHeadBlock]
    (by simp [ArenaOp.Legal, Arena.declared])

end LowFlow
