import LowFlow.Memory.ArenaSize
import LowFlow.Memory.ListLookups

/-!
# The arrays of a list

Each call of `lf_alloc_list_elems` hands out an array of elements. The arena is asked
for what is left of the product `qtt * elem_padded_size` in a `size_t`, and the number
of elements grows by `qtt` itself. So the arrays have room, lie apart and are counted
exactly when no product wraps around, nor the number of elements
(`hasRoomFor_iff`).
-/

set_option autoImplicit false

namespace LowFlow

open Library

variable {β : Type}

/-! ## Arrays -/

/-- The arrays that calls were answered with. -/
def arrays (width : ℕ) : List AllocCall → List Ptr → List Region :=
  List.zipWith fun call elem => ⟨elem, call.qtt * width⟩

/-- The number of elements that calls ask for. -/
def totalQtt (calls : List AllocCall) : ℕ :=
  calls.foldr (fun call n => call.qtt + n) 0

/-- The arrays lie inside the used ranges of the blocks and apart from each other, and
`elem_count`, a `size_t`, times the padded size is the number of live bytes. -/
def LFList.HasRoomFor (list : LFList β) (arrays : List Region) : Prop :=
  ∃ deck, blocksFrom list.arena.heap list.arena.blockCount list.arena.headBlock = some deck ∧
    (∀ array ∈ arrays, ∃ b, (array.ptr.block, b) ∈ deck ∧ (b.leftOffset : ℤ) ≤ array.ptr.offset ∧
      array.ptr.offset + array.size ≤ b.rightOffset ∧ b.rightOffset ≤ b.data.extent) ∧
    arrays.Pairwise Region.Apart ∧
    sizeWrap list.elemCount * list.elemPaddedSize = deck.liveBytes

@[simp] theorem arrays_cons (width : ℕ) (call : AllocCall) (calls : List AllocCall) (elem : Ptr)
    (answers : List Ptr) : arrays width (call :: calls) (elem :: answers) =
      ⟨elem, call.qtt * width⟩ :: arrays width calls answers := rfl

@[simp] theorem totalQtt_cons (call : AllocCall) (calls : List AllocCall) :
    totalQtt (call :: calls) = call.qtt + totalQtt calls := rfl

/-- Each call of a run has its array. -/
theorem exists_array {t t' : ListInUse β} {calls : List AllocCall} {answers : List Ptr}
    (runs : run allocCall calls t = some (answers, t')) (width : ℕ) {call : AllocCall}
    (member : call ∈ calls) : ∃ elem, ⟨elem, call.qtt * width⟩ ∈ arrays width calls answers := by
  induction calls generalizing t answers with
  | nil => cases member
  | cons first calls ih =>
      obtain ⟨elem, t₁, answers, -, onward, rfl⟩ := run_cons_iff.mp runs
      rcases List.mem_cons.mp member with rfl | later
      · exact ⟨elem, List.mem_cons_self ..⟩
      · obtain ⟨elem', inArrays⟩ := ih onward later
        exact ⟨elem', List.mem_cons_of_mem _ inArrays⟩

/-! ## The invariant -/

/-- The arrays tile the used ranges of the blocks, and the elements are counted. -/
structure LFList.Stores (list : LFList β) (deck : Deck β) (arrays : List Region) : Prop where
  rep : Represents list.arena deck
  tiles : TilesDeck deck arrays
  bounded : ∀ entry ∈ deck, entry.2.rightOffset ≤ list.arena.blockSize
  live : deck.liveBytes = list.elemCount * list.elemPaddedSize

namespace LFList.Stores

variable {deck deck' : Deck β} {regions : List Region}

theorem init {declared start : LFList β} (init : lfInitList declared = some start) :
    ∃ deck, start.Stores deck [] := by
  obtain ⟨unused, -⟩ := LFList.Unused.init init
  obtain ⟨p, b, rep, left, right⟩ := unused.block
  refine ⟨[(p, b)], rep, tilesDeck_singleton.mpr (left.trans right.symm), ?_, ?_⟩
  · exact List.forall_mem_singleton.mpr (right ▸ startOffset_le ..)
  · simp [unused.count, left, right]

/-- A call whose product does not wrap around puts its array behind the others. -/
theorem alloc {t t' : ListInUse β} (stores : t.list.Stores deck regions) {call : AllocCall}
    {elem : Ptr} (grows : call.Grows t deck elem t' deck')
    (small : call.qtt * t.list.elemPaddedSize < sizeModulus) :
    t'.list.Stores deck' (regions ++ [⟨elem, call.qtt * t.list.elemPaddedSize⟩]) := by
  have total := sizeWrap_of_lt small
  have ordered : ∀ entry ∈ deck, entry.2.leftOffset ≤ entry.2.rightOffset :=
    fun _ member => stores.tiles.left_le member
  have tiles := grows.change.tiles grows.some_bytes stores.tiles
  have live := grows.change.liveBytes ordered
  rw [total] at tiles live
  refine ⟨grows.rep, tiles, ?_, ?_⟩
  · rw [grows.keeps.blockSize]
    exact grows.change.bounded grows.bound stores.rep.sized stores.bounded
  · rw [live, stores.live, grows.count, grows.padded, Nat.add_mul]

/-- So do the calls of a run. -/
theorem run {t t' : ListInUse β} (stores : t.list.Stores deck regions) {calls : List AllocCall}
    {answers : List Ptr} (runs : Library.run allocCall calls t = some (answers, t'))
    (small : ∀ call ∈ calls, call.qtt * t.list.elemPaddedSize < sizeModulus) :
    ∃ deck', t'.list.Stores deck' (regions ++ arrays t.list.elemPaddedSize calls answers) ∧
      t'.list.elemCount = t.list.elemCount + totalQtt calls := by
  induction calls generalizing t deck regions answers with
  | nil =>
      cases runs
      exact ⟨deck, by simpa [arrays] using stores, rfl⟩
  | cons call calls ih =>
      obtain ⟨elem, t₁, answers, called, onward, rfl⟩ := run_cons_iff.mp runs
      obtain ⟨here, later⟩ := List.forall_mem_cons.mp small
      obtain ⟨deck₁, grows⟩ := allocCall_grows stores.rep called
      have later' : ∀ call ∈ calls, call.qtt * t₁.list.elemPaddedSize < sizeModulus :=
        fun call member => grows.padded ▸ later call member
      obtain ⟨deck', stores', count⟩ := ih (stores.alloc grows here) onward later'
      refine ⟨deck', ?_, ?_⟩
      · rw [grows.padded, List.append_assoc] at stores'
        exact stores'
      · rw [count, grows.count, totalQtt_cons, Nat.add_assoc]

/-- Stored arrays have room. -/
theorem hasRoomFor {list : LFList β} (stores : list.Stores deck regions)
    (small : list.elemCount < sizeModulus) : list.HasRoomFor regions := by
  refine ⟨deck, stores.rep.blocksFrom_eq, ?_,
    stores.tiles.pairwise stores.rep.distinct, ?_⟩
  · intro array member
    obtain ⟨⟨p, b⟩, inDeck, block, low, high⟩ := stores.tiles.inside member
    refine ⟨b, block ▸ inDeck, low, high, ?_⟩
    rw [stores.rep.extent (p, b) inDeck]
    exact stores.bounded (p, b) inDeck
  · rw [sizeWrap_of_lt small, stores.live]

end LFList.Stores

/-! ## Room for every array -/

/-- An array with room is no longer than a block, so its product did not wrap around. -/
theorem LFList.HasRoomFor.small {declared start : LFList β}
    (init : lfInitList declared = some start)
    {calls : List AllocCall} {answers : List Ptr} {t : ListInUse β}
    (runs : run allocCall calls ⟨start, []⟩ = some (answers, t))
    (room : t.list.HasRoomFor (arrays start.elemPaddedSize calls answers)) :
    ∀ call ∈ calls, call.qtt * start.elemPaddedSize < sizeModulus := by
  obtain ⟨unused, -, -, -, -, -, blocks, -⟩ := LFList.Unused.init init
  obtain ⟨deck₀, stores⟩ := LFList.Stores.init init
  obtain ⟨⟨deck, rep⟩, -, -, same⟩ :=
    run_allocCall (t := ⟨start, []⟩) stores.rep unused.count runs
  obtain ⟨deck', found, inside, -, -⟩ := room
  rw [rep.blocksFrom_eq] at found
  cases found
  intro call member
  obtain ⟨elem, inArrays⟩ := exists_array runs start.elemPaddedSize member
  obtain ⟨b, inDeck, low, high, bound⟩ := inside _ inArrays
  have extent : b.data.extent = t.list.arena.blockSize := rep.extent _ inDeck
  have limit := sizeWrap_lt (start.elemQttInBlock * start.elemPaddedSize)
  rw [← blocks, ← show t.list.arena.blockSize = start.arena.blockSize from same, ← extent] at limit
  dsimp only at low high
  omega

/-- **When the arrays have room.** After a run of calls every array has room for its
elements, no two overlap and the elements are counted, when no product wraps around,
nor the number of elements, and only then. -/
theorem hasRoomFor_iff {declared start : LFList β} (init : lfInitList declared = some start)
    {calls : List AllocCall} {answers : List Ptr} {t : ListInUse β}
    (runs : run allocCall calls ⟨start, []⟩ = some (answers, t)) :
    t.list.HasRoomFor (arrays start.elemPaddedSize calls answers) ↔
      (∀ call ∈ calls, call.qtt * start.elemPaddedSize < sizeModulus) ∧
        totalQtt calls < sizeModulus := by
  obtain ⟨unused, -, -, -, -, -, blocks, -⟩ := LFList.Unused.init init
  obtain ⟨deck, stores⟩ := LFList.Stores.init init
  have reached := stores.run (t := ⟨start, []⟩) runs
  constructor
  · intro room
    have small := room.small init runs
    refine ⟨small, ?_⟩
    obtain ⟨deck', stores', count⟩ := reached small
    obtain ⟨-, -, padded, -⟩ := run_allocCall (t := ⟨start, []⟩) stores.rep unused.count runs
    have positive : 0 < t.list.elemPaddedSize := by
      apply Nat.pos_of_ne_zero
      intro zero
      have some_bytes := stores.rep.positive
      rw [blocks, ← show t.list.elemPaddedSize = start.elemPaddedSize from padded,
        zero] at some_bytes
      simp [sizeWrap] at some_bytes
    obtain ⟨deck'', found, -, -, counted⟩ := room
    rw [stores'.rep.blocksFrom_eq] at found
    cases found
    rw [stores'.live] at counted
    have whole := sizeWrap_eq_self_iff.mp (Nat.eq_of_mul_eq_mul_right positive counted)
    rw [count, unused.count, Nat.zero_add] at whole
    exact whole
  · rintro ⟨small, total⟩
    obtain ⟨deck', stores', count⟩ := reached small
    rw [unused.count, Nat.zero_add] at count
    exact stores'.hasRoomFor (count ▸ total)

/-- A list of one element and then three, three elements a block. -/
theorem hasRoomFor_iff_three : ∃ (start : LFList UInt8) (answers : List Ptr) (t : ListInUse UInt8),
    lfInitList (LFList.declared (Allocator.bump 0) 3 2 1) = some start ∧
      run allocCall [.allocListElem, .allocListElems 3] ⟨start, []⟩ = some (answers, t) ∧
      (t.list.HasRoomFor
          (arrays start.elemPaddedSize [.allocListElem, .allocListElems 3] answers) ↔
        (∀ call ∈ [AllocCall.allocListElem, .allocListElems 3],
          call.qtt * start.elemPaddedSize < sizeModulus) ∧
            totalQtt [.allocListElem, .allocListElems 3] < sizeModulus) := by
  have ends : ((lfInitList (LFList.declared (Allocator.bump (0 : UInt8)) 3 2 1)).bind fun start =>
      run allocCall [.allocListElem, .allocListElems 3] ⟨start, []⟩).isSome = true := by
    decide +kernel
  obtain ⟨⟨answers, t⟩, ends⟩ := Option.isSome_iff_exists.mp ends
  obtain ⟨start, init, runs⟩ := Option.bind_eq_some_iff.mp ends
  exact ⟨start, answers, t, init, runs, hasRoomFor_iff init runs⟩

/-- Elements of two bytes: an array of 2^63 + 1 elements is given two bytes. -/
theorem array_without_room : ∃ (start : LFList UInt8) (answers : List Ptr) (t : ListInUse UInt8),
    lfInitList (LFList.declared (Allocator.bump 0) 4 2 1) = some start ∧
      run allocCall [.allocListElems (sizeModulus / 2 + 1)] ⟨start, []⟩ = some (answers, t) ∧
      ¬ t.list.HasRoomFor
        (arrays start.elemPaddedSize [.allocListElems (sizeModulus / 2 + 1)] answers) := by
  have ends : ((lfInitList (LFList.declared (Allocator.bump (0 : UInt8)) 4 2 1)).bind fun start =>
      (lfAllocListElems start (sizeModulus / 2 + 1)).map fun _ => start.elemPaddedSize) =
        some 2 := by
    decide +kernel
  obtain ⟨start, init, ends⟩ := Option.bind_eq_some_iff.mp ends
  obtain ⟨⟨elem, list⟩, alloc, width⟩ := Option.map_eq_some_iff.mp ends
  have called : allocCall (.allocListElems (sizeModulus / 2 + 1)) ⟨start, []⟩ =
      some (elem, ⟨list, placesFrom list.elemPaddedSize elem (sizeModulus / 2 + 1)⟩) := by
    simp only [allocCall, alloc, Option.bind_eq_bind, Option.bind_some, List.nil_append]
  have runs := run_cons called (@run_nil _ _ _ allocCall _)
  refine ⟨start, [elem], _, init, runs, ?_⟩
  intro room
  have small := room.small init runs _ (List.mem_singleton_self _)
  rw [width, AllocCall.qtt] at small
  exact absurd small (by decide)

end LowFlow
