import LowFlow.Memory.String

/-!
# Storing a text in chunks

An owned string is filled by one allocation after the other. A chunk goes into the
last block when there is room for it, and else into a new one. So what the blocks of
the string hold depends on the size of a block and on the chunks only
(`storeChunks_spec`).
-/

set_option autoImplicit false

namespace LowFlow

open Library

variable {β : Type}

/-- What the blocks hold that chunks are stored in, from this block on. -/
def pack (qtt : ℕ) (block : List β) : List (List β) → List (List β)
  | [] => [block]
  | chunk :: chunks =>
      if qtt < block.length + chunk.length then block :: pack qtt chunk chunks
      else pack qtt (block ++ chunk) chunks

/-- Packing chunks keeps them in order. -/
theorem flatten_pack (qtt : ℕ) (block : List β) (chunks : List (List β)) :
    (pack qtt block chunks).flatten = block ++ chunks.flatten := by
  induction chunks generalizing block with
  | nil => simp [pack]
  | cons chunk chunks ih =>
      rw [pack, List.flatten_cons]
      split
      · rw [List.flatten_cons, ih]
      · rw [ih, List.append_assoc]

/-- Storing chunks in a string: `lf_alloc_string` for each of them, and writing it to the
memory that was returned. -/
def LFString.storeChunks (str : LFString β) (chunks : List (List β)) : Option (LFString β) := do
  let (_, str) ← run stringCall (chunks.map fun chunk => .alloc chunk.length chunk) str
  some str

/-- The used bytes of a block. -/
def Slab.bytes (b : Slab β) : List β :=
  b.data.read b.leftOffset (b.rightOffset - b.leftOffset)

section Chunks

variable {str : LFString β} {front : Deck β} {p : BlockPtr} {b : Slab β}

/-- A written chunk comes behind the used bytes of the block. -/
theorem Slab.bytes_write (b : Slab β) (left : b.leftOffset = 0) (chunk : List β) :
    Slab.bytes (Slab.write { b with rightOffset := b.rightOffset + chunk.length } b.rightOffset
      chunk) = b.bytes ++ chunk := by
  have before : (b.data.write b.rightOffset chunk).read 0 b.rightOffset =
      b.data.read 0 b.rightOffset :=
    b.data.read_write_apart (.inr (Nat.le_of_eq (Nat.zero_add _)))
  simp only [bytes, write, left, Nat.sub_zero]
  rw [← Area.read_append, before, Nat.zero_add, Area.read_write_same]

/-- **One chunk** goes into the last block, or into a new one. -/
theorem storeChunk_spec (filled : Filled str.arena (front ++ [(p, b)])) (backing : str.slice = none)
    {chunk : List β} (some_chars : chunk ≠ []) (fits : chunk.length ≤ str.arena.blockSize) :
    ∃ answer str' front' q c,
      stringCall (.alloc chunk.length chunk) str = some (answer, str') ∧ str'.slice = none ∧
      str'.arena.blockSize = str.arena.blockSize ∧ Filled str'.arena (front' ++ [(q, c)]) ∧
      (str.arena.blockSize < b.bytes.length + chunk.length ∧
          front' = front ++ [(p, b)] ∧ c.bytes = chunk ∨
        b.bytes.length + chunk.length ≤ str.arena.blockSize ∧
          front' = front ∧ c.bytes = b.bytes ++ chunk) := by
  have left : b.leftOffset = 0 := filled.left (p, b) (by simp)
  have width : b.size = str.arena.blockSize := filled.rep.sized (p, b) (by simp)
  have right : b.rightOffset ≤ str.arena.blockSize := filled.right (p, b) (by simp)
  have used : b.bytes.length = b.rightOffset := by simp [Slab.bytes, left]
  obtain ⟨ptr, arena, deck, alloc, change, rep, keeps, counted⟩ :=
    filled.rep.allocAtTail (List.length_pos_of_ne_nil some_chars) fits
  have filled₁ := filled.alloc fits change rep keeps counted
  -- the chunk is written behind what the last block of the new deck held before
  have write : ∀ {front' : Deck β} {q : BlockPtr} {c : Slab β} {offset : ℕ}, ptr = ⟨q, offset⟩ →
      deck = front' ++ [(q, { c with rightOffset := offset + chunk.length })] →
      offset + chunk.length ≤ str.arena.blockSize →
      ∃ answer str', stringCall (.alloc chunk.length chunk) str = some (answer, str') ∧
        str'.slice = none ∧ str'.arena.blockSize = str.arena.blockSize ∧
        Filled str'.arena (front' ++
          [(q, Slab.write { c with rightOffset := offset + chunk.length } offset chunk)]) := by
    rintro front' q c offset rfl rfl inside
    rw [← keeps.blockSize] at inside
    obtain ⟨heap, deck', stored, filled₂⟩ := filled₁.store (p := q) (by simp) inside
    obtain ⟨heap', stored', rep', -⟩ := rep.store (p := q) (by simp) inside
    obtain rfl := Option.some.inj (stored.symm.trans stored')
    obtain rfl := filled₂.rep.deck_eq rep'
    have missing : q ∉ ptrs front' := by
      have distinct := rep.distinct
      rw [ptrs, List.map_append] at distinct
      intro member
      exact (List.nodup_append'.mp distinct).2.2 member (by simp)
    rw [modify_concat _ _ _ _ missing] at filled₂
    refine ⟨some ⟨q, offset⟩, ⟨{ arena with heap }, none, str.charQttInBlock⟩, ?_, rfl,
      keeps.blockSize, filled₂⟩
    simp [stringCall, lfAllocString, backing, alloc, stored]
  rcases change.at_last with ⟨room, at_right, same⟩ | ⟨full, at_start, same⟩
  · rw [width, sizeSub_of_le right] at room
    have inside : b.rightOffset + chunk.length ≤ str.arena.blockSize := by omega
    obtain ⟨answer, str', called, backing', size, filled'⟩ := write at_right same inside
    exact ⟨answer, str', front, p, _, called, backing', size, filled',
      .inr ⟨used ▸ inside, rfl, b.bytes_write left chunk⟩⟩
  · rw [width, sizeSub_of_le right] at full
    let new : Slab β := ⟨str.arena.heap.nextArea str.arena.blockSize, 0, 0, str.arena.blockSize⟩
    obtain ⟨answer, str', called, backing', size, filled'⟩ :=
      @write _ _ new 0 at_start (by rw [Nat.zero_add]; exact same) (by omega)
    refine ⟨answer, str', front ++ [(p, b)], _, _, called, backing', size, filled',
      .inl ⟨by omega, rfl, ?_⟩⟩
    exact (new.bytes_write rfl chunk).trans (by simp [new, Slab.bytes, Area.read])

/-- **Chunks** are packed into the blocks. -/
theorem storeChunks_spec {chunks : List (List β)} (filled : Filled str.arena (front ++ [(p, b)]))
    (backing : str.slice = none)
    (all : ∀ chunk ∈ chunks, chunk ≠ [] ∧ chunk.length ≤ str.arena.blockSize) :
    ∃ answers str' deck,
      run stringCall (chunks.map fun chunk => .alloc chunk.length chunk) str =
        some (answers, str') ∧
      str'.slice = none ∧ str'.arena.blockSize = str.arena.blockSize ∧ Filled str'.arena deck ∧
      deck.map (fun entry => entry.2.bytes) =
        front.map (fun entry => entry.2.bytes) ++ pack str.arena.blockSize b.bytes chunks := by
  induction chunks generalizing str front p b with
  | nil => exact ⟨[], str, _, rfl, backing, rfl, filled, by simp [pack]⟩
  | cons chunk chunks ih =>
      obtain ⟨⟨some_chars, fits⟩, others⟩ := List.forall_mem_cons.mp all
      obtain ⟨answer, str₁, front₁, q, c, called, backing₁, size₁, filled₁, packed⟩ :=
        storeChunk_spec filled backing some_chars fits
      obtain ⟨answers, str', deck, runs, backing', size', filled', same⟩ :=
        ih filled₁ backing₁ (by rwa [size₁])
      refine ⟨answer :: answers, str', deck, run_cons called runs, backing', size'.trans size₁,
        filled', ?_⟩
      rw [same, size₁, pack]
      rcases packed with ⟨full, rfl, bytes⟩ | ⟨room, rfl, bytes⟩
      · rw [if_pos full, bytes]
        simp
      · rw [if_neg (Nat.not_lt.mpr room), bytes]

end Chunks

/-- A new string is one empty block, which chunks are packed into. -/
theorem LFString.storeChunks_of_init (malloc : Allocator β) {qtt : ℕ} {chunks : List (List β)}
    (positive : 0 < qtt) (small : qtt < sizeModulus)
    (all : ∀ chunk ∈ chunks, chunk ≠ [] ∧ chunk.length ≤ qtt) :
    ∃ start str deck, lfInitString (LFString.declared malloc qtt) = some start ∧
      start.storeChunks chunks = some str ∧ str.Owned ∧ str.slice = none ∧
      str.arena.blockSize = qtt ∧ Represents str.arena deck ∧
      deck.map (fun entry => entry.2.bytes) = pack qtt [] chunks := by
  let declared : Arena β :=
    { (LFString.declared malloc qtt).arena with blockSize := qtt, blockOffset := .left }
  obtain ⟨arena, init, rep, blockSize, offset, -, size⟩ :=
    lfInitArena_spec declared (show 0 < declared.blockSize from positive)
  have filled : Filled arena [(_, _)] :=
    { rep := rep
      left := by simp [declared, startOffset]
      right := by simp [declared, startOffset]
      small := by rw [blockSize]; exact small
      offset := offset
      size := by simp [declared, startOffset, size, sizeWrap] }
  let start : LFString β := { LFString.declared malloc qtt with arena }
  have width : start.arena.blockSize = qtt := blockSize
  have started : lfInitString (LFString.declared malloc qtt) = some start := by
    change (lfInitArena declared).bind _ = _
    rw [init]
    rfl
  obtain ⟨answers, str, deck, runs, backing, size', filled', packed⟩ :=
    @storeChunks_spec _ start [] _ _ chunks filled rfl (by rwa [width])
  refine ⟨start, str, deck, started, by simp [storeChunks, runs], ?_, backing,
    size'.trans blockSize, filled'.rep, ?_⟩
  · exact ⟨_, start, _, answers, rfl, small, started, runs⟩
  · rw [packed, width]
    simp [Slab.bytes, Area.read, declared, startOffset]

end LowFlow
