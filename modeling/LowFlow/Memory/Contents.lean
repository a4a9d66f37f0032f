import LowFlow.Memory.DeckOps

/-!
# The bytes in a deck

`Reads` says which bytes stand at a pointer. What is known about the bytes of a
deck carries over to every deck that has the same blocks with the same data,
whatever happened to their offsets (`Carries`), and a write changes the bytes it
writes only.
-/

set_option autoImplicit false

namespace LowFlow

open Library

variable {β : Type}

/-- These bytes stand at this pointer. -/
def Deck.Reads (deck : Deck β) (ptr : Ptr) (bytes : List β) : Prop :=
  ∃ b, (ptr.block, b) ∈ deck ∧ 0 ≤ ptr.offset ∧
    b.data.read ptr.offset.toNat bytes.length = bytes

/-- Every block of the first deck is in the second, with the same data. -/
def Deck.Carries (deck deck' : Deck β) : Prop :=
  ∀ entry ∈ deck, ∃ b, (entry.1, b) ∈ deck' ∧ b.data = entry.2.data

theorem Deck.Carries.refl (deck : Deck β) : deck.Carries deck :=
  fun entry member => ⟨entry.2, member, rfl⟩

theorem Deck.Carries.mem_ptrs {deck deck' : Deck β} (carries : deck.Carries deck') {p : BlockPtr}
    (member : p ∈ ptrs deck) : p ∈ ptrs deck' := by
  obtain ⟨entry, inDeck, rfl⟩ := List.mem_map.mp member
  obtain ⟨b, inDeck', -⟩ := carries entry inDeck
  exact List.mem_map.mpr ⟨_, inDeck', rfl⟩

theorem Deck.Carries.append {front back front' back' : Deck β} (first : front.Carries front')
    (second : back.Carries back') : Deck.Carries (front ++ back) (front' ++ back') := by
  intro entry member
  rcases List.mem_append.mp member with inFront | inBack
  · obtain ⟨b, found, same⟩ := first entry inFront
    exact ⟨b, List.mem_append_left _ found, same⟩
  · obtain ⟨b, found, same⟩ := second entry inBack
    exact ⟨b, List.mem_append_right _ found, same⟩

/-- A block keeps its data when only its offsets change. -/
theorem Deck.Carries.cons {p : BlockPtr} {b c : Slab β} {rest rest' : Deck β}
    (same : c.data = b.data) (onward : rest.Carries rest') :
    Deck.Carries ((p, b) :: rest) ((p, c) :: rest') := by
  intro entry member
  rcases List.mem_cons.mp member with rfl | later
  · exact ⟨c, List.mem_cons_self .., same⟩
  · obtain ⟨d, found, sameData⟩ := onward entry later
    exact ⟨d, List.mem_cons_of_mem _ found, sameData⟩

theorem AllocHead.carries {arena : Arena β} {size : ℕ} {deck deck' : Deck β} {ptr : Ptr}
    (alloc : AllocHead arena size deck ptr deck') : deck.Carries deck' := by
  cases alloc with
  | fits => exact .cons rfl (.refl _)
  | opens => exact fun entry member => ⟨entry.2, List.mem_cons_of_mem _ member, rfl⟩

theorem AllocTail.carries {arena : Arena β} {size : ℕ} {deck deck' : Deck β} {ptr : Ptr}
    (alloc : AllocTail arena size deck ptr deck') : deck.Carries deck' := by
  cases alloc with
  | fits => exact .append (.refl _) (.cons rfl (.refl _))
  | opens => exact fun entry member => ⟨entry.2, List.mem_append_left _ member, rfl⟩

namespace Deck.Reads

variable {deck deck' : Deck β} {ptr : Ptr} {bytes : List β}

theorem carried (reads : deck.Reads ptr bytes) (carries : deck.Carries deck') :
    deck'.Reads ptr bytes := by
  obtain ⟨b, member, inside, same⟩ := reads
  obtain ⟨c, member', data⟩ := carries _ member
  exact ⟨c, member', inside, data ▸ same⟩

/-- What stands in another block is still there when a block is taken away. -/
theorem of_cons {p : BlockPtr} {b : Slab β} (reads : Deck.Reads ((p, b) :: deck) ptr bytes)
    (other : ptr.block ≠ p) : deck.Reads ptr bytes := by
  obtain ⟨c, member, inside, same⟩ := reads
  rcases List.mem_cons.mp member with here | there
  · exact absurd (congrArg Prod.fst here) other
  · exact ⟨c, there, inside, same⟩

/-- What was written is read back. -/
theorem store_same (member : ptr.block ∈ ptrs deck) (inside : 0 ≤ ptr.offset) (bytes : List β) :
    Deck.Reads (deck.modify ptr.block fun b => b.write ptr.offset.toNat bytes) ptr bytes := by
  obtain ⟨⟨p, b⟩, inDeck, same⟩ := List.mem_map.mp member
  cases same
  refine ⟨b.write ptr.offset.toNat bytes, List.mem_map.mpr ⟨_, inDeck, by simp⟩, inside, ?_⟩
  exact Area.read_write_same ..

/-- A write leaves what stands elsewhere. -/
theorem store_apart (reads : deck.Reads ptr bytes) (target : Ptr) {written : List β}
    (inside : 0 ≤ target.offset)
    (apart : ptr.block ≠ target.block ∨ ptr.offset + bytes.length ≤ target.offset ∨
      target.offset + written.length ≤ ptr.offset) :
    Deck.Reads (deck.modify target.block fun b => b.write target.offset.toNat written)
      ptr bytes := by
  obtain ⟨b, member, low, same⟩ := reads
  by_cases here : ptr.block = target.block
  · refine ⟨b.write target.offset.toNat written, List.mem_map.mpr ⟨_, member, by simp [here]⟩,
      low, ?_⟩
    refine (Area.read_write_apart _ ?_).trans same
    have ranges := apart.resolve_left fun other => other here
    omega
  · exact ⟨b, List.mem_map.mpr ⟨_, member, by simp [here]⟩, low, same⟩

end Deck.Reads

theorem Represents.load_reads {arena : Arena β} {deck : Deck β} (rep : Represents arena deck)
    {ptr : Ptr} {bytes : List β} (reads : deck.Reads ptr bytes)
    (inside : ptr.offset + bytes.length ≤ arena.blockSize) :
    arena.heap.load ptr bytes.length = some bytes := by
  obtain ⟨b, member, low, same⟩ := reads
  have bound : ptr.offset.toNat + bytes.length ≤ arena.blockSize := by omega
  have loaded := rep.load member bound
  rwa [Int.toNat_of_nonneg low, same] at loaded

end LowFlow
