import LowFlow.Library.Segment
import Mathlib.Data.List.GetD
import Mathlib.Data.Int.Basic

/-!
# Blocks and the heap they live in

An arena owns a chain of blocks. A block is a header (`LF_MemBlock`) and the
data area its `data` field points to. The headers are kept in a map from
pointers to headers, so that a dangling pointer is a pointer the map sends to
`none`; a data area is kept with its block, as its address, the number of bytes
that were asked for, and its bytes. Blocks of different arenas are never mixed,
so each arena carries its own part of the heap.

What `malloc` returns is not under the program's control. An `Allocator` fixes
where it places areas and what it leaves in them; the only law is that a new
area does not overlap one that is in use.

Operations return `none` when an assertion fails, when a null or dangling
pointer is followed, or when bytes outside an area are accessed.
-/

set_option autoImplicit false

namespace LowFlow

open Library

/-- The number of values of `size_t`. -/
def sizeModulus : ℕ := 1 <<< 64

/-- Sums and products of `size_t` values wrap around. -/
def sizeWrap (n : ℕ) : ℕ := n % sizeModulus

/-- Differences of `size_t` values wrap around below zero. -/
def sizeSub (m n : ℕ) : ℕ := if n ≤ m then m - n else m + sizeModulus - n

theorem sizeSub_of_le {m n : ℕ} (le : n ≤ m) : sizeSub m n = m - n := by
  simp [sizeSub, le]

theorem sizeWrap_lt (n : ℕ) : sizeWrap n < sizeModulus := Nat.mod_lt _ (by decide)

theorem sizeWrap_of_lt {n : ℕ} (lt : n < sizeModulus) : sizeWrap n = n :=
  Nat.mod_eq_of_lt lt

@[simp] theorem sizeWrap_add_sizeWrap (m n : ℕ) : sizeWrap (sizeWrap m + n) = sizeWrap (m + n) := by
  simp [sizeWrap]

theorem sizeSub_lt {m n : ℕ} (bound : m < sizeModulus) : sizeSub m n < sizeModulus := by
  simp only [sizeSub]
  split <;> omega

/-- A difference is undone by the sum, also where it wraps around. -/
theorem sizeWrap_sizeSub_add {m n : ℕ} (bound : m < sizeModulus) (small : n < sizeModulus) :
    sizeWrap (sizeSub m n + n) = m := by
  simp only [sizeSub, sizeWrap]
  split
  · rw [Nat.sub_add_cancel ‹_›, Nat.mod_eq_of_lt bound]
  · rw [Nat.sub_add_cancel (by omega), Nat.add_mod_right, Nat.mod_eq_of_lt bound]

/-- The pointer to a block's header. -/
abbrev BlockPtr := ℕ

/-- A data area: its address, the number of its bytes, and the bytes. -/
structure Area (β : Type) where
  base : ℕ
  extent : ℕ
  byte : ℕ → β

namespace Area

variable {β : Type}

/-- The `n` bytes at an offset. -/
def read (area : Area β) (offset n : ℕ) : List β :=
  (List.range n).map fun i => area.byte (offset + i)

/-- The area with these bytes at an offset. -/
def write (area : Area β) (offset : ℕ) (bytes : List β) : Area β :=
  { area with
    byte := fun i => if offset ≤ i then bytes.getD (i - offset) (area.byte i) else area.byte i }

/-- Two areas of which no byte is shared. -/
def Apart (one two : ℕ × ℕ) : Prop := one.1 + one.2 ≤ two.1 ∨ two.1 + two.2 ≤ one.1

/-- Where an area lies. -/
def place (area : Area β) : ℕ × ℕ := (area.base, area.extent)

@[simp] theorem write_base (area : Area β) (offset : ℕ) (bytes : List β) :
    (area.write offset bytes).base = area.base := rfl

@[simp] theorem write_extent (area : Area β) (offset : ℕ) (bytes : List β) :
    (area.write offset bytes).extent = area.extent := rfl

@[simp] theorem write_place (area : Area β) (offset : ℕ) (bytes : List β) :
    (area.write offset bytes).place = area.place := rfl

@[simp] theorem length_read (area : Area β) (offset n : ℕ) : (area.read offset n).length = n := by
  simp [read]

/-- What was written is read back. -/
theorem read_write_same (area : Area β) (offset : ℕ) (bytes : List β) :
    (area.write offset bytes).read offset bytes.length = bytes := by
  refine List.ext_getElem (by simp) ?_
  intro i _ inBytes
  simp [read, write, List.getElem?_eq_getElem inBytes]

/-- A write leaves the bytes next to it as they are. -/
theorem read_write_apart (area : Area β) {offset other n : ℕ} {bytes : List β}
    (apart : offset + bytes.length ≤ other ∨ other + n ≤ offset) :
    (area.write offset bytes).read other n = area.read other n := by
  apply List.map_congr_left
  intro i member
  have bound := List.mem_range.mp member
  simp only [write]
  split
  · rw [List.getD_eq_default _ _ (by omega)]
  · rfl

theorem read_append (area : Area β) (offset m n : ℕ) :
    area.read offset m ++ area.read (offset + m) n = area.read offset (m + n) := by
  simp [read, List.range_add, Nat.add_assoc, Function.comp_def]

end Area

theorem Area.Apart.symm {one two : ℕ × ℕ} (apart : Area.Apart one two) : Area.Apart two one :=
  Or.symm apart

/-- What a block's header says besides its links. -/
structure Slab (β : Type) where
  data : Area β
  rightOffset : ℕ
  leftOffset : ℕ
  size : ℕ

/-- A block: its header and the area its `data` points to. -/
structure MemBlock (β : Type) extends Slab β where
  prev : Option BlockPtr
  next : Option BlockPtr

/-- How a chain of blocks is read. -/
def blockView (β : Type) : NodeView (MemBlock β) (Slab β) where
  prev := MemBlock.prev
  next := MemBlock.next
  view := MemBlock.toSlab

/-- What `malloc` does: where a new area goes, given those in use, and what new
headers and areas hold before anything is written to them. -/
structure Allocator (β : Type) where
  place : List (ℕ × ℕ) → ℕ → ℕ
  header : BlockPtr → MemBlock β
  byte : ℕ → ℕ → β
  apart : ∀ areas n, ∀ area ∈ areas, Area.Apart (place areas n, n) area

variable {β : Type}

/-- An allocator that places each area behind all others and fills it. -/
def Allocator.bump (fill : β) : Allocator β where
  place areas _ := areas.foldr (fun area top => max (area.1 + area.2) top) 0
  header _ := ⟨⟨⟨0, 0, fun _ => fill⟩, 0, 0, 0⟩, none, none⟩
  byte _ _ := fill
  apart := by
    intro areas n area member
    refine .inr ?_
    induction areas with
    | nil => cases member
    | cons first rest ih =>
        rcases List.mem_cons.mp member with rfl | later
        · exact Nat.le_max_left ..
        · exact le_trans (ih later) (Nat.le_max_right ..)

/-- The blocks of an arena. `serial` counts the calls of `malloc`, and a header
is known by the number of its call. -/
structure Heap (β : Type) where
  malloc : Allocator β
  block : BlockPtr → Option (MemBlock β)
  areas : List (ℕ × ℕ)
  serial : ℕ

/-- A `char *`: a block and an offset from the start of its data. -/
structure Ptr where
  block : BlockPtr
  offset : ℤ
deriving DecidableEq, Repr

namespace Heap

/-- The part of the heap of an arena that is not initialized yet. -/
def empty (malloc : Allocator β) : Heap β := ⟨malloc, fun _ => none, [], 0⟩

/-- `malloc` of a block header. -/
def mallocHeader (heap : Heap β) : BlockPtr × Heap β :=
  (heap.serial,
    { heap with
      block := Function.update heap.block heap.serial (some (heap.malloc.header heap.serial))
      serial := heap.serial + 1 })

/-- `malloc` of an array of `n` block headers. -/
def mallocHeaders (heap : Heap β) (n : ℕ) : BlockPtr × Heap β :=
  (heap.serial,
    { heap with
      block := fun p =>
        if heap.serial ≤ p ∧ p < heap.serial + n then some (heap.malloc.header p)
        else heap.block p
      serial := heap.serial + n })

/-- `malloc` of an area. -/
def mallocArea (heap : Heap β) (n : ℕ) : Area β × Heap β :=
  let base := heap.malloc.place heap.areas n
  (⟨base, n, heap.malloc.byte heap.serial⟩,
    { heap with areas := (base, n) :: heap.areas, serial := heap.serial + 1 })

@[simp] theorem mallocHeader_ptr (heap : Heap β) : heap.mallocHeader.1 = heap.serial := rfl

/-- What the heap is after a header and then an area were allocated. -/
theorem mallocBlock_spec (heap : Heap β) (n : ℕ) :
    (heap.mallocHeader.2.mallocArea n).2.block =
        Function.update heap.block heap.serial (some (heap.malloc.header heap.serial)) ∧
      (heap.mallocHeader.2.mallocArea n).2.malloc = heap.malloc ∧
      (heap.mallocHeader.2.mallocArea n).2.areas =
        (heap.mallocHeader.2.mallocArea n).1.place :: heap.areas ∧
      (heap.mallocHeader.2.mallocArea n).2.serial = heap.serial + 2 :=
  ⟨rfl, rfl, rfl, rfl⟩

/-- Writing through a pointer to a header. -/
def modify (heap : Heap β) (p : BlockPtr) (f : MemBlock β → MemBlock β) : Option (Heap β) :=
  (heap.block p).map fun b => { heap with block := Function.update heap.block p (some (f b)) }

/-- `free` of a block's area and of its header. -/
def free (heap : Heap β) (p : BlockPtr) : Option (Heap β) :=
  (heap.block p).map fun b =>
    { heap with
      block := Function.update heap.block p none
      areas := heap.areas.erase b.data.place }

/-- Whether `n` bytes at an offset lie inside an area. -/
def InArea (area : Area β) (offset : ℤ) (n : ℕ) : Prop :=
  0 ≤ offset ∧ offset.toNat + n ≤ area.extent

instance (area : Area β) (offset : ℤ) (n : ℕ) : Decidable (InArea area offset n) :=
  inferInstanceAs (Decidable (_ ∧ _))

/-- Reading `n` bytes. -/
def load (heap : Heap β) (p : Ptr) (n : ℕ) : Option (List β) := do
  let b ← heap.block p.block
  if InArea b.data p.offset n then some (b.data.read p.offset.toNat n) else none

/-- Writing bytes. -/
def store (heap : Heap β) (p : Ptr) (bytes : List β) : Option (Heap β) := do
  let b ← heap.block p.block
  if InArea b.data p.offset bytes.length then
    heap.modify p.block fun b => { b with data := b.data.write p.offset.toNat bytes }
  else none

/-- A write through a valid pointer changes that header only. -/
theorem modify_spec {heap : Heap β} {p : BlockPtr} {b : MemBlock β}
    (found : heap.block p = some b) (f : MemBlock β → MemBlock β) :
    ∃ heap', heap.modify p f = some heap' ∧
      heap'.block = Function.update heap.block p (some (f b)) ∧
      heap'.malloc = heap.malloc ∧ heap'.areas = heap.areas ∧ heap'.serial = heap.serial :=
  ⟨{ heap with block := Function.update heap.block p (some (f b)) }, by simp [modify, found], rfl,
    rfl, rfl, rfl⟩

theorem free_spec {heap : Heap β} {p : BlockPtr} {b : MemBlock β}
    (found : heap.block p = some b) :
    ∃ heap', heap.free p = some heap' ∧ heap'.block = Function.update heap.block p none ∧
      heap'.malloc = heap.malloc ∧ heap'.areas = heap.areas.erase b.data.place ∧
      heap'.serial = heap.serial :=
  ⟨{ heap with
      block := Function.update heap.block p none
      areas := heap.areas.erase b.data.place }, by simp [free, found], rfl, rfl, rfl, rfl⟩

/-- The address a pointer stands for. -/
def address (heap : Heap β) (p : Ptr) : Option ℤ :=
  (heap.block p.block).map fun b => b.data.base + p.offset

end Heap

end LowFlow
