import LowFlow.Memory.String

/-!
# Comparing strings

`lf_compare_string`. A string is compared with a C string block by block. For a
slice the bounds of a block are set only where a border of the slice is, so only
slices in one block are compared without reading bounds that were never set.
-/

set_option autoImplicit false

namespace LowFlow

/-- `LF_StringComparisonType`. -/
inductive StringComparisonType where
  | strStr
  | strChar
deriving DecidableEq, Repr

/-- `LF_StringComparison`, with the member of the union that a comparison with a
C string reads. -/
structure StringComparison where
  type : StringComparisonType
  left : LFString UInt8
  rightChar : Option (List UInt8)
  rightCharSize : ℕ

/-- The `left_offset` and the `right_offset` of a round: `none` where the code
does not set them. -/
def comparedBounds (left : LFString UInt8) (curBlock : BlockPtr) (block : MemBlock UInt8) :
    Option ℕ × Option ℕ :=
  match left.slice with
  | none => (some block.leftOffset, some block.rightOffset)
  | some slice =>
      (if some curBlock = slice.headBlock then some slice.headOffset else none,
        if some curBlock = slice.tailBlock then some slice.tailOffset else none)

/-- The loop of `lf_compare_string`. The blocks of a chain are distinct, so
`serial` bounds their number. -/
def compareBlocks (left : LFString UInt8) (rightChar : List UInt8) :
    ℕ → Option BlockPtr → ℕ → ℕ → Option Bool
  | _, _, _, 0 => some true
  | _, none, _, _ => some true
  | 0, some _, _, _ + 1 => none
  | fuel + 1, some curBlock, compared, remaining + 1 => do
      let block ← left.arena.heap.block curBlock
      let leftOffset ← (comparedBounds left curBlock block).1
      let rightOffset ← (comparedBounds left curBlock block).2
      let rightPadding := sizeSub block.size rightOffset
      let usedSize := sizeSub (sizeSub block.size rightPadding) leftOffset
      let compSize := if remaining + 1 < usedSize then remaining + 1 else usedSize
      let bytes ← left.arena.heap.load ⟨curBlock, leftOffset⟩ compSize
      if rightChar.length < compared + compSize then none
      else if bytes ≠ (rightChar.drop compared).take compSize then some false
      else
        compareBlocks left rightChar fuel block.next (compared + compSize)
          (remaining + 1 - compSize)

def lfCompareString (comp : StringComparison) : Option Bool :=
  let curBlock := match comp.left.slice with
    | some slice => slice.headBlock
    | none => comp.left.arena.headBlock
  let leftStrSize := lfGetStringSize comp.left
  match comp.type with
  | .strChar => do
      let rightChar ← comp.rightChar
      if leftStrSize ≠ comp.rightCharSize then some false
      else
        let remaining :=
          if comp.rightCharSize < leftStrSize then comp.rightCharSize else leftStrSize
        compareBlocks comp.left rightChar comp.left.arena.heap.serial curBlock 0 remaining
  | .strStr => none

/-- When all is compared the strings are equal. -/
@[simp] theorem compareBlocks_done (left : LFString UInt8) (rightChar : List UInt8) (fuel : ℕ)
    (curBlock : Option BlockPtr) (compared : ℕ) :
    compareBlocks left rightChar fuel curBlock compared 0 = some true := by
  rw [compareBlocks]

section Comparing

variable {str : LFString UInt8} {slice : ArenaSlice}

/-- Strings of different sizes are not looked at. -/
theorem lfCompareString_size {word : List UInt8} (other : lfGetStringSize str ≠ word.length) :
    lfCompareString ⟨.strChar, str, some word, word.length⟩ = some false := by
  simp [lfCompareString, other]

/-- A slice in one block is compared with all of its bytes. -/
theorem lfCompareString_block (backing : str.slice = some slice) {p : BlockPtr}
    (head : slice.headBlock = some p) (tail : slice.tailBlock = some p) {block : MemBlock UInt8}
    (found : str.arena.heap.block p = some block) (known : 0 < str.arena.heap.serial)
    (size : slice.headOffset + slice.size = slice.tailOffset)
    (bound : slice.tailOffset ≤ block.size) {content : List UInt8}
    (loaded : str.arena.heap.load ⟨p, slice.headOffset⟩ slice.size = some content)
    (counted : content.length = slice.size) (word : List UInt8) :
    lfCompareString ⟨.strChar, str, some word, word.length⟩ = some (decide (content = word)) := by
  by_cases same : slice.size = word.length
  · obtain ⟨fuel, serial⟩ := Nat.exists_eq_succ_of_ne_zero (Nat.ne_of_gt known)
    have padding : sizeSub (sizeSub block.size (sizeSub block.size slice.tailOffset))
        slice.headOffset = slice.size := by
      rw [sizeSub_of_le bound, sizeSub_of_le (Nat.sub_le ..), sizeSub_of_le (by omega)]
      omega
    cases length : slice.size with
    | zero =>
        have none : content = [] := List.length_eq_zero_iff.mp (counted.trans length)
        have empty : word = [] := List.length_eq_zero_iff.mp (same.symm.trans length)
        simp [lfCompareString, lfGetStringSize, backing, length, none, empty]
    | succ n =>
        have compared : lfCompareString ⟨.strChar, str, some word, word.length⟩ =
            compareBlocks str word (fuel + 1) (some p) 0 (n + 1) := by
          simp [lfCompareString, lfGetStringSize, backing, ← same, head, serial, length]
        rw [length] at loaded padding
        rw [compared, compareBlocks]
        simp only [found, comparedBounds, backing, head, tail, ↓reduceIte, Option.bind_eq_bind,
          Option.bind_some, padding, Nat.lt_irrefl, loaded, Nat.zero_add, ← same, length,
          List.drop_zero, Nat.sub_self, compareBlocks_done]
        rw [List.take_of_length_le (by omega)]
        by_cases equal : content = word <;> simp [equal]
  · rw [lfCompareString_size (by simpa [lfGetStringSize, backing] using same)]
    have different : content ≠ word := by
      rintro rfl
      exact same counted.symm
    simp [different]

end Comparing

end LowFlow
