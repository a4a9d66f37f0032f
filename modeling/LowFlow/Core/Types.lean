import LowFlow.Library.Rose
import LowFlow.Memory.Heap

/-!
# Values

The data types of `core/types.h` as far as scheduling and evaluation read them.
A value is a literal, a function definition or a call of one on inner values.
The members of a union are separate fields, each of which is read under its own
type only. A call hangs its arguments below itself, so that a pointer to it
spells a tree; values may be shared.
-/

set_option autoImplicit false

namespace LowFlow

open Library

/-- `LF_Type`. -/
inductive ValueType where
  | int
  | float
  | char
  | str
  | bool
  | symbol
  | list
  | seq
  | dict
  | funcDef
  | funcCall
  | type
  | trait
deriving DecidableEq, Repr

/-- The bit of a type. -/
def ValueType.flag : ValueType → ℕ
  | .int => 1 <<< 0
  | .float => 1 <<< 1
  | .char => 1 <<< 2
  | .str => 1 <<< 3
  | .bool => 1 <<< 4
  | .symbol => 1 <<< 5
  | .list => 1 <<< 6
  | .seq => 1 <<< 7
  | .dict => 1 <<< 8
  | .funcDef => 1 <<< 9
  | .funcCall => 1 <<< 10
  | .type => 1 <<< 11
  | .trait => 1 <<< 12

/-- `PRIMITIVE_MASK`. -/
def primitiveMask : ℕ :=
  ValueType.int.flag ||| ValueType.float.flag ||| ValueType.char.flag ||| ValueType.str.flag |||
    ValueType.bool.flag ||| ValueType.funcDef.flag ||| ValueType.type.flag |||
    ValueType.trait.flag

/-- Whether a type is in the mask. -/
def ValueType.isPrimitive (kind : ValueType) : Bool :=
  kind.flag &&& primitiveMask != 0

/-- A pointer to a value: one the caller declared, or a slot of a flow's `new_vals`. -/
inductive ValuePtr where
  | given (id : ℕ)
  | slot (ptr : Ptr)
deriving DecidableEq, Repr

/-- `sizeof(LF_Value *)`, which is also its alignment. -/
def pointerSize : ℕ := 8

theorem pointerSize_pos : 0 < pointerSize := by decide

/-- What a literal holds. Strings are known by their address. -/
inductive Content where
  | int (value : BitVec 32)
  | float (bits : BitVec 32)
  | char (value : UInt8)
  | str (address : ℕ)
  | bool (value : Bool)
deriving DecidableEq

/-- `LF_FuncDefSpec`. A native implementation is known by its number. -/
structure FuncDefSpec where
  argQtt : ℕ
  nativeImpl : Option ℕ
deriving DecidableEq

/-- `LF_Value`. -/
structure Value where
  type : ValueType
  funcDefSpec : Option FuncDefSpec
  funcDef : Option ValuePtr
  content : Content
  innerVals : List ValuePtr
deriving DecidableEq

/-- The values in memory. -/
abbrev Values := ValuePtr → Option Value

/-- The definition that a call refers to. -/
def Value.calledSpec (values : Values) (call : Value) : Option FuncDefSpec := do
  (← values (← call.funcDef)).funcDefSpec

/-- A literal. -/
def Value.ofInt (value : BitVec 32) : Value :=
  { type := .int, funcDefSpec := none, funcDef := none, content := .int value, innerVals := [] }

/-- A call of the function that `funcDef` defines. -/
def Value.ofCall (funcDef : ValuePtr) (innerVals : List ValuePtr) : Value :=
  { type := .funcCall, funcDefSpec := none, funcDef := some funcDef, content := .int 0, innerVals }

/-- A definition of a function with a native implementation. -/
def Value.ofNative (argQtt nativeImpl : ℕ) : Value :=
  { type := .funcDef, funcDefSpec := some ⟨argQtt, some nativeImpl⟩, funcDef := none,
    content := .int 0, innerVals := [] }

mutual

/-- The pointers of the tree are those that its values lead to: a literal has
no inner values, a call has as many as the definition it refers to has arguments. -/
def Spells (values : Values) : Rose ValuePtr → Prop
  | .node ptr kids =>
      ∃ value, values ptr = some value ∧
        ((value.type.isPrimitive = true ∧ kids = []) ∨
          (value.type = .funcCall ∧
            (∃ spec, value.calledSpec values = some spec ∧ spec.argQtt = kids.length) ∧
            (∀ i (inRange : i < kids.length), value.innerVals[i]? = some kids[i].label) ∧
            SpellsAll values kids))

def SpellsAll (values : Values) : List (Rose ValuePtr) → Prop
  | [] => True
  | t :: ts => Spells values t ∧ SpellsAll values ts

end

theorem spellsAll_iff {values : Values} {ts : List (Rose ValuePtr)} :
    SpellsAll values ts ↔ ∀ t ∈ ts, Spells values t := by
  induction ts with
  | nil => simp [SpellsAll]
  | cons t ts ih => simp [SpellsAll, ih]

end LowFlow
