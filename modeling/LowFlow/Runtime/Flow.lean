import LowFlow.Core.Types
import LowFlow.Library.Loop
import LowFlow.Memory.ListValues
import LowFlow.Memory.Overcounted

/-!
# Flows

`core/flow.c` and `runtime/flow.c`. A flow is evaluated along its schedule: a
literal is pushed onto the frame, a call pops its arguments from the frame and
pushes its result, which is kept in a slot of the new values. What a call does
not pop is lost, as the frame is reset after it. Logging is left out.
-/

set_option autoImplicit false

namespace LowFlow

open Library

/-- `sizeof(LF_Value)`. -/
def valueSize : ℕ := 32

/-- Pointers need no padding. -/
theorem paddedSize_pointerSize : paddedSize pointerSize pointerSize = some pointerSize := by decide

def flowFrameValQttInBlock : ℕ := 256

def flowNewValQttInBlock : ℕ := 256

/-- `LF_Flow`. -/
structure Flow where
  valSchedule : LFList (Cell ValuePtr)
  frameVals : Stack (Cell ValuePtr)
  newVals : Stack (Cell Value)

/-- A flow as it is declared, with the number of values in a block of its schedule set. -/
def Flow.declared (schedule frame : Allocator (Cell ValuePtr)) (new : Allocator (Cell Value))
    (elemQttInBlock : ℕ) : Flow where
  valSchedule := LFList.declared schedule elemQttInBlock pointerSize pointerSize
  frameVals := Stack.declared frame flowFrameValQttInBlock pointerSize pointerSize
  newVals := Stack.declared new flowNewValQttInBlock valueSize 8

def lfInitFlow (flow : Flow) : Option Flow := do
  if flow.valSchedule.elemQttInBlock < 2 then none
  let valSchedule ← lfInitList
    { flow.valSchedule with elemSize := pointerSize, elemAlignment := pointerSize }
  let frameVals ← lfInitStack
    { flow.frameVals with
      elemSize := pointerSize, elemAlignment := pointerSize
      elemQttInBlock := flowFrameValQttInBlock }
  let newVals ← lfInitStack
    { flow.newVals with
      elemSize := valueSize, elemAlignment := 8, elemQttInBlock := flowNewValQttInBlock }
  some { valSchedule, frameVals, newVals }

/-- The values that the caller declared. -/
abbrev Given := ℕ → Option Value

/-- The declared values in memory. -/
def Given.values (given : Given) : Values
  | .given id => given id
  | .slot _ => none

/-- The values in memory: the declared ones, and those in the slots of the new values. -/
def Flow.values (flow : Flow) (given : Given) : Values
  | .given id => given id
  | .slot ptr => do whole (← flow.newVals.arena.heap.load ptr valueSize)

/-- The code of the native functions, for as many arguments as their specification says.
It is given the slot of the result, and works on the frame of the flow. -/
abbrev NativeImpls := ℕ → ℕ → Ptr → Flow → Option Flow

/-- The case of a function call. The evaluation finishes where the frame has not
enough values. -/
def evalCall (given : Given) (impls : NativeImpls) (call : Value) (flow : Flow) :
    Option (Flow ⊕ Flow) := do
  let (newResVal, newVals) ← lfAllocStackElem flow.newVals
  let flow := { flow with newVals }
  let spec ← call.calledSpec (flow.values given)
  if flow.frameVals.elemCount < spec.argQtt then some (.inr flow)
  else
    let flow ← impls spec.argQtt (← spec.nativeImpl) newResVal flow
    let frameVals ← lfResetStack flow.frameVals
    let frameVals ← frameVals.pushValue pointerSize (.slot newResVal)
    some (.inl { flow with frameVals })

/-- The cases of `lf_eval_flow`. -/
def evalVal (given : Given) (impls : NativeImpls) (ptr : ValuePtr) (flow : Flow) :
    Option (Flow ⊕ Flow) := do
  let value ← flow.values given ptr
  match value.type with
  | .int | .float | .char | .str | .bool =>
      let frameVals ← flow.frameVals.pushValue pointerSize ptr
      some (.inl { flow with frameVals })
  | .funcCall => evalCall given impls value flow
  | _ => none

/-- The variables of the loop of `lf_eval_flow`. -/
structure EvalState where
  curVal : Option Ptr
  flow : Flow

/-- One round of the loop of `lf_eval_flow`, or its end. -/
def evalStepWith (given : Given) (impls : NativeImpls) (s : EvalState) :
    Option (EvalState ⊕ Flow) := do
  match s.curVal with
  | none => some (.inr s.flow)
  | some curVal =>
      let ptr ← s.flow.valSchedule.read pointerSize curVal
      match ← evalVal given impls ptr s.flow with
      | .inr flow => some (.inr flow)
      | .inl flow =>
          let (next, valSchedule) ← lfGetNextListElem flow.valSchedule curVal
          some (.inl ⟨next, { flow with valSchedule }⟩)

/-- The state in front of the loop of `lf_eval_flow`. -/
def evalStart (flow : Flow) : Option EvalState := do
  let (curVal, valSchedule) ← lfGetFirstListElem flow.valSchedule
  some ⟨curVal, { flow with valSchedule }⟩

/-- `lf_eval_flow` with this code of the native functions, for at most `fuel` rounds of its
loop. -/
def lfEvalFlowWith (given : Given) (impls : NativeImpls) (fuel : ℕ) (flow : Flow) :
    Option Flow := do
  iterate (evalStepWith given impls) fuel (← evalStart flow)

/-! ## Functions of the arguments -/

/-- What native functions compute of their arguments, first argument first, where they do
not fail. -/
abbrev Partials := ℕ → List Value → Option Value

/-- Native functions that compute a value of all arguments. -/
abbrev Natives := ℕ → List Value → Value

/-- Functions that never fail. -/
def Natives.partials (natives : Natives) : Partials :=
  fun nativeImpl args => some (natives nativeImpl args)

/-- A native function that computes this: it pops its arguments from the frame, the last one
first, and writes its result to `out`. -/
def runPartial (given : Given) (f : List Value → Option Value) (argQtt : ℕ) (out : Ptr)
    (flow : Flow) : Option Flow := do
  let (args, frameVals) ← Stack.popValues pointerSize argQtt flow.frameVals
  let args ← args.reverse.mapM (flow.values given)
  let newVals ← flow.newVals.store out (pieces valueSize (← f args))
  some { flow with frameVals, newVals }

/-- The code of native functions that compute these values. -/
def runNative (given : Given) (natives : Natives) : NativeImpls :=
  fun argQtt nativeImpl => runPartial given (natives.partials nativeImpl) argQtt

/-- One round of the loop, with native functions that compute these values. -/
def evalStep (given : Given) (natives : Natives) : EvalState → Option (EvalState ⊕ Flow) :=
  evalStepWith given (runNative given natives)

/-- `lf_eval_flow`, with native functions that compute these values. -/
def lfEvalFlow (given : Given) (natives : Natives) : ℕ → Flow → Option Flow :=
  lfEvalFlowWith given (runNative given natives)

/-! ## What evaluation does to the frame -/

/-- What is on the schedule: a literal, a call of a native function, or a value that
is not evaluated. -/
inductive Entry where
  | literal (value : Value)
  | call (argQtt nativeImpl : ℕ)
  | refused

/-- The values on the frame, top first, and how many more it counts. -/
structure Frame where
  vals : List Value
  lost : ℕ

/-- Nothing on the frame. -/
def Frame.empty : Frame := ⟨[], 0⟩

/-- What is counted on the frame. -/
def Frame.count (frame : Frame) : ℕ := frame.vals.length + frame.lost

/-- The effect of an entry: `none` where a pop finds nothing, the function fails or the value
is refused, and the second case where the evaluation finishes. -/
def Frame.step (fs : Partials) (frame : Frame) : Entry → Option (Frame ⊕ Frame)
  | .literal value => some (.inl { frame with vals := value :: frame.vals })
  | .call argQtt nativeImpl =>
      if frame.count < argQtt then some (.inr frame)
      else if argQtt ≤ frame.vals.length then do
        let res ← fs nativeImpl (frame.vals.take argQtt).reverse
        some (.inl ⟨[res], frame.lost + (frame.vals.length - argQtt)⟩)
      else none
  | .refused => none

/-- The frame after a schedule. -/
def Frame.run (fs : Partials) : List Entry → Frame → Option Frame
  | [], frame => some frame
  | entry :: rest, frame => do
      match ← frame.step fs entry with
      | .inl frame => Frame.run fs rest frame
      | .inr frame => some frame

end LowFlow
