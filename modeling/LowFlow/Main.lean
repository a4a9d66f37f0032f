import LowFlow.Planning.ScheduleDebug
import LowFlow.Runtime.Evaluation

/-!
# The program

`main.c`. The program plans an expression of `+` and integers. The native function of
`+` pops two values and adds them; the sum of two `int`s that overflows is undefined.
When the expression fits in one block of the schedule, evaluating the flow that was
planned ends exactly when no second operand is a call and no sum overflows, and leaves
the sum of the numbers (`main_evaluates_iff`).
-/

set_option autoImplicit false

namespace LowFlow

open Library

/-! ## The code -/

/-- `+` of two `int`s, which is undefined where it overflows. -/
def addInt (fst snd : BitVec 32) : Option (BitVec 32) :=
  if fst.saddOverflow snd then none else some (fst + snd)

/-- `plus_fn_native_impl`. -/
def plusFnNativeImpl (given : Given) (out : Ptr) (flow : Flow) : Option Flow := do
  let (sndArgVal, frameVals) ← flow.frameVals.popValue pointerSize
  let (fstArgVal, frameVals) ← frameVals.popValue pointerSize
  let fst ← (← flow.values given fstArgVal).asInt
  let snd ← (← flow.values given sndArgVal).asInt
  let res ← addInt fst snd
  let newVals ← flow.newVals.store out (pieces valueSize (.ofInt res))
  some { flow with frameVals, newVals }

/-- The only native function of the program. -/
def mainImpls (given : Given) : NativeImpls := fun _ _ => plusFnNativeImpl given

/-- The passes that `main` pushes: `val_schedule` and `flow_partition`. -/
def mainPasses : List (List UInt8 × PassFn) :=
  [([118, 97, 108, 95, 115, 99, 104, 101, 100, 117, 108, 101], .buildValSchedule),
    ([102, 108, 111, 119, 95, 112, 97, 114, 116, 105, 116, 105, 111, 110], .partitionFlows)]

/-- The calls of a caller that initializes the pipeline, pushes these passes, and
processes them. -/
def planningCalls (passes : List (List UInt8 × PassFn)) : List PipelineCall :=
  .initPassPipeline ::
    (passes.map (fun pass => .pushPass pass.1 pass.2) ++ [.processPassPipeline])

/-! ## What the native function computes -/

/-- The sum of two integers, where it does not overflow. -/
def addArgs : List Value → Option Value
  | [fst, snd] => do some (.ofInt (← addInt (← fst.asInt) (← snd.asInt)))
  | _ => none

theorem addArgs_ofInt (fst snd : BitVec 32) :
    addArgs [.ofInt fst, .ofInt snd] = (addInt fst snd).map .ofInt := by
  have defined : addArgs [.ofInt fst, .ofInt snd] =
      (addInt fst snd).bind fun res => some (.ofInt res) := rfl
  rw [defined]
  cases addInt fst snd <;> rfl

/-- The native function pops two arguments and computes their sum. -/
theorem plusFnNativeImpl_eq (given : Given) (out : Ptr) (flow : Flow) :
    plusFnNativeImpl given out flow = runPartial given addArgs 2 out flow := by
  simp only [plusFnNativeImpl, runPartial, Stack.popValues, Option.bind_eq_bind]
  cases flow.frameVals.popValue pointerSize with
  | none => rfl
  | some popped =>
      obtain ⟨sndArgVal, frameVals⟩ := popped
      simp only [Option.bind_some]
      cases frameVals.popValue pointerSize with
      | none => rfl
      | some popped =>
          obtain ⟨fstArgVal, frameVals⟩ := popped
          cases first : flow.values given fstArgVal with
          | none => simp [first]
          | some fst =>
              -- the second value is read before the first one is taken for an integer
              cases second : flow.values given sndArgVal with
              | none => cases fst.asInt <;> simp [first, second]
              | some snd => simp [first, second, addArgs, Option.bind_assoc]

/-- The number is an `int`. -/
def IsInt (n : ℤ) : Prop := -2 ^ 31 ≤ n ∧ n < 2 ^ 31

/-- Adding integers is adding numbers, and defined where the sum is an `int`. -/
theorem addInt_spec (fst snd : BitVec 32) :
    match addInt fst snd with
    | none => ¬ IsInt (fst.toInt + snd.toInt)
    | some res => IsInt (fst.toInt + snd.toInt) ∧ res.toInt = fst.toInt + snd.toInt := by
  have overflows : fst.saddOverflow snd = true ↔ ¬ IsInt (fst.toInt + snd.toInt) := by
    simp only [BitVec.saddOverflow, IsInt, Bool.or_eq_true, decide_eq_true_eq]
    omega
  by_cases past : fst.saddOverflow snd = true
  · rw [addInt, if_pos past]
    exact overflows.mp past
  · rw [addInt, if_neg past]
    exact ⟨not_not.mp (past ∘ overflows.mpr), BitVec.toInt_add_of_not_saddOverflow past⟩

/-! ## Sums -/

/-- The expressions of the program. -/
inductive PlusExpr where
  | int (value : BitVec 32)
  | plus (fst snd : PlusExpr)

namespace PlusExpr

/-- The calls that stand for it. -/
def expr : PlusExpr → Expr
  | .int value => .literal (.ofInt value)
  | .plus fst snd => .call 0 [fst.expr, snd.expr]

/-- The sum of its numbers. -/
def total : PlusExpr → ℤ
  | .int value => value.toInt
  | .plus fst snd => fst.total + snd.total

/-- No second operand is a call. -/
def LeftNested : PlusExpr → Prop
  | .int _ => True
  | .plus fst (.int _) => fst.LeftNested
  | .plus _ (.plus _ _) => False

/-- The sum of each subexpression is an `int`. -/
def InRange : PlusExpr → Prop
  | .int _ => True
  | .plus fst snd => fst.InRange ∧ snd.InRange ∧ IsInt (fst.total + snd.total)

theorem leftNested_expr (e : PlusExpr) : e.expr.leftNested = true ↔ e.LeftNested := by
  induction e using LeftNested.induct with
  | case1 value => simp [expr, Expr.leftNested, LeftNested]
  | case2 fst value ih => simp [expr, Expr.leftNested, Expr.isLiteral, LeftNested, ih]
  | case3 fst snd trd => simp [expr, Expr.leftNested, Expr.isLiteral, LeftNested]

/-- The value of a sum is computed of the values of its operands. -/
theorem evalWith_plus (fst snd : PlusExpr) :
    (plus fst snd).expr.evalWith (fun _ => addArgs) =
      (fst.expr.evalWith fun _ => addArgs).bind fun left =>
        (snd.expr.evalWith fun _ => addArgs).bind fun right => addArgs [left, right] := by
  rw [expr, Expr.evalWith_call, Expr.evalAllWith_cons, Expr.evalAllWith_cons]
  cases fst.expr.evalWith fun _ => addArgs with
  | none => rfl
  | some left => cases snd.expr.evalWith fun _ => addArgs <;> rfl

/-- Evaluating gives the sum, and is defined where no sum overflows. -/
theorem evalWith_expr (e : PlusExpr) :
    match e.expr.evalWith (fun _ => addArgs) with
    | none => ¬ e.InRange
    | some value => e.InRange ∧ ∃ res, value = .ofInt res ∧ res.toInt = e.total := by
  induction e with
  | int value => exact ⟨trivial, value, rfl, rfl⟩
  | plus fst snd first second =>
      rw [evalWith_plus]
      cases one : fst.expr.evalWith fun _ => addArgs with
      | none =>
          rw [one] at first
          exact fun inRange => first inRange.1
      | some left =>
          rw [one] at first
          obtain ⟨inFst, a, rfl, totalFst⟩ := first
          cases two : snd.expr.evalWith fun _ => addArgs with
          | none =>
              rw [two] at second
              exact fun inRange => second inRange.2.1
          | some right =>
              rw [two] at second
              obtain ⟨inSnd, b, rfl, totalSnd⟩ := second
              have added := addInt_spec a b
              rw [totalFst, totalSnd] at added
              rw [Option.bind_some, Option.bind_some, addArgs_ofInt]
              cases sum : addInt a b with
              | none =>
                  rw [sum] at added
                  exact fun inRange => added inRange.2.2
              | some res =>
                  rw [sum] at added
                  exact ⟨⟨inFst, inSnd, added.1⟩, res, rfl, added.2⟩

/-- The only calls are of `+`, with two arguments. -/
theorem call_mem_entries {argQtt nativeImpl : ℕ} (e : PlusExpr)
    (member : Entry.call argQtt nativeImpl ∈ e.expr.entries) : argQtt = 2 := by
  induction e with
  | int value => simp [expr, Expr.entries] at member
  | plus fst snd first second =>
      simp only [expr, Expr.entries, Expr.entriesAll, List.append_nil, List.length_cons,
        List.length_nil, List.mem_append, List.mem_singleton, Entry.call.injEq] at member
      rcases member with (inFst | inSnd) | ⟨rfl, -⟩
      · exact first inFst
      · exact second inSnd
      · rfl

end PlusExpr

/-- **What the program evaluates.** Whatever sum `main` plans, when its values fit in one
block of the schedule, evaluating the parent flow ends exactly when no second operand is
a call and no sum overflows, and leaves the sum of the numbers on top of the frame. -/
theorem main_evaluates_iff (setting : Setting) (given : Given)
    (values : setting.values = given.values) (tree : Rose ValuePtr) (e : PlusExpr)
    (encodes : Encodes given tree e.expr) (objects : Objects)
    (strings : setting.StringsLead objects)
    (fits : tree.nodes ≤ passPipelineValScheduleQttInBlock) :
    ∃ least pipeline' logger flow, (∀ rounds ≥ least,
        (pipelineCalls (setting.withRounds rounds)
          (.declared setting (.stored .debug) (.stored none) (some tree.label) .none objects)
          (planningCalls mainPasses)).result = some pipeline') ∧
      pipeline'.parentFlow = some (logger, flow) ∧
      ((∃ fuel flow', lfEvalFlowWith given (mainImpls given) fuel flow = some flow') ↔
        e.LeftNested ∧ e.InRange) ∧
      ∀ fuel flow', lfEvalFlowWith given (mainImpls given) fuel flow = some flow' →
        ∃ ptr frameVals res, flow'.frameVals.popValue pointerSize = some (ptr, frameVals) ∧
          flow'.values given ptr = some (.ofInt res) ∧ res.toInt = e.total := by
  have spells : Spells setting.values tree := values ▸ encodes.spells
  have planned : (Planner.new.calls tree (planningCalls mainPasses).tail).plan.flow =
      some tree.postorder := by
    rw [planningCalls, List.tail_cons, Planner.calls_push_process]
    simp [mainPasses, Planner.new, Plan.pass, Plan.empty]
  obtain ⟨least, pipeline', logger, flow, done, hasFlow, plans⟩ :=
    exists_planned_flow (.stored .debug) (.stored none) spells strings planned
  have scheduled := plans.scheduled (by rwa [Rose.length_postorder]) encodes.describes
  have implements : (mainImpls given).Implement given (fun _ => addArgs) e.expr.entries := by
    intro argQtt nativeImpl member out flow
    obtain rfl := e.call_mem_entries member
    exact plusFnNativeImpl_eq given out flow
  obtain ⟨ends, leaves⟩ := evaluatesWith_iff scheduled implements
  have evaluated := e.evalWith_expr
  rw [PlusExpr.leftNested_expr] at ends
  refine ⟨least, pipeline', logger, flow, done, hasFlow, ends.trans ?_, ?_⟩
  · apply and_congr_right
    intro _
    cases value : e.expr.evalWith fun _ => addArgs <;> rw [value] at evaluated
    · simpa using evaluated
    · simpa using evaluated.1
  · intro fuel flow' ended
    obtain ⟨ptr, frameVals, popped, found⟩ := leaves fuel flow' ended
    have defined := (ends.mp ⟨fuel, flow', ended⟩).2
    obtain ⟨value, isValue⟩ := Option.isSome_iff_exists.mp defined
    rw [isValue] at evaluated
    obtain ⟨-, res, rfl, total⟩ := evaluated
    exact ⟨ptr, frameVals, res, popped, found.trans isValue, total⟩

/-- The values of `main`: `+`, 4, 5 and 7, and the three calls. -/
def mainGiven : Given
  | 0 => some (.ofNative 2 0)
  | 1 => some (.ofInt 4)
  | 2 => some (.ofInt 5)
  | 3 => some (.ofCall (.given 0) [.given 1, .given 2])
  | 4 => some (.ofInt 7)
  | 5 => some (.ofCall (.given 0) [.given 3, .given 4])
  | 6 => some (.ofCall (.given 0) [.given 5, .given 4])
  | _ => none

/-- `+(+(+(4, 5), 7), 7)`. -/
def mainTree : Rose ValuePtr :=
  .node (.given 6) [.node (.given 5) [.node (.given 3) [.node (.given 1) [], .node (.given 2) []],
    .node (.given 4) []], .node (.given 4) []]

def mainExpr : PlusExpr := .plus (.plus (.plus (.int 4) (.int 5)) (.int 7)) (.int 7)

theorem encodes_plus {id : ℕ} {left right : Rose ValuePtr} {fst snd : PlusExpr}
    (found : mainGiven id = some (.ofCall (.given 0) [left.label, right.label]))
    (first : Encodes mainGiven left fst.expr) (second : Encodes mainGiven right snd.expr) :
    Encodes mainGiven (.node (.given id) [left, right]) (PlusExpr.plus fst snd).expr := by
  refine .call found rfl rfl ?_ (.cons first (.cons second .nil))
  intro i inRange
  match i, inRange with
  | 0, _ => rfl
  | 1, _ => rfl

theorem encodes_int {id : ℕ} {value : BitVec 32} (found : mainGiven id = some (.ofInt value)) :
    Encodes mainGiven (.node (.given id) []) (PlusExpr.int value).expr :=
  .literal found (List.mem_cons_self ..)

theorem mainExpr_inRange : mainExpr.InRange := by
  simp [mainExpr, PlusExpr.InRange, PlusExpr.total, IsInt]

/-- `main` would evaluate its expression to 23. -/
theorem main_evaluates_iff_program :
    ∃ pipeline' logger flow fuel flow' ptr frameVals res,
      (∃ rounds, (pipelineCalls
        (Setting.withRounds { sumSetting sumLeftover with values := mainGiven.values } rounds)
        (.declared { sumSetting sumLeftover with values := mainGiven.values } (.stored .debug)
          (.stored none) (some (.given 6)) .none sumObjects)
        (planningCalls mainPasses)).result = some pipeline') ∧
      pipeline'.parentFlow = some (logger, flow) ∧
      lfEvalFlowWith mainGiven (mainImpls mainGiven) fuel flow = some flow' ∧
      flow'.frameVals.popValue pointerSize = some (ptr, frameVals) ∧
      flow'.values mainGiven ptr = some (.ofInt res) ∧ res.toInt = 23 := by
  have encodes : Encodes mainGiven mainTree mainExpr.expr :=
    encodes_plus rfl (encodes_plus rfl (encodes_plus rfl (encodes_int rfl) (encodes_int rfl))
      (encodes_int rfl)) (encodes_int rfl)
  obtain ⟨least, pipeline', logger, flow, done, hasFlow, ends, leaves⟩ :=
    main_evaluates_iff { sumSetting sumLeftover with values := mainGiven.values } mainGiven rfl
      mainTree mainExpr encodes sumObjects sum_strings (by decide)
  obtain ⟨fuel, flow', ended⟩ := ends.mpr ⟨trivial, mainExpr_inRange⟩
  obtain ⟨ptr, frameVals, res, popped, found, total⟩ := leaves fuel flow' ended
  exact ⟨pipeline', logger, flow, fuel, flow', ptr, frameVals, res, ⟨least, done least le_rfl⟩,
    hasFlow, ended, popped, found, total⟩

end LowFlow
