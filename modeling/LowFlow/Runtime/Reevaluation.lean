import Mathlib.Algebra.Ring.Nat
import LowFlow.Planning.PipelineRuns

/-!
# Evaluating a flow again

A flow keeps its stacks when its evaluation ends, so that a caller can evaluate it
again, after taking the result from the frame or with the result left there. However
the rounds are mixed, each gives the value of the expression (`evaluates_again`). What
is left is lost in the next round and still counted, and each call takes a new slot.
-/

set_option autoImplicit false

namespace LowFlow

open Library

/-- A round of a caller: `lf_eval_flow`, and then `lf_pop_from_stack` when it takes the
result. -/
def evalRound (given : Given) (natives : Natives) (fuel : ℕ) (takes : Bool) (flow : Flow) :
    Option (Option Value × Flow) := do
  let flow ← lfEvalFlow given natives fuel flow
  if takes then
    let (ptr, frameVals) ← flow.frameVals.popValue pointerSize
    some (some (← flow.values given ptr), { flow with frameVals })
  else some (none, flow)

/-! ## New values -/

/-- The number of slots that an entry takes. -/
def Entry.callQtt : Entry → ℕ
  | .call _ _ => 1
  | _ => 0

/-- The number of calls in an expression. -/
def Expr.callQtt (expr : Expr) : ℕ := (expr.entries.map Entry.callQtt).sum

section NewVals

variable {given : Given} {natives : Natives} {flow flow' : Flow}

/-- A call that goes on took one slot. -/
theorem evalCall_newVals {call : Value}
    (evaluated : evalCall given (runNative given natives) call flow = some (.inl flow')) :
    flow'.newVals.elemCount = flow.newVals.elemCount + 1 := by
  simp only [evalCall, Option.bind_eq_bind, Option.bind_eq_some_iff] at evaluated
  obtain ⟨⟨newResVal, newVals⟩, alloc, spec, -, evaluated⟩ := evaluated
  have more : newVals.elemCount = flow.newVals.elemCount + 1 := by
    simp only [lfAllocStackElem, Option.bind_eq_bind, Option.bind_eq_some_iff] at alloc
    obtain ⟨⟨elem, arena⟩, -, same⟩ := alloc
    cases same
    rfl
  split at evaluated
  · cases evaluated
  · obtain ⟨nativeImpl, -, ran, runs, frameVals, -, frameVals', -, same⟩ := by
      simpa only [Option.bind_eq_some_iff] using evaluated
    cases same
    -- the native function writes to the slot, and takes none
    simp only [runNative, runPartial, Stack.store, Option.bind_eq_bind,
      Option.bind_eq_some_iff] at runs
    obtain ⟨⟨args, popped⟩, -, values, -, res, -, stored, ⟨heap, -, kept⟩, same⟩ := runs
    cases kept
    cases same
    exact more

/-- A value that the evaluation goes on from took the slots of its entry. -/
theorem evalVal_newVals {ptr : ValuePtr} {entry : Entry} (describes : entry.Describes given ptr)
    (evaluated : evalVal given (runNative given natives) ptr flow = some (.inl flow')) :
    flow'.newVals.elemCount = flow.newVals.elemCount + entry.callQtt := by
  cases describes with
  | @call value argQtt nativeImpl found kind called =>
      have goes : evalVal given (runNative given natives) ptr flow =
          evalCall given (runNative given natives) value flow := by
        simp [evalVal, Flow.values_of_given found, kind]
      exact evalCall_newVals (goes.symm.trans evaluated)
  | @literal value found kind =>
      have goes : evalVal given (runNative given natives) ptr flow =
          (flow.frameVals.pushValue pointerSize ptr).bind fun frameVals =>
            some (.inl { flow with frameVals }) := by
        simp only [literalTypes, List.mem_cons, List.not_mem_nil, or_false] at kind
        rcases kind with kind | kind | kind | kind | kind <;>
          simp [evalVal, Flow.values_of_given found, kind]
      obtain ⟨frameVals, -, same⟩ := Option.bind_eq_some_iff.mp (goes.symm.trans evaluated)
      cases same
      rfl
  | @refused value found kind =>
      have stuck : evalVal given (runNative given natives) ptr flow = none := by
        cases type : value.type <;>
          simp_all [evalVal, Flow.values_of_given found, literalTypes]
      cases stuck.symm.trans evaluated

/-- And so does a round. -/
theorem evalStep_newVals {s s' : EvalState} {curVal : Ptr} {ptr : ValuePtr} {entry : Entry}
    (current : s.curVal = some curVal)
    (read : s.flow.valSchedule.read pointerSize curVal = some ptr)
    (describes : entry.Describes given ptr) (taken : evalStep given natives s = some (.inl s')) :
    s'.flow.newVals.elemCount = s.flow.newVals.elemCount + entry.callQtt := by
  simp only [evalStep, evalStepWith, current, read, Option.bind_eq_bind, Option.bind_some,
    Option.bind_eq_some_iff] at taken
  obtain ⟨outcome, evaluated, onward⟩ := taken
  cases outcome with
  | inr flow => cases onward
  | inl flow =>
      obtain ⟨⟨next, valSchedule⟩, -, same⟩ := Option.bind_eq_some_iff.mp onward
      cases same
      have counted := evalVal_newVals describes evaluated
      exact counted

end NewVals

/-! ## One evaluation -/

/-- The frame after the result was taken, or not. -/
def Frame.taken (frame : Frame) (takes : Bool) : Frame :=
  if takes then ⟨frame.vals.tail, frame.lost⟩ else frame

/-- The frame after a round. -/
def Expr.roundFrame (natives : Natives) (expr : Expr) (frame : Frame) (takes : Bool) : Frame :=
  (expr.leaves natives frame).taken takes

section Frames

variable {natives : Natives} {expr : Expr}

/-- A round in which the result is left counts one value more. -/
theorem Expr.count_roundFrame (frame : Frame) (takes : Bool) :
    (expr.roundFrame natives frame takes).count = frame.count + [takes].count false := by
  obtain ⟨others, leaves, counted, -⟩ := expr.leaves_cons natives frame
  rw [roundFrame, leaves]
  cases takes with
  | true => exact counted
  | false =>
      simp only [Frame.taken, Frame.count, List.length_cons, Bool.false_eq_true, ↓reduceIte,
        List.count_cons_self, List.count_nil] at counted ⊢
      omega

/-- The rounds count the results that were left. -/
theorem Expr.count_rounds (rounds : List Bool) (frame : Frame) :
    (rounds.foldl (expr.roundFrame natives) frame).count = frame.count + rounds.count false := by
  induction rounds generalizing frame with
  | nil => rfl
  | cons takes rounds ih =>
      rw [List.foldl_cons, ih, count_roundFrame, Nat.add_assoc, ← List.count_append]
      rfl

/-- After rounds of a call no more than the last result is there. -/
theorem Expr.length_rounds (isCall : expr.isLiteral = false) (rounds : List Bool) :
    (rounds.foldl (expr.roundFrame natives) .empty).vals.length =
      if rounds.getLast? = some false then 1 else 0 := by
  rcases List.eq_nil_or_concat' rounds with rfl | ⟨front, takes, rfl⟩
  · rfl
  · obtain ⟨others, leaves, -, alone⟩ :=
      expr.leaves_cons natives (front.foldl (expr.roundFrame natives) .empty)
    rw [List.foldl_append, List.foldl_cons, List.foldl_nil, roundFrame, leaves, alone isCall]
    cases takes <;> simp [Frame.taken]

end Frames

section Rounds

variable {given : Given} {natives : Natives} {In : LFList (Cell ValuePtr) → Prop}
  {elems back : List (Ptr × ValuePtr)} {entries : List Entry} {frame frame' : Frame}
  {s : EvalState} {flow : Flow} {expr : Expr}

/-- Entries that change the frame do not end the evaluation. -/
theorem Expr.RunsTo.cons {entry : Entry}
    (runsTo : RunsTo natives.partials (entry :: entries) frame frame') :
    ∃ frame₁, frame.step natives.partials entry = some (.inl frame₁) ∧
      RunsTo natives.partials entries frame₁ frame' := by
  have ends := runsTo []
  have fails : Frame.run natives.partials (entry :: (entries ++ [.refused])) frame = none :=
    runsTo [.refused]
  cases stepped : frame.step natives.partials entry with
  | none => simp [Frame.run, stepped] at ends
  | some outcome =>
      cases outcome with
      | inr last => simp [Frame.run, stepped] at fails
      | inl frame₁ =>
          refine ⟨frame₁, rfl, ?_⟩
          intro rest
          rw [← runsTo rest, List.cons_append, Frame.run, stepped]
          rfl

/-- **The rounds** on entries that change the frame, with the schedule kept and the slots
of the calls taken. -/
theorem evalStep_through (walks : LFList.Walks In pointerSize elems)
    (here : s.At given In elems back entries frame)
    (runsTo : Expr.RunsTo natives.partials entries frame frame') :
    ∃ flow, iterate (evalStep given natives) (entries.length + 1) s = some flow ∧
      flow.Frames given frame' ∧ In flow.valSchedule ∧
      flow.newVals.elemCount = s.flow.newVals.elemCount + (entries.map Entry.callQtt).sum := by
  induction entries generalizing back frame s with
  | nil =>
      obtain rfl : frame = frame' := Option.some.inj (runsTo [])
      cases here.describes
      exact ⟨s.flow, iterate_done (evalStepWith_last here), here.frames, here.schedule, rfl⟩
  | cons entry entries ih =>
      obtain ⟨frame₁, stepped, onward⟩ := runsTo.cons
      obtain ⟨e, back, rfl⟩ := here.cons
      obtain ⟨front, split⟩ := here.ahead
      have member : e ∈ elems := by
        rw [split]
        exact List.mem_append_right _ (List.mem_cons_self ..)
      have described := (List.forall₂_cons.mp here.describes).1
      have counted := fun s' => @evalStep_newVals given natives s s' e.1 e.2 entry here.current
        (walks.read _ here.schedule e member) described
      have round : RoundOutcome given In elems back entries (evalStep given natives s)
          (frame.step natives.partials entry) :=
        evalStepWith_spec (runNative_implements given natives _) walks.toPasses
          (walks.onward split) here
      rw [stepped] at round
      generalize taken : evalStep given natives s = result at round
      cases round with
      | @goesOn s' frame' next =>
          obtain ⟨flow, ends, frames, schedule, total⟩ := ih next onward
          refine ⟨flow, (iterate_next taken).trans ends, frames, schedule, ?_⟩
          rw [total, counted s' taken, List.map_cons, List.sum_cons, Nat.add_assoc]

variable (natives)

/-- An evaluation of a left-nested expression on any frame. -/
theorem lfEvalFlow_again (walks : LFList.Walks In pointerSize elems)
    (schedule : In flow.valSchedule)
    (describes : List.Forall₂ (fun e entry => entry.Describes given e.2) elems expr.entries)
    (frames : flow.Frames given frame) (nested : expr.leftNested) {fuel : ℕ}
    (enough : expr.entries.length < fuel) :
    ∃ flow', lfEvalFlow given natives fuel flow = some flow' ∧ In flow'.valSchedule ∧
      flow'.Frames given (expr.leaves natives frame) ∧
      flow'.newVals.elemCount = flow.newVals.elemCount + expr.callQtt := by
  obtain ⟨list, found, schedule'⟩ := walks.first _ schedule
  have here : EvalState.At given In elems elems expr.entries frame
      ⟨elems.head?.map Prod.fst, { flow with valSchedule := list }⟩ :=
    ⟨⟨[], rfl⟩, rfl, schedule', describes, frames.withSchedule list⟩
  obtain ⟨flow', ends, frames', kept, total⟩ :=
    evalStep_through walks here (expr.runsTo_leaves nested frame)
  refine ⟨flow', ?_, kept, frames', total⟩
  have evaluated := iterate_mono ends enough
  rw [evalStep] at evaluated
  simp [lfEvalFlow, lfEvalFlowWith, evalStart, found, evaluated]

/-- **One round** gives the value of the expression to a caller that takes it. -/
theorem evalRound_spec (walks : LFList.Walks In pointerSize elems) (schedule : In flow.valSchedule)
    (describes : List.Forall₂ (fun e entry => entry.Describes given e.2) elems expr.entries)
    (frames : flow.Frames given frame) (nested : expr.leftNested) {fuel : ℕ}
    (enough : expr.entries.length < fuel) (takes : Bool) :
    ∃ flow', evalRound given natives fuel takes flow =
        some (if takes then some (expr.eval natives) else none, flow') ∧ In flow'.valSchedule ∧
      flow'.Frames given (expr.roundFrame natives frame takes) ∧
      flow'.newVals.elemCount = flow.newVals.elemCount + expr.callQtt := by
  obtain ⟨flow₁, evaluated, kept, frames₁, total⟩ :=
    lfEvalFlow_again natives walks schedule describes frames nested enough
  cases takes with
  | false => exact ⟨flow₁, by simp [evalRound, evaluated], kept, frames₁, total⟩
  | true =>
      obtain ⟨others, leaves, -⟩ := expr.leaves_cons natives frame
      rw [leaves] at frames₁
      obtain ⟨ptr, frameVals, popped, found, frames'⟩ := frames₁.take
      refine ⟨{ flow₁ with frameVals }, by simp [evalRound, evaluated, popped, found], kept, ?_,
        total⟩
      rw [Expr.roundFrame, leaves]
      exact frames'

/-- **The rounds** of a caller. -/
theorem evalRound_run (walks : LFList.Walks In pointerSize elems) (schedule : In flow.valSchedule)
    (describes : List.Forall₂ (fun e entry => entry.Describes given e.2) elems expr.entries)
    (frames : flow.Frames given frame) (nested : expr.leftNested) {fuel : ℕ}
    (enough : expr.entries.length < fuel) (rounds : List Bool) :
    ∃ flow', run (evalRound given natives fuel) rounds flow =
        some (rounds.map fun takes => if takes then some (expr.eval natives) else none, flow') ∧
      flow'.Frames given (rounds.foldl (expr.roundFrame natives) frame) ∧
      flow'.newVals.elemCount = flow.newVals.elemCount + rounds.length * expr.callQtt := by
  induction rounds generalizing flow frame with
  | nil => exact ⟨flow, rfl, frames, by simp⟩
  | cons takes rounds ih =>
      obtain ⟨flow₁, first, kept, frames₁, total₁⟩ :=
        evalRound_spec natives walks schedule describes frames nested enough takes
      obtain ⟨flow', rest, frames', total⟩ := ih kept frames₁
      refine ⟨flow', run_cons first rest, frames', ?_⟩
      rw [total, total₁, List.length_cons, Nat.succ_mul]
      omega

end Rounds

/-- **A planned flow can be evaluated again and again.** When the schedule is the
post-order of the tree and fits in one block, calls are first arguments only, and a
caller evaluates the flow in rounds, taking the result or leaving it, each result that
it takes is the value of the expression. Each call takes a new slot in each round. The
frame counts all results that were left, but after a call no more than the last one is
there. Otherwise the first round fails. -/
theorem evaluates_again (setting : Setting) (given : Given) (natives : Natives)
    (values : setting.values = given.values) (minLevel : Member LogLevel)
    (timeFmt : Member (Option String)) (tree : Rose ValuePtr) (expr : Expr)
    (encodes : Encodes given tree expr) (objects : Objects) (strings : setting.StringsLead objects)
    (calls : List PipelineCall)
    (planned : (Planner.new.calls tree calls).plan.flow = some tree.postorder)
    (fits : tree.nodes ≤ passPipelineValScheduleQttInBlock) :
    ∃ least pipeline' logger flow, (∀ rounds ≥ least,
        (pipelineCalls (setting.withRounds rounds)
          (.declared setting minLevel timeFmt (some tree.label) .none objects)
          (.initPassPipeline :: calls)).result = some pipeline') ∧
      pipeline'.parentFlow = some (logger, flow) ∧
      (expr.leftNested → ∀ fuel > tree.nodes, ∀ rounds : List Bool, ∃ flow',
        run (evalRound given natives fuel) rounds flow =
          some (rounds.map fun takes => if takes then some (expr.eval natives) else none, flow') ∧
        flow'.frameVals.elemCount = rounds.count false ∧
        flow'.newVals.elemCount = flow.newVals.elemCount + rounds.length * expr.callQtt ∧
        (expr.isLiteral = false → ∀ n,
          flow'.frameVals.HasLive n ↔ n ≤ if rounds.getLast? = some false then 1 else 0)) ∧
      (¬ expr.leftNested → ∀ fuel rounds, rounds ≠ [] →
        run (evalRound given natives fuel) rounds flow = none) := by
  have spells : Spells setting.values tree := values ▸ encodes.spells
  have length : tree.postorder.length = tree.nodes := Rose.length_postorder tree
  obtain ⟨least, pipeline', logger, flow, done, hasFlow, plans⟩ :=
    exists_planned_flow minLevel timeFmt spells strings planned
  have scheduled := plans.scheduled (by rwa [length]) encodes.describes
  refine ⟨least, pipeline', logger, flow, done, hasFlow, ?_,
    ?_⟩
  · intro nested fuel enough rounds
    obtain ⟨frames, In, elems, walks, schedule, describes⟩ := scheduled
    rw [← length, encodes.describes.length_eq] at enough
    obtain ⟨flow', runs, frames', total⟩ :=
      evalRound_run natives walks schedule describes frames nested enough rounds
    refine ⟨flow', runs, ?_, total, ?_⟩
    · rw [frames'.count, Expr.count_rounds]
      exact Nat.zero_add _
    · intro isCall n
      obtain ⟨-, -, used, live, ptrs, -, stores, denotes⟩ := frames'
      rw [stores.hasLive_iff, denotes.length_eq, Expr.length_rounds isCall]
  · intro nested fuel rounds some_round
    obtain ⟨takes, others, rfl⟩ := List.exists_cons_of_ne_nil some_round
    have ends := lfEvalFlowWith_run (runNative_implements given natives _) scheduled
    rw [Expr.run_entries, if_neg nested] at ends
    simp [run, evalRound, lfEvalFlow, ends fuel]

/-- The flow that `main` would plan for `+(4, 5)`, evaluated twice: the result is left,
and then taken. One result is still counted, but none is there. -/
theorem evaluates_again_sum :
    ∃ pipeline' logger flow flow', (∃ rounds,
        (pipelineCalls ((sumSetting sumLeftover).withRounds rounds)
          (.declared (sumSetting sumLeftover) (.stored .debug) (.stored none) (some (.given 3))
            .none sumObjects)
          sumCalls).result = some pipeline') ∧
      pipeline'.parentFlow = some (logger, flow) ∧
      run (evalRound sumGiven sumNatives 4) [false, true] flow =
        some ([none, some (.ofInt 9)], flow') ∧
      flow'.frameVals.elemCount = 1 ∧ ¬ flow'.frameVals.HasLive 1 := by
  obtain ⟨least, pipeline', logger, flow, done, made, again, -⟩ :=
    evaluates_again (sumSetting sumLeftover) sumGiven sumNatives sumGiven_values.symm
      (.stored .debug) (.stored none) sumTree _ sum_encodes sumObjects sum_strings
      sumCalls.tail rfl (by decide)
  obtain ⟨flow', runs, count, -, live⟩ := again rfl 4 (by decide) [false, true]
  refine ⟨pipeline', logger, flow, flow', ⟨least, done least le_rfl⟩, made, runs, count, ?_⟩
  rw [live rfl]
  decide

end LowFlow
