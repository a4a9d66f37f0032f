import LowFlow.Runtime.Flow

/-!
# What an evaluation does

A round of the loop of `lf_eval_flow` does to the stacks of the flow what the entry
of the schedule does to the frame, when the native functions compute some partial
functions of their arguments. So the evaluation of a schedule ends exactly where the
run of its entries on a frame does (`lfEvalFlowWith_run`).
-/

set_option autoImplicit false

namespace LowFlow

open Library

/-! ## The frame of a flow -/

/-- A pointer to a value: to a declared one, or to one of the new values. -/
inductive Denotes (given : Given) (live : List (Element (Cell Value))) :
    ValuePtr → Value → Prop where
  | given {id : ℕ} {value : Value} (found : given id = some value) :
      Denotes given live (.given id) value
  | slot {ptr : Ptr} {value : Value} (member : (ptr, pieces valueSize value) ∈ live) :
      Denotes given live (.slot ptr) value

/-- The stacks of the flow are those of this frame. -/
structure Flow.Frames (given : Given) (flow : Flow) (frame : Frame) : Prop where
  size : flow.newVals.elemSize = valueSize
  count : flow.frameVals.elemCount = frame.count
  stores : ∃ used live ptrs, flow.newVals.Holds used [] live ∧
    flow.frameVals.Stores pointerSize ptrs ∧ List.Forall₂ (Denotes given live) ptrs frame.vals

section Frames

variable {given : Given} {flow : Flow} {frame : Frame}

theorem Denotes.more {live more : List (Element (Cell Value))} {ptr : ValuePtr} {value : Value}
    (denotes : Denotes given live ptr value) (kept : ∀ e ∈ live, e ∈ more) :
    Denotes given more ptr value := by
  cases denotes with
  | given found => exact .given found
  | slot member => exact .slot (kept _ member)

/-- A value that is denoted is found in memory. -/
theorem Denotes.found {used : Deck (Cell Value)} {live : List (Element (Cell Value))}
    {ptr : ValuePtr} {value : Value} (denotes : Denotes given live ptr value)
    (size : flow.newVals.elemSize = valueSize) (holds : flow.newVals.Holds used [] live) :
    flow.values given ptr = some value := by
  cases denotes with
  | given found => exact found
  | slot member =>
      have loaded := holds.load member
      rw [size] at loaded
      simp [Flow.values, loaded, whole_pieces (show 0 < valueSize by decide)]

/-- The schedule of a flow is not part of its frame. -/
theorem Flow.Frames.withSchedule (frames : flow.Frames given frame)
    (valSchedule : LFList (Cell ValuePtr)) :
    Flow.Frames given { flow with valSchedule } frame :=
  ⟨frames.size, frames.count, frames.stores⟩

/-- A result on top of the frame is taken. -/
theorem Flow.Frames.take {value : Value} {vals : List Value} {lost : ℕ}
    (frames : flow.Frames given ⟨value :: vals, lost⟩) :
    ∃ ptr frameVals, flow.frameVals.popValue pointerSize = some (ptr, frameVals) ∧
      flow.values given ptr = some value ∧
      Flow.Frames given { flow with frameVals } ⟨vals, lost⟩ := by
  obtain ⟨size, count, used, live, ptrs, holds, stores, denotes⟩ := frames
  cases denotes with
  | cons here others =>
      obtain ⟨frameVals, popped, stores', -, less, -⟩ := stores.pop
      refine ⟨_, frameVals, popped, here.found size holds, size, ?_, used, live, _, holds, stores',
        others⟩
      rw [show frameVals.elemCount = flow.frameVals.elemCount - 1 from less, count]
      simp only [Frame.count, List.length_cons]
      omega

/-- Reading the values of several pointers. -/
theorem mapM_eq_some {α γ : Type} {f : α → Option γ} {as : List α} {bs : List γ}
    (each : List.Forall₂ (fun a b => f a = some b) as bs) : as.mapM f = some bs := by
  induction each with
  | nil => rfl
  | cons here _ ih => simp [here, ih]

/-- Declared values are in the memory of a flow. -/
theorem Flow.values_of_given {ptr : ValuePtr} {value : Value}
    (found : given.values ptr = some value) : flow.values given ptr = some value := by
  cases ptr with
  | given id => exact found
  | slot ptr => cases found

theorem Flow.calledSpec_of_given {call : Value} {spec : FuncDefSpec}
    (called : call.calledSpec given.values = some spec) :
    call.calledSpec (flow.values given) = some spec := by
  simp only [Value.calledSpec, Option.bind_eq_bind, Option.bind_eq_some_iff] at called ⊢
  obtain ⟨funcDef, here, value, found, specified⟩ := called
  exact ⟨funcDef, here, value, Flow.values_of_given found, specified⟩

end Frames

/-- The types of the literals. -/
def literalTypes : List ValueType := [.int, .float, .char, .str, .bool]

/-- What an entry of the schedule is. -/
inductive Entry.Describes (given : Given) (ptr : ValuePtr) : Entry → Prop where
  | literal {value : Value} (found : given.values ptr = some value)
      (kind : value.type ∈ literalTypes) : Describes given ptr (.literal value)
  | call {value : Value} {argQtt nativeImpl : ℕ} (found : given.values ptr = some value)
      (kind : value.type = .funcCall)
      (called : value.calledSpec given.values = some ⟨argQtt, some nativeImpl⟩) :
      Describes given ptr (.call argQtt nativeImpl)
  | refused {value : Value} (found : given.values ptr = some value)
      (kind : value.type ∉ .funcCall :: literalTypes) : Describes given ptr .refused

/-- The native functions of the calls compute this. -/
def NativeImpls.Implement (impls : NativeImpls) (given : Given) (fs : Partials)
    (entries : List Entry) : Prop :=
  ∀ argQtt nativeImpl, Entry.call argQtt nativeImpl ∈ entries →
    ∀ out flow, impls argQtt nativeImpl out flow =
      runPartial given (fs nativeImpl) argQtt out flow

theorem runNative_implements (given : Given) (natives : Natives) (entries : List Entry) :
    (runNative given natives).Implement given natives.partials entries :=
  fun _ _ _ _ _ => rfl

/-- The first entry, and the others. -/
theorem NativeImpls.Implement.cons {impls : NativeImpls} {given : Given} {fs : Partials}
    {entry : Entry} {entries : List Entry}
    (implements : impls.Implement given fs (entry :: entries)) :
    impls.Implement given fs [entry] ∧ impls.Implement given fs entries :=
  ⟨fun argQtt nativeImpl member => implements argQtt nativeImpl
      (List.mem_singleton.mp member ▸ List.mem_cons_self ..),
    fun argQtt nativeImpl member => implements argQtt nativeImpl (List.mem_cons_of_mem _ member)⟩

section Rounds

variable {given : Given} {impls : NativeImpls} {fs : Partials} {flow : Flow} {frame : Frame}

/-- A native function that finds its arguments writes its result, or fails where it is not
defined. -/
theorem runPartial_spec {f : List Value → Option Value} {argQtt : ℕ} {out : Ptr}
    {old : List (Cell Value)} {used : Deck (Cell Value)} {live : List (Element (Cell Value))}
    {ptrs : List ValuePtr} (size : flow.newVals.elemSize = valueSize)
    (holds : flow.newVals.Holds used [] ((out, old) :: live))
    (stores : flow.frameVals.Stores pointerSize ptrs)
    (denotes : List.Forall₂ (Denotes given live) ptrs frame.vals)
    (enough : argQtt ≤ frame.vals.length) :
    match f (frame.vals.take argQtt).reverse with
    | none => runPartial given f argQtt out flow = none
    | some res =>
        ∃ flow' used', runPartial given f argQtt out flow = some flow' ∧
          flow'.newVals.Holds used' [] ((out, pieces valueSize res) :: live) ∧
          flow'.newVals.elemSize = valueSize ∧
          flow'.frameVals.Stores pointerSize (ptrs.drop argQtt) ∧
          flow'.frameVals.elemCount = flow.frameVals.elemCount - argQtt ∧
          flow'.valSchedule = flow.valSchedule := by
  have counts := denotes.length_eq
  obtain ⟨frameVals, popped, stores', -, count, -⟩ := stores.popValues (n := argQtt) (by omega)
  have args : (ptrs.take argQtt).reverse.mapM (flow.values given) =
      some (frame.vals.take argQtt).reverse := by
    apply mapM_eq_some
    apply List.rel_reverse
    refine (List.forall₂_take argQtt denotes).imp ?_
    intro ptr value here
    exact (here.more fun e member => List.mem_cons_of_mem _ member).found size holds
  cases defined : f (frame.vals.take argQtt).reverse with
  | none => simp [runPartial, popped, args, defined]
  | some res =>
      obtain ⟨newVals, used', stored, holds', keeps, -⟩ :=
        holds.overwrite ((length_pieces valueSize res).trans size.symm)
      exact ⟨{ flow with frameVals, newVals }, used',
        by simp [runPartial, popped, args, defined, stored], holds', keeps.size.trans size, stores',
        count, rfl⟩

/-- How an evaluation goes on, and how the frame does. -/
inductive Outcome (given : Given) (schedule : LFList (Cell ValuePtr)) :
    Option (Flow ⊕ Flow) → Option (Frame ⊕ Frame) → Prop where
  | fails : Outcome given schedule none none
  | goesOn {flow : Flow} {frame : Frame} (frames : flow.Frames given frame)
      (same : flow.valSchedule = schedule) :
      Outcome given schedule (some (.inl flow)) (some (.inl frame))
  | finishes {flow : Flow} {frame : Frame} (frames : flow.Frames given frame) :
      Outcome given schedule (some (.inr flow)) (some (.inr frame))

/-- A call does to the frame what its entry does. -/
theorem evalCall_spec {call : Value} {argQtt nativeImpl : ℕ}
    (implements : impls.Implement given fs [.call argQtt nativeImpl])
    (called : call.calledSpec given.values = some ⟨argQtt, some nativeImpl⟩)
    (frames : flow.Frames given frame) :
    Outcome given flow.valSchedule (evalCall given impls call flow)
      (frame.step fs (.call argQtt nativeImpl)) := by
  obtain ⟨size, count, used, live, ptrs, holds, stores, denotes⟩ := frames
  obtain ⟨out, newVals, used₁, old, alloc, holds₁, keeps₁, -, -⟩ := holds.alloc
  have size₁ : newVals.elemSize = valueSize := keeps₁.size.trans size
  have spec : call.calledSpec (Flow.values { flow with newVals } given) =
      some ⟨argQtt, some nativeImpl⟩ := Flow.calledSpec_of_given called
  have counts := denotes.length_eq
  by_cases few : frame.count < argQtt
  · have refused : evalCall given impls call flow = some (.inr { flow with newVals }) := by
      simp [evalCall, alloc, spec, count, few]
    have finished : frame.step fs (.call argQtt nativeImpl) = some (.inr frame) := by
      simp [Frame.step, few]
    rw [refused, finished]
    exact .finishes ⟨size₁, count, used₁, _, ptrs, holds₁, stores,
      denotes.imp fun _ _ here => here.more fun e member => List.mem_cons_of_mem _ member⟩
  have runs : impls argQtt nativeImpl out { flow with newVals } =
      runPartial given (fs nativeImpl) argQtt out { flow with newVals } :=
    implements argQtt nativeImpl (List.mem_singleton_self _) out _
  by_cases enough : argQtt ≤ frame.vals.length
  · have ran := @runPartial_spec given { flow with newVals } frame (fs nativeImpl) argQtt out old
      used₁ live ptrs size₁ holds₁ stores denotes enough
    cases defined : fs nativeImpl (frame.vals.take argQtt).reverse with
    | none =>
        simp only [defined] at ran
        have stuck : evalCall given impls call flow = none := by
          simp [evalCall, alloc, spec, count, few, runs, ran]
        have fails : frame.step fs (.call argQtt nativeImpl) = none := by
          simp [Frame.step, few, enough, defined]
        rw [stuck, fails]
        exact .fails
    | some res =>
        simp only [defined] at ran
        obtain ⟨flow₂, used₂, ran, holds₂, size₂, stores₂, count₂, same⟩ := ran
        obtain ⟨frameVals, reset, stores₃, -, count₃⟩ := stores₂.reset
        obtain ⟨frameVals', pushed, stores₄, -, count₄⟩ := stores₃.push (.slot out)
        have goes : evalCall given impls call flow =
            some (.inl { flow₂ with frameVals := frameVals' }) := by
          simp [evalCall, alloc, spec, count, few, runs, ran, reset, pushed]
        have stepped : frame.step fs (.call argQtt nativeImpl) =
            some (.inl ⟨[res], frame.lost + (frame.vals.length - argQtt)⟩) := by
          simp [Frame.step, few, enough, defined]
        rw [goes, stepped]
        refine .goesOn ⟨size₂, ?_, used₂, _, [.slot out], holds₂, stores₄, ?_⟩ same
        · have total : flow.frameVals.elemCount = frame.vals.length + frame.lost := count
          have left : flow₂.frameVals.elemCount = flow.frameVals.elemCount - argQtt := count₂
          simp only [Frame.count, List.length_singleton]
          omega
        · exact .cons (.slot (List.mem_cons_self ..)) .nil
  · have past : Stack.popValues pointerSize argQtt flow.frameVals = none :=
      stores.popValues_past (by omega) (by omega)
    have stuck : evalCall given impls call flow = none := by
      simp [evalCall, alloc, spec, count, few, runs, runPartial, past]
    have fails : frame.step fs (.call argQtt nativeImpl) = none := by
      simp [Frame.step, few, enough]
    rw [stuck, fails]
    exact .fails

/-- **One value** of the schedule does what its entry does. -/
theorem evalVal_spec {ptr : ValuePtr} {entry : Entry}
    (implements : impls.Implement given fs [entry])
    (describes : entry.Describes given ptr) (frames : flow.Frames given frame) :
    Outcome given flow.valSchedule (evalVal given impls ptr flow) (frame.step fs entry) := by
  cases describes with
  | @call value argQtt nativeImpl found kind called =>
      have goes : evalVal given impls ptr flow = evalCall given impls value flow := by
        simp [evalVal, Flow.values_of_given found, kind]
      rw [goes]
      exact evalCall_spec implements called frames
  | @literal value found kind =>
      obtain ⟨size, count, used, live, ptrs, holds, stores, denotes⟩ := frames
      obtain ⟨frameVals, pushed, stores', -, more⟩ := stores.push ptr
      have goes : evalVal given impls ptr flow = some (.inl { flow with frameVals }) := by
        simp only [literalTypes, List.mem_cons, List.not_mem_nil, or_false] at kind
        rcases kind with kind | kind | kind | kind | kind <;>
          simp [evalVal, Flow.values_of_given found, kind, pushed]
      rw [goes]
      refine .goesOn ⟨size, ?_, used, live, ptr :: ptrs, holds, stores', .cons ?_ denotes⟩ rfl
      · rw [show frameVals.elemCount = flow.frameVals.elemCount + 1 from more, count]
        simp only [Frame.count, List.length_cons]
        omega
      · cases ptr with
        | given id => exact .given found
        | slot ptr => cases found
  | @refused value found kind =>
      have stuck : evalVal given impls ptr flow = none := by
        cases type : value.type <;>
          simp_all [evalVal, Flow.values_of_given found, literalTypes]
      rw [stuck]
      exact .fails

end Rounds

/-! ## The rounds of the loop -/

/-- The evaluation has these entries of the schedule ahead, and this frame. -/
structure EvalState.At (given : Given) (In : LFList (Cell ValuePtr) → Prop)
    (elems back : List (Ptr × ValuePtr)) (entries : List Entry) (frame : Frame) (s : EvalState) :
    Prop where
  ahead : ∃ front, elems = front ++ back
  current : s.curVal = back.head?.map Prod.fst
  schedule : In s.flow.valSchedule
  describes : List.Forall₂ (fun e entry => entry.Describes given e.2) back entries
  frames : s.flow.Frames given frame

/-- The flow has a schedule with these entries, and nothing on its frame. -/
def Flow.Scheduled (flow : Flow) (given : Given) (entries : List Entry) : Prop :=
  flow.Frames given .empty ∧ ∃ In elems, LFList.Walks In pointerSize elems ∧ In flow.valSchedule ∧
    List.Forall₂ (fun e entry => entry.Describes given e.2) elems entries

section Loop

variable {given : Given} {impls : NativeImpls} {fs : Partials}
  {In : LFList (Cell ValuePtr) → Prop} {elems back : List (Ptr × ValuePtr)} {entry : Entry}
  {entries : List Entry} {frame : Frame}
  {s : EvalState}

/-- With an entry ahead there is an element for it. -/
theorem EvalState.At.cons (here : s.At given In elems back (entry :: entries) frame) :
    ∃ e rest, back = e :: rest := by
  cases here.describes
  exact ⟨_, _, rfl⟩

/-- The evaluation starts at the first entry. -/
theorem evalStart_spec {flow : Flow} (passes : LFList.Passes In pointerSize elems)
    (schedule : In flow.valSchedule)
    (describes : List.Forall₂ (fun e entry => entry.Describes given e.2) elems entries)
    (frames : flow.Frames given frame) :
    ∃ s, evalStart flow = some s ∧ s.At given In elems elems entries frame := by
  obtain ⟨list, found, schedule'⟩ := passes.first _ schedule
  refine ⟨⟨elems.head?.map Prod.fst, { flow with valSchedule := list }⟩,
    by simp [evalStart, found], ?_⟩
  exact ⟨⟨[], rfl⟩, rfl, schedule', describes, frames.withSchedule list⟩

/-- How a round goes on, and how the frame does. -/
inductive RoundOutcome (given : Given) (In : LFList (Cell ValuePtr) → Prop)
    (elems back : List (Ptr × ValuePtr)) (entries : List Entry) :
    Option (EvalState ⊕ Flow) → Option (Frame ⊕ Frame) → Prop where
  | fails : RoundOutcome given In elems back entries none none
  | goesOn {s : EvalState} {frame : Frame} (next : s.At given In elems back entries frame) :
      RoundOutcome given In elems back entries (some (.inl s)) (some (.inl frame))
  | finishes {flow : Flow} {frame : Frame} (frames : flow.Frames given frame) :
      RoundOutcome given In elems back entries (some (.inr flow)) (some (.inr frame))

/-- **One round** does to the frame what the entry does. -/
theorem evalStepWith_spec {e : Ptr × ValuePtr} (implements : impls.Implement given fs [entry])
    (passes : LFList.Passes In pointerSize elems)
    (onward : ∀ list, In list → ∃ list',
      lfGetNextListElem list e.1 = some (back.head?.map Prod.fst, list') ∧ In list')
    (here : s.At given In elems (e :: back) (entry :: entries) frame) :
    RoundOutcome given In elems back entries (evalStepWith given impls s)
      (frame.step fs entry) := by
  obtain ⟨⟨front, split⟩, current, schedule, described, frames⟩ := here
  obtain ⟨describes, others⟩ := List.forall₂_cons.mp described
  have member : e ∈ elems := by
    rw [split]
    exact List.mem_append_right _ (List.mem_cons_self ..)
  have read := passes.read _ schedule e member
  have current : s.curVal = some e.1 := current
  have outcome := evalVal_spec implements describes frames
  generalize evaluated : evalVal given impls e.2 s.flow = result at outcome
  generalize frame.step fs entry = stepped at outcome
  cases outcome with
  | fails =>
      have stuck : evalStepWith given impls s = none := by
        simp [evalStepWith, current, read, evaluated]
      rw [stuck]
      exact .fails
  | @finishes flow frame' frames' =>
      have done : evalStepWith given impls s = some (.inr flow) := by
        simp [evalStepWith, current, read, evaluated]
      rw [done]
      exact .finishes frames'
  | @goesOn flow frame' frames' same =>
      rw [← same] at schedule
      obtain ⟨list, found, schedule'⟩ := onward _ schedule
      have next : evalStepWith given impls s =
          some (.inl ⟨back.head?.map Prod.fst, { flow with valSchedule := list }⟩) := by
        simp [evalStepWith, current, read, evaluated, found]
      rw [next]
      exact .goesOn
        ⟨⟨front ++ [e], by simp [split]⟩, rfl, schedule', others, frames'.withSchedule list⟩

/-- A round fails when the element after the last one cannot be looked up, unless the
evaluation finishes in it. -/
theorem evalStepWith_breaks {e : Ptr × ValuePtr} (implements : impls.Implement given fs [entry])
    (breaks : LFList.Breaks In pointerSize elems)
    (here : s.At given In elems [e] (entry :: entries) frame)
    (unfinished : ∀ frame', frame.step fs entry ≠ some (.inr frame')) :
    evalStepWith given impls s = none := by
  obtain ⟨⟨front, split⟩, current, schedule, described, frames⟩ := here
  obtain ⟨describes, -⟩ := List.forall₂_cons.mp described
  have read := breaks.read _ schedule e (by simp [split])
  have current : s.curVal = some e.1 := current
  have outcome := evalVal_spec implements describes frames
  generalize evaluated : evalVal given impls e.2 s.flow = result at outcome
  generalize frame.step fs entry = stepped at outcome unfinished
  cases outcome with
  | fails => simp [evalStepWith, current, read, evaluated]
  | finishes => exact absurd rfl (unfinished _)
  | @goesOn flow frame' frames' same =>
      rw [← same] at schedule
      have stuck := breaks.last _ front e schedule split
      simp [evalStepWith, current, read, evaluated, stuck]

/-- Behind the last entry the evaluation finishes. -/
theorem evalStepWith_last (here : s.At given In elems [] [] frame) :
    evalStepWith given impls s = some (.inr s.flow) := by
  have current : s.curVal = none := here.current
  simp [evalStepWith, current]

/-- **The rounds** do to the frame what the entries do. -/
theorem evalStepWith_run (implements : impls.Implement given fs entries)
    (walks : LFList.Walks In pointerSize elems)
    (here : s.At given In elems back entries frame) :
    match Frame.run fs entries frame with
    | none => ∀ fuel, iterate (evalStepWith given impls) fuel s = none
    | some frame' =>
        ∃ flow, Returns (evalStepWith given impls) s flow ∧ flow.Frames given frame' := by
  induction entries generalizing back frame s with
  | nil =>
      cases here.describes
      exact ⟨s.flow, .of_done (evalStepWith_last here), here.frames⟩
  | cons entry entries ih =>
      obtain ⟨e, back, rfl⟩ := here.cons
      obtain ⟨front, split⟩ := here.ahead
      have round := evalStepWith_spec implements.cons.1 walks.toPasses (walks.onward split) here
      simp only [Frame.run]
      generalize taken : evalStepWith given impls s = result at round
      generalize frame.step fs entry = stepped at round
      cases round with
      | fails =>
          intro fuel
          exact iterate_fails taken fuel
      | @finishes flow frame' frames => exact ⟨flow, .of_done taken, frames⟩
      | @goesOn s' frame' next =>
          have onward := ih implements.cons.2 next
          simp only [Option.bind_eq_bind, Option.bind_some]
          cases runs : Frame.run fs entries frame' with
          | none =>
              rw [runs] at onward
              intro fuel
              cases fuel with
              | zero => rfl
              | succ fuel => rw [iterate_next taken, onward fuel]
          | some last =>
              rw [runs] at onward
              obtain ⟨flow, returns, frames⟩ := onward
              exact ⟨flow, .of_next taken returns, frames⟩

/-- The rounds fail when the element after the last one cannot be looked up, unless a
call is refused before. -/
theorem evalStepWith_run_breaks (implements : impls.Implement given fs entries)
    (breaks : LFList.Breaks In pointerSize elems)
    (here : s.At given In elems back entries frame) (nonempty : entries ≠ [])
    (unfinished : Frame.run fs (entries ++ [.refused]) frame = none) (fuel : ℕ) :
    iterate (evalStepWith given impls) fuel s = none := by
  induction entries generalizing back frame s fuel with
  | nil => exact absurd rfl nonempty
  | cons entry entries ih =>
      obtain ⟨e, back, rfl⟩ := here.cons
      have notNow : ∀ frame', frame.step fs entry ≠ some (.inr frame') := by
        intro frame' finished
        simp [Frame.run, finished] at unfinished
      cases back with
      | nil => exact iterate_fails (evalStepWith_breaks implements.cons.1 breaks here notNow) fuel
      | cons e' back =>
          obtain ⟨front, split⟩ := here.ahead
          have round := evalStepWith_spec implements.cons.1 breaks.toPasses
            (fun list inStates => breaks.next list front e e' back inStates split) here
          simp only [List.cons_append, Frame.run] at unfinished
          generalize taken : evalStepWith given impls s = result at round
          generalize frame.step fs entry = stepped at round unfinished notNow
          cases round with
          | fails => exact iterate_fails taken fuel
          | finishes => exact absurd rfl (notNow _)
          | @goesOn s' frame' next =>
              have some_left : entries ≠ [] := by
                rintro rfl
                cases next.describes
              cases fuel with
              | zero => rfl
              | succ fuel =>
                  rw [iterate_next taken]
                  exact ih implements.cons.2 next some_left (by simpa using unfinished) fuel

/-- **An evaluation** ends with the frame that the entries run to, and fails where they
do, in any number of rounds. -/
theorem lfEvalFlowWith_run {flow : Flow} (implements : impls.Implement given fs entries)
    (scheduled : flow.Scheduled given entries) :
    match Frame.run fs entries .empty with
    | none => ∀ fuel, lfEvalFlowWith given impls fuel flow = none
    | some frame => ∃ fuel flow', lfEvalFlowWith given impls fuel flow = some flow' ∧
        flow'.Frames given frame := by
  obtain ⟨frames, In, elems, walks, schedule, describes⟩ := scheduled
  obtain ⟨s, start, here⟩ := evalStart_spec walks.toPasses schedule describes frames
  have rounds := evalStepWith_run implements walks here
  cases runs : Frame.run fs entries .empty with
  | none =>
      rw [runs] at rounds
      intro fuel
      simp [lfEvalFlowWith, start, rounds fuel]
  | some frame =>
      rw [runs] at rounds
      obtain ⟨flow', ⟨fuel, returns⟩, frames'⟩ := rounds
      exact ⟨fuel, flow', by simp [lfEvalFlowWith, start, returns], frames'⟩

end Loop

/-! ## New flows -/

/-- `*(LF_Value **)lf_alloc_list_elem(&flow->val_schedule) = val`, for one value after
the other. -/
def Flow.scheduleVals (flow : Flow) : List ValuePtr → Option Flow
  | [] => some flow
  | val :: vals => do
      let (elem, valSchedule) ← lfAllocListElem flow.valSchedule
      let valSchedule ← valSchedule.write pointerSize elem val
      Flow.scheduleVals { flow with valSchedule } vals

section New

variable {given : Given}

/-- Half a block of two or more pointers has room for one. -/
theorem half_block_fits {qtt : ℕ} (two : 2 ≤ qtt) :
    pointerSize ≤ qtt * pointerSize - startOffset .middle (qtt * pointerSize) := by
  by_cases more : 4 ≤ qtt
  · have bound := @floatOfSize_le_half (qtt * pointerSize) (by simp [pointerSize]; omega)
    simp only [startOffset, pointerSize] at bound ⊢
    omega
  · obtain rfl | rfl : qtt = 2 ∨ qtt = 3 := by omega
    · decide
    · decide

/-- A new flow has a new list as its schedule, and nothing on its frame. -/
theorem lfInitFlow_spec (schedule frame : Allocator (Cell ValuePtr)) (new : Allocator (Cell Value))
    {elemQttInBlock : ℕ} (two : 2 ≤ elemQttInBlock)
    (room : sizeWrap (elemQttInBlock * pointerSize) ≠ 0) :
    ∃ flow, lfInitFlow (Flow.declared schedule frame new elemQttInBlock) = some flow ∧
      lfInitList (LFList.declared schedule elemQttInBlock pointerSize pointerSize) =
        some flow.valSchedule ∧
      flow.Frames given .empty := by
  obtain ⟨valSchedule, -, -, initSchedule, -⟩ :=
    lfInitList_spec (LFList.declared schedule elemQttInBlock pointerSize pointerSize)
      pointerSize_pos (Nat.lt_of_lt_of_le Nat.two_pos two)
      paddedSize_pointerSize
      (Nat.pos_of_ne_zero room)
  obtain ⟨frameVals, initFrame, stores, none⟩ : ∃ start,
      lfInitStack (Stack.declared frame flowFrameValQttInBlock pointerSize pointerSize) =
        some start ∧ start.Stores pointerSize [] ∧ start.elemCount = 0 :=
    Stack.Stores.init _ rfl pointerSize_pos (by decide) (Nat.dvd_refl pointerSize)
      (show pointerSize ≤ sizeWrap (flowFrameValQttInBlock * pointerSize) by decide)
  have fits : valueSize ≤ sizeWrap (flowNewValQttInBlock * valueSize) := by decide
  obtain ⟨newVals, used, initNew, holds, -, -, size, -⟩ :=
    @Stack.Holds.init _ (Stack.declared new flowNewValQttInBlock valueSize 8)
      (show 0 < valueSize by decide) (show 0 < flowNewValQttInBlock by decide)
      (show paddedSize valueSize 8 = some valueSize by decide) fits
  refine ⟨⟨valSchedule, frameVals, newVals⟩, ?_, initSchedule, size, none, used, [], [], holds,
    stores, .nil⟩
  have enough : ¬ elemQttInBlock < 2 := Nat.not_lt.mpr two
  simp only [LFList.declared] at initSchedule
  simp only [Stack.declared] at initFrame initNew
  simp [lfInitFlow, Flow.declared, LFList.declared, Stack.declared, enough, initSchedule,
    initFrame, initNew]

/-- Filling the schedule of a flow. -/
theorem Flow.scheduleVals_spec {flow : Flow} {elems : List (Ptr × ValuePtr)}
    {vals : List ValuePtr} (queue : flow.valSchedule.Queue pointerSize elems)
    (frames : flow.Frames given .empty) :
    ∃ flow' more, flow.scheduleVals vals = some flow' ∧ more.map Prod.snd = vals ∧
      flow'.valSchedule.Queue pointerSize (elems ++ more) ∧ flow'.Frames given .empty := by
  induction vals generalizing flow elems with
  | nil => exact ⟨flow, [], rfl, rfl, by simpa using queue, frames⟩
  | cons val vals ih =>
      obtain ⟨elem, list₁, list, alloc, written, queue'⟩ := queue.push val
      obtain ⟨flow', more, others, same, queue'', frames'⟩ :=
        @ih { flow with valSchedule := list } _ queue' (frames.withSchedule list)
      refine ⟨flow', (elem, val) :: more, ?_, by simp [same], by simpa using queue'', frames'⟩
      simp [Flow.scheduleVals, alloc, written, others]

/-- Any sequence of values can be scheduled. -/
theorem Flow.scheduled (schedule frame : Allocator (Cell ValuePtr))
    (new : Allocator (Cell Value)) {elemQttInBlock : ℕ} (two : 2 ≤ elemQttInBlock)
    (small : elemQttInBlock * pointerSize < sizeModulus) {vals : List ValuePtr}
    {entries : List Entry}
    (describes : List.Forall₂ (fun val entry => entry.Describes given val) vals entries) :
    ∃ fresh flow, lfInitFlow (Flow.declared schedule frame new elemQttInBlock) = some fresh ∧
      fresh.scheduleVals vals = some flow ∧ flow.Scheduled given entries := by
  have room : sizeWrap (elemQttInBlock * pointerSize) ≠ 0 := by
    rw [sizeWrap_of_lt small]
    exact Nat.mul_ne_zero (by omega) (by decide)
  obtain ⟨fresh, init, initSchedule, frames⟩ :=
    @lfInitFlow_spec given schedule frame new _ two room
  obtain ⟨list, initList, queue⟩ := LFList.Queue.of_init schedule pointerSize_pos
    (Nat.lt_of_lt_of_le Nat.two_pos two) (Nat.dvd_refl pointerSize) small (half_block_fits two)
  obtain rfl := Option.some.inj (initList.symm.trans initSchedule)
  obtain ⟨flow, elems, filled, rfl, queue', frames'⟩ :=
    @Flow.scheduleVals_spec given fresh [] vals queue frames
  exact ⟨fresh, flow, init, filled, frames', _, elems, LFList.Queue.walks pointerSize elems, queue',
    List.forall₂_map_left_iff.mp describes⟩

end New

end LowFlow
