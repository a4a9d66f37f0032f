import LowFlow.Runtime.FlowRuns

/-!
# The arguments of native functions

The check in front of a call compares the number of arguments with the element
count of the frame. The frame is reset after a call, but keeps its count. So the
check is passed with values that are no longer there. An evaluation never pops
such a value exactly when every call that passes the check has its arguments
behind the call before it (`evaluatesSafely_iff`).
-/

set_option autoImplicit false

namespace LowFlow

open Library

/-- The next round calls a native function with so many arguments. -/
def EvalState.CallsNative (given : Given) (s : EvalState) (argQtt : ℕ) : Prop :=
  ∃ curVal ptr call nativeImpl, s.curVal = some curVal ∧
    s.flow.valSchedule.read pointerSize curVal = some ptr ∧
    s.flow.values given ptr = some call ∧ call.type = .funcCall ∧
    call.calledSpec (s.flow.values given) = some ⟨argQtt, some nativeImpl⟩ ∧
    argQtt ≤ s.flow.frameVals.elemCount

/-- A native function that is called has its arguments on the frame, and pops them. -/
def EvalState.Safe (given : Given) (s : EvalState) : Prop :=
  ∀ argQtt, s.CallsNative given argQtt →
    s.flow.frameVals.HasLive argQtt ∧ s.flow.frameVals.PopsInside argQtt

/-- In no round of the evaluation a native function pops a value that is not there. -/
def Flow.EvaluatesSafely (flow : Flow) (given : Given) (natives : Natives) : Prop :=
  ∃ s, evalStart flow = some s ∧ Everywhere (evalStep given natives) (EvalState.Safe given) s

/-- With so many values on the frame, and so many counted, each call that passes the
check has its arguments: the result of the call before it, and the literals since. -/
def CallsServed : ℕ → ℕ → List Entry → Prop
  | live, count, .literal _ :: rest => CallsServed (live + 1) (count + 1) rest
  | live, count, .call argQtt _ :: rest =>
      count < argQtt ∨ argQtt ≤ live ∧ CallsServed 1 (count - argQtt + 1) rest
  | _, _, .refused :: _ => True
  | _, _, [] => True

section Safe

variable {given : Given} {natives : Natives} {In : LFList (Cell ValuePtr) → Prop}
  {elems back : List (Ptr × ValuePtr)} {entry : Entry} {entries : List Entry} {frame : Frame}
  {s : EvalState}

/-- The values of a frame are live, and can be popped. -/
theorem Flow.Frames.served_iff {flow : Flow} (frames : flow.Frames given frame) {n : ℕ} :
    flow.frameVals.HasLive n ∧ flow.frameVals.PopsInside n ↔ n ≤ frame.vals.length := by
  obtain ⟨-, -, used, live, ptrs, -, stores, denotes⟩ := frames
  rw [← denotes.length_eq]
  constructor
  · rintro ⟨hasLive, -⟩
    exact stores.hasLive_iff.mp hasLive
  · intro enough
    obtain ⟨stack, -, -, -, -, inside⟩ := stores.popValues enough
    exact ⟨stores.hasLive_iff.mpr enough, inside⟩

/-- A native function is called by the entry of a call that passes the check. -/
theorem EvalState.At.callsNative_iff {e : Ptr × ValuePtr}
    (walks : LFList.Walks In pointerSize elems)
    (here : s.At given In elems (e :: back) (entry :: entries) frame) {n : ℕ} :
    s.CallsNative given n ↔ ∃ nativeImpl, entry = .call n nativeImpl ∧ n ≤ frame.count := by
  obtain ⟨⟨front, rfl⟩, current, schedule, described, frames⟩ := here
  obtain ⟨describes, -⟩ := List.forall₂_cons.mp described
  have read := walks.read _ schedule e (List.mem_append_right _ (List.mem_cons_self ..))
  have current : s.curVal = some e.1 := current
  constructor
  · rintro ⟨curVal, ptr, call, nativeImpl, current', read', found, kind, called, enough⟩
    obtain rfl := Option.some.inj (current.symm.trans current')
    obtain rfl := Option.some.inj (read.symm.trans read')
    have same : ∀ {value : Value}, given.values e.2 = some value → value = call := by
      intro value found'
      exact Option.some.inj ((Flow.values_of_given found').symm.trans found)
    cases describes with
    | literal found' kind' =>
        rw [same found', kind] at kind'
        simp [literalTypes] at kind'
    | refused found' kind' =>
        rw [same found', kind] at kind'
        simp at kind'
    | call found' kind' called' =>
        obtain rfl := same found'
        have specs := (Flow.calledSpec_of_given called').symm.trans called
        obtain ⟨rfl, rfl⟩ : _ ∧ _ := by simpa using specs
        exact ⟨_, rfl, frames.count ▸ enough⟩
  · rintro ⟨nativeImpl, rfl, enough⟩
    cases describes with
    | @call value _ _ found kind called =>
        exact ⟨e.1, e.2, value, nativeImpl, current, read, Flow.values_of_given found, kind,
          Flow.calledSpec_of_given called, frames.count.symm ▸ enough⟩

/-- A round is safe when the call has as many values on the frame as it has arguments. -/
theorem EvalState.At.safe_iff {e : Ptr × ValuePtr} (walks : LFList.Walks In pointerSize elems)
    (here : s.At given In elems (e :: back) (entry :: entries) frame) :
    s.Safe given ↔ ∀ n nativeImpl, entry = .call n nativeImpl → n ≤ frame.count →
      n ≤ frame.vals.length := by
  constructor
  · intro safe n nativeImpl isCall passes
    have calls := (here.callsNative_iff walks).mpr ⟨nativeImpl, isCall, passes⟩
    exact here.frames.served_iff.mp (safe n calls)
  · intro served n calls
    obtain ⟨nativeImpl, isCall, passes⟩ := (here.callsNative_iff walks).mp calls
    exact here.frames.served_iff.mpr (served n nativeImpl isCall passes)

/-- A round that goes on. -/
theorem evalStep_goesOn {e : Ptr × ValuePtr} {frame' : Frame}
    (walks : LFList.Walks In pointerSize elems)
    (here : s.At given In elems (e :: back) (entry :: entries) frame)
    (stepped : frame.step natives.partials entry = some (.inl frame')) :
    ∃ s', evalStep given natives s = some (.inl s') ∧ s'.At given In elems back entries frame' := by
  obtain ⟨front, split⟩ := here.ahead
  have round : RoundOutcome given In elems back entries (evalStep given natives s)
      (frame.step natives.partials entry) :=
    evalStepWith_spec (runNative_implements given natives _) walks.toPasses
      (walks.onward split) here
  rw [stepped] at round
  generalize evalStep given natives s = result at round ⊢
  cases round with
  | goesOn next => exact ⟨_, rfl, next⟩

/-- A round that does not go on. -/
theorem evalStep_ends {e : Ptr × ValuePtr} (walks : LFList.Walks In pointerSize elems)
    (here : s.At given In elems (e :: back) (entry :: entries) frame)
    (stepped : ∀ frame', frame.step natives.partials entry ≠ some (.inl frame')) :
    ∀ s', evalStep given natives s ≠ some (.inl s') := by
  obtain ⟨front, split⟩ := here.ahead
  have round : RoundOutcome given In elems back entries (evalStep given natives s)
      (frame.step natives.partials entry) :=
    evalStepWith_spec (runNative_implements given natives _) walks.toPasses
      (walks.onward split) here
  generalize frame.step natives.partials entry = effect at round stepped
  generalize evalStep given natives s = result at round ⊢
  cases round with
  | fails => simp
  | finishes => simp
  | goesOn next => exact absurd rfl (stepped _)

/-- **The rounds** are safe exactly when the calls of the entries are served. -/
theorem EvalState.At.everywhere_safe_iff (walks : LFList.Walks In pointerSize elems)
    (here : s.At given In elems back entries frame) :
    Everywhere (evalStep given natives) (EvalState.Safe given) s ↔
      CallsServed frame.vals.length frame.count entries := by
  induction entries generalizing back frame s with
  | nil =>
      cases here.describes
      have current : s.curVal = none := here.current
      have last : ∀ s', evalStep given natives s ≠ some (.inl s') := by
        simp [evalStep, evalStepWith_last here]
      rw [everywhere_last last]
      simp [CallsServed, EvalState.Safe, EvalState.CallsNative, current]
  | cons entry entries ih =>
      obtain ⟨e, back, rfl⟩ := here.cons
      have safe := here.safe_iff walks
      cases entry with
      | literal value =>
          have stepped : frame.step natives.partials (.literal value) =
              some (.inl { frame with vals := value :: frame.vals }) := rfl
          obtain ⟨s', taken, next⟩ := evalStep_goesOn walks here stepped
          rw [everywhere_next taken, safe, ih next]
          simp [CallsServed, Frame.count, Nat.add_right_comm]
      | refused =>
          have stepped : ∀ frame', frame.step natives.partials .refused ≠ some (.inl frame') := by
            simp [Frame.step]
          rw [everywhere_last (evalStep_ends walks here stepped), safe]
          simp [CallsServed]
      | call n nativeImpl =>
          simp only [Entry.call.injEq] at safe
          by_cases few : frame.count < n
          · have stepped : ∀ frame', frame.step natives.partials (.call n nativeImpl) ≠
                some (.inl frame') := by simp [Frame.step, few]
            rw [everywhere_last (evalStep_ends walks here stepped), safe]
            simp only [CallsServed, few, true_or, iff_true]
            rintro m impl ⟨rfl, rfl⟩ passes
            omega
          · have passes : n ≤ frame.count := Nat.not_lt.mp few
            by_cases enough : n ≤ frame.vals.length
            · have stepped : frame.step natives.partials (.call n nativeImpl) =
                  some (.inl ⟨[natives nativeImpl (frame.vals.take n).reverse],
                    frame.lost + (frame.vals.length - n)⟩) := by
                simp [Frame.step, few, enough, Natives.partials]
              obtain ⟨s', taken, next⟩ := evalStep_goesOn walks here stepped
              have count : Frame.count ⟨[natives nativeImpl (frame.vals.take n).reverse],
                  frame.lost + (frame.vals.length - n)⟩ = frame.count - n + 1 := by
                simp only [Frame.count, List.length_singleton]
                omega
              have here_served : ∀ m impl, n = m ∧ nativeImpl = impl → m ≤ frame.count →
                  m ≤ frame.vals.length := by
                rintro m impl ⟨rfl, rfl⟩ -
                exact enough
              rw [everywhere_next taken, safe, ih next, count, List.length_singleton]
              simp only [CallsServed, few, enough, false_or, true_and]
              exact and_iff_right here_served
            · have stepped : ∀ frame', frame.step natives.partials (.call n nativeImpl) ≠
                  some (.inl frame') := by simp [Frame.step, few, enough]
              rw [everywhere_last (evalStep_ends walks here stepped), safe]
              simp only [CallsServed, few, enough, false_or, false_and, iff_false]
              intro served
              exact enough (served n nativeImpl ⟨rfl, rfl⟩ passes)

/-- The evaluation of a schedule starts, and its rounds are safe exactly when the calls
of the schedule are served. -/
theorem Flow.Scheduled.everywhere_safe_iff {flow : Flow}
    (scheduled : flow.Scheduled given entries) :
    ∃ s, evalStart flow = some s ∧
      (Everywhere (evalStep given natives) (EvalState.Safe given) s ↔ CallsServed 0 0 entries) := by
  obtain ⟨frames, In, elems, walks, schedule, describes⟩ := scheduled
  obtain ⟨s, start, here⟩ := evalStart_spec walks.toPasses schedule describes frames
  exact ⟨s, start, here.everywhere_safe_iff walks⟩

/-- **Evaluating a schedule** pops no value that is not there exactly when its calls
are served. -/
theorem evaluatesSafely_iff {flow : Flow} (scheduled : flow.Scheduled given entries) :
    flow.EvaluatesSafely given natives ↔ CallsServed 0 0 entries := by
  obtain ⟨s, start, rounds⟩ := scheduled.everywhere_safe_iff
  rw [← rounds]
  constructor
  · rintro ⟨s', start', everywhere⟩
    obtain rfl := Option.some.inj (start.symm.trans start')
    exact everywhere
  · intro everywhere
    exact ⟨s, start, everywhere⟩

end Safe

/-! ## A schedule that does not come from a tree -/

/-- Two numbers, a function of one argument and a function of two, and a call of each. -/
def callerVals : Given
  | 0 => some (.ofInt 1)
  | 1 => some (.ofInt 2)
  | 2 => some (.ofNative 1 0)
  | 3 => some (.ofNative 2 1)
  | 4 => some (.ofCall (.given 2) [])
  | 5 => some (.ofCall (.given 3) [])
  | _ => none

/-- Each function returns its first argument. -/
def callerNatives : Natives := fun _ args => args.headD (.ofInt 0)

/-- A schedule of these values. -/
theorem scheduled_callerVals {vals : List ValuePtr} {entries : List Entry}
    (describes :
      List.Forall₂ (fun val entry => Entry.Describes callerVals val entry) vals entries) :
    ∃ fresh flow,
      lfInitFlow (Flow.declared (.bump (.raw 0)) (.bump (.raw 0)) (.bump (.raw 0)) 2) = some fresh ∧
      fresh.scheduleVals vals = some flow ∧ flow.Scheduled callerVals entries :=
  Flow.scheduled _ _ _ (by decide) (by decide) describes

theorem describes_one : Entry.Describes callerVals (.given 0) (.literal (.ofInt 1)) :=
  .literal rfl (List.mem_cons_self ..)

theorem describes_two : Entry.Describes callerVals (.given 1) (.literal (.ofInt 2)) :=
  .literal rfl (List.mem_cons_self ..)

theorem describes_unary : Entry.Describes callerVals (.given 4) (.call 1 0) :=
  .call rfl rfl rfl

theorem describes_binary : Entry.Describes callerVals (.given 5) (.call 2 1) :=
  .call rfl rfl rfl

/-- The function of two arguments finds the two numbers. -/
theorem evaluatesSafely_iff_sum :
    ∃ fresh flow,
      lfInitFlow (Flow.declared (.bump (.raw 0)) (.bump (.raw 0)) (.bump (.raw 0)) 2) = some fresh ∧
      fresh.scheduleVals [.given 0, .given 1, .given 5] = some flow ∧
      flow.EvaluatesSafely callerVals callerNatives := by
  obtain ⟨fresh, flow, init, filled, scheduled⟩ := scheduled_callerVals
    (.cons describes_one (.cons describes_two (.cons describes_binary .nil)))
  exact ⟨fresh, flow, init, filled, (evaluatesSafely_iff scheduled).mpr (by simp [CallsServed])⟩

/-- After the call of one argument two values are counted, and one of them is there.
The call of two arguments passes the check. -/
theorem evaluates_unserved :
    ∃ fresh flow,
      lfInitFlow (Flow.declared (.bump (.raw 0)) (.bump (.raw 0)) (.bump (.raw 0)) 2) = some fresh ∧
      fresh.scheduleVals [.given 0, .given 1, .given 4, .given 5] = some flow ∧
      ¬ flow.EvaluatesSafely callerVals callerNatives := by
  obtain ⟨fresh, flow, init, filled, scheduled⟩ := scheduled_callerVals
    (.cons describes_one
      (.cons describes_two (.cons describes_unary (.cons describes_binary .nil))))
  refine ⟨fresh, flow, init, filled, ?_⟩
  rintro ⟨s, start, everywhere⟩
  obtain ⟨s', start', rounds⟩ :=
    @Flow.Scheduled.everywhere_safe_iff callerVals callerNatives _ _ scheduled
  obtain rfl := Option.some.inj (start.symm.trans start')
  have served := rounds.mp everywhere
  simp [CallsServed] at served

end LowFlow
