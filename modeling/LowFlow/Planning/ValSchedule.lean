import LowFlow.Core.Types
import LowFlow.Memory.Typed

/-!
# The value schedule

`lf_build_val_schedule` visits the expression tree below the entry point with a
stack of the values still to visit, and puts each value it visits on the
schedule. It is the visit of a tree with a work list, on real stacks: the
schedule, read from its top, is the post-order of the tree.
-/

set_option autoImplicit false

namespace LowFlow

open Library

/-- The part of `LF_PassPipeline` that scheduling reads. -/
structure PassPipeline where
  entrypoint : Option ValuePtr
  valSchedule : Stack (Cell ValuePtr)

/-- The values still to visit, and the schedule so far. -/
abbrev ScheduleState := Stack (Cell ValuePtr) × Stack (Cell ValuePtr)

/-- The loop that pushes the arguments of a call, first argument first. -/
def pushInnerVals (value : Value) (argQtt : ℕ) (valsToVisit : Stack (Cell ValuePtr)) :
    Option (Stack (Cell ValuePtr)) :=
  (List.range argQtt).foldlM
    (fun valsToVisit i => do valsToVisit.pushValue pointerSize (← value.innerVals[i]?)) valsToVisit

/-- One round of the loop of `lf_build_val_schedule`. -/
def visitVal (values : Values) (s : ScheduleState) :
    Option (ScheduleState ⊕ Stack (Cell ValuePtr)) := do
  let (valsToVisit, valSchedule) := s
  if lfIsStackEmpty valsToVisit then some (.inr valSchedule)
  else
    let (curVal, valsToVisit) ← valsToVisit.popValue pointerSize
    let valSchedule ← valSchedule.pushValue pointerSize curVal
    let value ← values curVal
    if value.type.isPrimitive then some (.inl (valsToVisit, valSchedule))
    else
      -- what is not a leaf is a function call
      let spec ← value.calledSpec values
      let valsToVisit ← pushInnerVals value spec.argQtt valsToVisit
      some (.inl (valsToVisit, valSchedule))

/-- `lf_build_val_schedule`, for at most `fuel` rounds of its loop. -/
def lfBuildValSchedule (values : Values) (malloc : Allocator (Cell ValuePtr)) (fuel : ℕ)
    (pipeline : PassPipeline) : Option PassPipeline := do
  let entrypoint ← pipeline.entrypoint
  let valsToVisit ← lfInitStack
    (Stack.declared malloc pipeline.valSchedule.elemQttInBlock pointerSize pointerSize)
  let valsToVisit ← valsToVisit.pushValue pointerSize entrypoint
  let valSchedule ← iterate (visitVal values) fuel (valsToVisit, pipeline.valSchedule)
  some { pipeline with valSchedule }

/-! ## The visit of the tree -/

theorem pushInnerVals_succ (value : Value) (n : ℕ) (valsToVisit : Stack (Cell ValuePtr)) :
    pushInnerVals value (n + 1) valsToVisit =
      (pushInnerVals value n valsToVisit).bind fun valsToVisit =>
        (value.innerVals[n]?).bind (valsToVisit.pushValue pointerSize) := by
  simp [pushInnerVals, List.range_succ, List.foldlM_append]

/-- Pushing the arguments of a call leaves the last one on top. -/
theorem pushInnerVals_spec {value : Value} {kids : List (Rose ValuePtr)}
    (inner : ∀ i (inRange : i < kids.length), value.innerVals[i]? = some kids[i].label)
    {valsToVisit : Stack (Cell ValuePtr)} {pending : List ValuePtr}
    (contains : valsToVisit.Contains pointerSize pending) :
    ∃ valsToVisit', pushInnerVals value kids.length valsToVisit = some valsToVisit' ∧
      valsToVisit'.Contains pointerSize ((kids.map Rose.label).reverse ++ pending) ∧
      valsToVisit.Keeps valsToVisit' := by
  -- the arguments are pushed in order, so the induction is on how many there are
  suffices pushed : ∀ n ≤ kids.length, ∃ valsToVisit',
      pushInnerVals value n valsToVisit = some valsToVisit' ∧
      valsToVisit'.Contains pointerSize (((kids.take n).map Rose.label).reverse ++ pending) ∧
      valsToVisit.Keeps valsToVisit' by
    simpa using pushed kids.length le_rfl
  intro n bound
  induction n with
  | zero => exact ⟨valsToVisit, rfl, by simpa using contains, .refl _⟩
  | succ n ih =>
      obtain ⟨before, pushedBefore, containsBefore, keepsBefore⟩ := ih (by omega)
      have inRange : n < kids.length := bound
      obtain ⟨after, pushed, containsAfter, keeps⟩ := containsBefore.push kids[n].label
      refine ⟨after, ?_, ?_, keepsBefore.trans keeps⟩
      · rw [pushInnerVals_succ, pushedBefore, inner n inRange]
        exact pushed
      · rw [List.take_add_one, List.getElem?_eq_getElem inRange, List.map_append,
          List.reverse_append]
        exact containsAfter

/-- The stacks hold the labels of the trees still to visit, and the labels
visited on top of what the schedule contained before. -/
def Visits (values : Values) (old : List ValuePtr) (s : ScheduleState)
    (a : List (Rose ValuePtr) × List ValuePtr) : Prop :=
  s.1.Contains pointerSize (a.1.map Rose.label) ∧ (∀ t ∈ a.1, Spells values t) ∧
    s.2.Contains pointerSize (a.2 ++ old)

/-- **One round** of the loop is one visit. -/
theorem Visits.next {values : Values} {old : List ValuePtr} {s : ScheduleState}
    {a a' : List (Rose ValuePtr) × List ValuePtr} (visits : Visits values old s a)
    (visit : Rose.visitStep a = some (.inl a')) :
    ∃ s', visitVal values s = some (.inl s') ∧ Visits values old s' a' := by
  obtain ⟨valsToVisit, valSchedule⟩ := s
  obtain ⟨work, out⟩ := a
  obtain ⟨toVisit, spells, scheduled⟩ := visits
  dsimp only at toVisit spells scheduled
  cases work with
  | nil => cases visit
  | cons t work =>
      obtain ⟨ptr, kids⟩ := t
      cases visit
      obtain ⟨spelled, others⟩ := List.forall_mem_cons.mp spells
      obtain ⟨value, found, shape⟩ := spelled
      have several : lfIsStackEmpty valsToVisit = false := by simp [toVisit.isEmpty]
      obtain ⟨rest, popped, remaining, -⟩ := toVisit.pop
      obtain ⟨longer, pushed, scheduled', -⟩ := scheduled.push ptr
      rcases shape with ⟨leaf, rfl⟩ | ⟨call, ⟨spec, called, arity⟩, inner, spellsKids⟩
      · refine ⟨(rest, longer), ?_, remaining, others, scheduled'⟩
        simp [visitVal, several, popped, pushed, found, leaf, Rose.label]
      · have noLeaf : value.type.isPrimitive = false := by rw [call]; decide
        obtain ⟨more, pushedInner, toVisit', -⟩ := pushInnerVals_spec inner remaining
        refine ⟨(more, longer), ?_, ?_, ?_, scheduled'⟩
        · simp [visitVal, several, popped, pushed, found, noLeaf, called, arity, pushedInner,
            Rose.label]
        · simpa using toVisit'
        · intro t member
          rcases List.mem_append.mp member with kid | other
          · exact spellsAll_iff.mp spellsKids t (List.mem_reverse.mp kid)
          · exact others t other

theorem Visits.done {values : Values} {old : List ValuePtr} {s : ScheduleState}
    {a : List (Rose ValuePtr) × List ValuePtr} {out : List ValuePtr}
    (visits : Visits values old s a)
    (visit : Rose.visitStep a = some (.inr out)) :
    ∃ schedule, visitVal values s = some (.inr schedule) ∧
      schedule.Contains pointerSize (out ++ old) := by
  obtain ⟨valsToVisit, valSchedule⟩ := s
  obtain ⟨work, out'⟩ := a
  obtain ⟨toVisit, -, scheduled⟩ := visits
  cases work with
  | cons t work => cases t; cases visit
  | nil =>
      cases visit
      exact ⟨valSchedule, by simp [visitVal, toVisit.isEmpty], scheduled⟩

/-- Scheduling a tree puts its post-order on top of the schedule. -/
theorem lfBuildValSchedule_contains {values : Values} {tree : Rose ValuePtr}
    (spells : Spells values tree) (malloc : Allocator (Cell ValuePtr))
    {valSchedule : Stack (Cell ValuePtr)} {old : List ValuePtr}
    (contains : valSchedule.Contains pointerSize old)
    (fits : pointerSize ≤ sizeWrap (valSchedule.elemQttInBlock * pointerSize)) :
    ∃ fuel pipeline', lfBuildValSchedule values malloc fuel ⟨some tree.label, valSchedule⟩ =
        some pipeline' ∧
      pipeline'.valSchedule.Contains pointerSize (tree.postorder ++ old) := by
  have width : (Stack.declared malloc valSchedule.elemQttInBlock pointerSize pointerSize).elemSize =
      pointerSize := rfl
  obtain ⟨empty, init, containsNone, -⟩ := Stack.Contains.init _ width (by decide) (by decide)
    (Nat.dvd_refl _) fits
  obtain ⟨valsToVisit, pushed, toVisit, -⟩ := containsNone.push tree.label
  have start : Visits values old (valsToVisit, valSchedule) ([tree], []) :=
    ⟨by simpa using toVisit, by simpa using spells, by simpa using contains⟩
  obtain ⟨schedule, ⟨fuel, returns⟩, scheduled⟩ := Returns.of_simulation (Visits values old)
    (fun schedule out => schedule.Contains pointerSize (out ++ old))
    (fun _ _ _ visits visit => visits.next visit) (fun _ _ _ visits visit => visits.done visit)
    start (Rose.visit_returns [tree] [])
  refine ⟨fuel, ⟨some tree.label, schedule⟩, ?_, ?_⟩
  · simp [lfBuildValSchedule, init, pushed, returns]
  · simpa [Rose.postorderAll] using scheduled

/-- A round pushes a value onto the schedule, or leaves it as it is and ends. -/
theorem visitVal_cases {values : Values} {s : ScheduleState}
    {outcome : ScheduleState ⊕ Stack (Cell ValuePtr)} (taken : visitVal values s = some outcome) :
    outcome = .inr s.2 ∨ ∃ val schedule toVisit, s.2.pushValue pointerSize val = some schedule ∧
      outcome = .inl (toVisit, schedule) := by
  obtain ⟨valsToVisit, valSchedule⟩ := s
  by_cases none : lfIsStackEmpty valsToVisit
  · simp only [visitVal, none, ↓reduceIte, Option.some.injEq] at taken
    exact .inl taken.symm
  · simp only [visitVal, none, Bool.false_eq_true, ↓reduceIte, Option.bind_eq_bind,
      Option.bind_eq_some_iff] at taken
    obtain ⟨⟨curVal, rest⟩, -, schedule, pushed, value, -, taken⟩ := taken
    by_cases leaf : value.type.isPrimitive
    · simp only [leaf, ↓reduceIte, Option.some.injEq] at taken
      exact .inr ⟨curVal, schedule, rest, pushed, taken.symm⟩
    · simp only [leaf, Bool.false_eq_true, ↓reduceIte, Option.bind_eq_some_iff,
        Option.some.injEq] at taken
      obtain ⟨spec, -, more, -, rfl⟩ := taken
      exact .inr ⟨curVal, schedule, more, pushed, rfl⟩

/-- Scheduling only pushes onto the schedule. -/
theorem lfBuildValSchedule_keeps {values : Values} {malloc : Allocator (Cell ValuePtr)} {fuel : ℕ}
    {pipeline pipeline' : PassPipeline} (P : Stack (Cell ValuePtr) → Prop)
    (push : ∀ stack val stack', P stack → stack.pushValue pointerSize val = some stack' → P stack')
    (start : P pipeline.valSchedule)
    (built : lfBuildValSchedule values malloc fuel pipeline = some pipeline') :
    P pipeline'.valSchedule := by
  simp only [lfBuildValSchedule, Option.bind_eq_bind, Option.bind_eq_some_iff,
    Option.some.injEq] at built
  obtain ⟨entrypoint, -, empty, -, valsToVisit, -, valSchedule, ends, rfl⟩ := built
  refine iterate_invariant (fun s : ScheduleState => P s.2) P ?_ ?_ start ends
  · intro s s' kept taken
    rcases visitVal_cases taken with same | ⟨val, schedule, toVisit, pushed, same⟩
    · cases same
    · obtain rfl := Sum.inl.inj same
      exact push s.2 val schedule kept pushed
  · intro s t kept taken
    rcases visitVal_cases taken with same | ⟨val, schedule, toVisit, pushed, same⟩
    · obtain rfl := Sum.inr.inj same
      exact kept
    · cases same

/-- **Scheduling is the post-order.** For a schedule that was filled and emptied
in any way before, building ends, and popping gives the post-order of the tree
and then what was there. -/
theorem lfBuildValSchedule_postorder (values : Values) (malloc : Allocator (Cell ValuePtr))
    (tree : Rose ValuePtr) (spells : Spells values tree) (stack start : Stack (Cell ValuePtr))
    (width : stack.elemSize = pointerSize) (alignment : stack.elemAlignment = pointerSize)
    (init : lfInitStack stack = some start) (ops : List (StackOp (Cell ValuePtr)))
    (legal : ∀ op ∈ ops, op = .pop ∨ ∃ ptr, op = .push (pieces pointerSize ptr))
    (answers : List (Option (List (Cell ValuePtr)))) (t : Pushed (Cell ValuePtr))
    (runs : run stackStep ops ⟨start, []⟩ = some (answers, t)) :
    ∃ old drained fuel pipeline' drained',
      Stack.popValues pointerSize t.stack.elemCount t.stack = some (old, drained) ∧
      lfPopFromStack drained = some (none, drained) ∧
      lfBuildValSchedule values malloc fuel ⟨some tree.label, t.stack⟩ = some pipeline' ∧
      Stack.popValues pointerSize pipeline'.valSchedule.elemCount pipeline'.valSchedule =
        some (tree.postorder ++ old, drained') ∧
      lfPopFromStack drained' = some (none, drained') := by
  have aligned : stack.elemAlignment ∣ pointerSize := alignment ▸ Nat.dvd_refl _
  obtain ⟨old, contains, qtt⟩ :=
    Stack.contains_of_run init width (by decide) (by decide) aligned legal runs
  have fits := fits_of_init init (by rw [width]; decide) (by rw [width]; decide)
    (by rw [width]; exact aligned)
  rw [width, ← qtt] at fits
  obtain ⟨drained, popped, emptied, -⟩ := contains.popValues
  obtain ⟨fuel, pipeline', built, scheduled⟩ := lfBuildValSchedule_contains spells malloc contains
    fits
  obtain ⟨drained', popped', emptied', -⟩ := scheduled.popValues
  refine ⟨old, drained, fuel, pipeline', drained', ?_, lfPopFromStack_empty emptied.2.1, built, ?_,
    lfPopFromStack_empty emptied'.2.1⟩
  · rw [contains.2.1, popped]
  · rw [scheduled.2.1, popped']

/-! ## A small tree -/

/-- `+(4, 5)`. -/
def sumValues : Values
  | .given 0 => some (.ofNative 2 0)
  | .given 1 => some (.ofInt 4)
  | .given 2 => some (.ofInt 5)
  | .given 3 => some (.ofCall (.given 0) [.given 1, .given 2])
  | _ => none

def sumTree : Rose ValuePtr := .node (.given 3) [.node (.given 1) [], .node (.given 2) []]

theorem sum_spells : Spells sumValues sumTree := by
  refine ⟨.ofCall (.given 0) [.given 1, .given 2], rfl, .inr ⟨rfl, ⟨⟨2, some 0⟩, rfl, rfl⟩, ?_, ?_⟩⟩
  · intro i inRange
    match i, inRange with
    | 0, _ => rfl
    | 1, _ => rfl
  · exact ⟨⟨.ofInt 4, rfl, .inl ⟨by decide, rfl⟩⟩, ⟨.ofInt 5, rfl, .inl ⟨by decide, rfl⟩⟩, trivial⟩

/-- The sum on top of what a schedule with two-value blocks contained. -/
theorem lfBuildValSchedule_postorder_sum :
    ∃ start answers t old drained fuel pipeline' drained',
      lfInitStack (Stack.declared (Allocator.bump (.raw 0)) 2 pointerSize pointerSize) =
        some start ∧
      run stackStep [.push (pieces pointerSize (.given 9)), .pop,
        .push (pieces pointerSize (.given 1))] ⟨start, []⟩ = some (answers, t) ∧
      Stack.popValues pointerSize t.stack.elemCount t.stack = some (old, drained) ∧
      lfPopFromStack drained = some (none, drained) ∧
      lfBuildValSchedule sumValues (Allocator.bump (.raw 0)) fuel
        ⟨some sumTree.label, t.stack⟩ = some pipeline' ∧
      Stack.popValues pointerSize pipeline'.valSchedule.elemCount pipeline'.valSchedule =
        some (sumTree.postorder ++ old, drained') ∧
      lfPopFromStack drained' = some (none, drained') := by
  let stack : Stack (Cell ValuePtr) :=
    Stack.declared (Allocator.bump (.raw 0)) 2 pointerSize pointerSize
  obtain ⟨start, init⟩ := Option.isSome_iff_exists.mp
    (by decide +kernel : (lfInitStack stack).isSome = true)
  let ops : List (StackOp (Cell ValuePtr)) :=
    [.push (pieces pointerSize (.given 9)), .pop, .push (pieces pointerSize (.given 1))]
  obtain ⟨⟨answers, t⟩, runs⟩ : ∃ result, run stackStep ops ⟨start, []⟩ = some result := by
    have ends : ((lfInitStack stack).bind fun start => run stackStep ops ⟨start, []⟩).isSome =
      true := by decide +kernel
    rw [init] at ends
    exact Option.isSome_iff_exists.mp ends
  obtain ⟨old, drained, fuel, pipeline', drained', result⟩ :=
    lfBuildValSchedule_postorder sumValues (Allocator.bump (.raw 0)) sumTree sum_spells stack start
      rfl rfl init ops (by simp [ops]) answers t runs
  exact ⟨start, answers, t, old, drained, fuel, pipeline', drained', init, runs, result⟩

end LowFlow
