import LowFlow.Library.Unfold
import LowFlow.Planning.ValSchedule

/-!
# When scheduling ends

`planning/passes/val_schedule.c` keeps no record of the values it visited. It visits a
value as often as it comes up, and looks up the arguments each time. So it ends exactly
when the arguments of all values below the entry point are found, and no chain of
arguments goes on forever (`schedules_iff`).
-/

set_option autoImplicit false

namespace LowFlow

open Library

/-- The arguments that are visited for a value: none of a primitive, and of any other
value as many inner values as the definition it refers to has arguments. -/
def argsOf (values : Values) (ptr : ValuePtr) : Option (List ValuePtr) := do
  let value ← values ptr
  if value.type.isPrimitive then some []
  else
    let spec ← value.calledSpec values
    (List.range spec.argQtt).mapM fun i => value.innerVals[i]?

/-- Only calls refer to a definition. -/
def OnlyCallsRefer (values : Values) : Prop :=
  ∀ ptr value, values ptr = some value → value.funcDef.isSome → value.type = .funcCall

section Trees

variable {values : Values}

/-- What a function gives for one number more. -/
theorem mapM_range_succ {α : Type} {f : ℕ → Option α} {n : ℕ} {found : List α} :
    (List.range (n + 1)).mapM f = some found ↔
      ∃ front last, (List.range n).mapM f = some front ∧ f n = some last ∧
        found = front ++ [last] := by
  rw [List.range_succ, List.mapM_append]
  cases (List.range n).mapM f with
  | none => simp
  | some front => cases here : f n <;> simp [here, eq_comm]

/-- What a function gives for each of the first numbers. -/
theorem mapM_range_iff {α : Type} {f : ℕ → Option α} {n : ℕ} {found : List α} :
    (List.range n).mapM f = some found ↔
      found.length = n ∧ ∀ i (inRange : i < found.length), f i = some found[i] := by
  induction n generalizing found with
  | zero => cases found <;> simp
  | succ n ih =>
      rw [mapM_range_succ]
      constructor
      · rintro ⟨front, last, each, here, rfl⟩
        obtain ⟨rfl, before⟩ := ih.mp each
        refine ⟨by simp, ?_⟩
        intro i inRange
        by_cases inFront : i < front.length
        · rw [List.getElem_append_left inFront, before i inFront]
        · obtain rfl : i = front.length := by
            rw [List.length_append, List.length_singleton] at inRange
            omega
          rw [here, List.getElem_concat_length rfl]
      · rintro ⟨length, each⟩
        rcases List.eq_nil_or_concat' found with rfl | ⟨front, last, rfl⟩
        · cases length
        · rw [List.length_append, List.length_singleton, Nat.add_right_cancel_iff] at length
          subst length
          refine ⟨front, last, ih.mpr ⟨rfl, ?_⟩, ?_, rfl⟩
          · intro i inRange
            rw [each i (by simp; omega), List.getElem_append_left inRange]
          · rw [each front.length (by simp), List.getElem_concat_length rfl]

mutual

/-- A tree that the values spell is the one that the entry point unfolds to. -/
theorem Spells.unfolds : ∀ {tree : Rose ValuePtr}, Spells values tree →
    Unfolds (argsOf values) tree
  | .node ptr kids, ⟨value, found, .inl ⟨leaf, noKids⟩⟩ => by
      subst noKids
      exact .node (by simp [argsOf, found, leaf]) (List.forall_mem_nil _)
  | .node ptr kids, ⟨value, found, .inr ⟨call, ⟨spec, called, arity⟩, inner, each⟩⟩ => by
      have noLeaf : value.type.isPrimitive = false := by rw [call]; decide
      have args : (List.range kids.length).mapM (fun i => value.innerVals[i]?) =
          some (kids.map Rose.label) := by
        rw [mapM_range_iff]
        refine ⟨List.length_map .., ?_⟩
        intro i inRange
        rw [List.getElem_map]
        exact inner i (by simpa using inRange)
      exact .node (by simp [argsOf, found, noLeaf, called, arity, args]) (SpellsAll.unfolds each)

theorem SpellsAll.unfolds : ∀ {trees : List (Rose ValuePtr)}, SpellsAll values trees →
    ∀ t ∈ trees, Unfolds (argsOf values) t
  | [], _ => List.forall_mem_nil _
  | _ :: _, ⟨first, others⟩ => List.forall_mem_cons.mpr ⟨first.unfolds, SpellsAll.unfolds others⟩

end

/-- And the other way round, when only calls refer to a definition. -/
theorem spells_of_unfolds (refer : OnlyCallsRefer values) {tree : Rose ValuePtr}
    (unfolds : Unfolds (argsOf values) tree) : Spells values tree := by
  induction unfolds with
  | @node ptr kids args each ih =>
      simp only [argsOf, Option.bind_eq_bind, Option.bind_eq_some_iff] at args
      obtain ⟨value, found, args⟩ := args
      refine ⟨value, found, ?_⟩
      split at args
      · rename_i leaf
        have noKids : kids.map Rose.label = [] := (Option.some.inj args).symm
        exact .inl ⟨leaf, List.map_eq_nil_iff.mp noKids⟩
      · obtain ⟨spec, called, inner⟩ := Option.bind_eq_some_iff.mp args
        obtain ⟨length, inner⟩ := mapM_range_iff.mp inner
        have refers : value.funcDef.isSome := by
          simp only [Value.calledSpec, Option.bind_eq_bind, Option.bind_eq_some_iff] at called
          obtain ⟨funcDef, here, -⟩ := called
          exact Option.isSome_iff_exists.mpr ⟨funcDef, here⟩
        refine .inr ⟨refer ptr value found refers, ⟨spec, called, ?_⟩, ?_,
          spellsAll_iff.mpr ih⟩
        · rw [← length, List.length_map]
        · intro i inRange
          have label := inner i (by simpa using inRange)
          rwa [List.getElem_map] at label

end Trees

section Visit

variable {values : Values} {s : ScheduleState} {pending scheduled : List ValuePtr}
  {toVisit : Stack (Cell ValuePtr)} {value : Value}

/-- The arguments are pushed when all of them are found. -/
theorem pushInnerVals_args (contains : toVisit.Contains pointerSize pending) (n : ℕ) :
    match (List.range n).mapM fun i => value.innerVals[i]? with
    | none => pushInnerVals value n toVisit = none
    | some args => ∃ toVisit', pushInnerVals value n toVisit = some toVisit' ∧
        toVisit'.Contains pointerSize (args.reverse ++ pending) := by
  induction n with
  | zero => exact ⟨toVisit, rfl, contains⟩
  | succ n ih =>
      rw [List.range_succ, List.mapM_append, pushInnerVals_succ]
      cases front : (List.range n).mapM fun i => value.innerVals[i]? with
      | none =>
          rw [front] at ih
          rw [ih]
          rfl
      | some args =>
          rw [front] at ih
          obtain ⟨between, pushed, containsArgs⟩ := ih
          rw [pushed]
          cases last : value.innerVals[n]? with
          | none => simp [last]
          | some arg =>
              obtain ⟨toVisit', pushedLast, containsLast, -⟩ := containsArgs.push arg
              simpa [last, pushedLast] using containsLast

/-- The stacks hold the values to visit, and those that were visited. -/
def Holding (s : ScheduleState) (a : List ValuePtr × List ValuePtr) : Prop :=
  s.1.Contains pointerSize a.1 ∧ s.2.Contains pointerSize a.2

/-- **One round** visits the value on top. -/
theorem visitVal_alike (holding : Holding s (pending, scheduled)) :
    StepsAlike Holding (visitVal values s) (unfoldStep (argsOf values) (pending, scheduled)) := by
  obtain ⟨valsToVisit, valSchedule⟩ := s
  obtain ⟨contains, filled⟩ := holding
  dsimp only at contains filled
  cases pending with
  | nil =>
      have done : visitVal values (valsToVisit, valSchedule) = some (.inr valSchedule) := by
        simp [visitVal, contains.isEmpty]
      rw [done]
      exact .ends valSchedule scheduled
  | cons ptr pending =>
      have several : lfIsStackEmpty valsToVisit = false := by simp [contains.isEmpty]
      obtain ⟨rest, popped, remaining, -⟩ := contains.pop
      obtain ⟨longer, pushed, filled', -⟩ := filled.push ptr
      -- what the round and the visit make of the value on top
      have visited : visitVal values (valsToVisit, valSchedule) = (values ptr).bind fun value =>
          if value.type.isPrimitive then some (.inl (rest, longer))
          else (value.calledSpec values).bind fun spec =>
            (pushInnerVals value spec.argQtt rest).bind fun more => some (.inl (more, longer)) := by
        simp only [visitVal, several, popped, pushed, Option.bind_eq_bind, Option.bind_some,
          Bool.false_eq_true, ↓reduceIte]
      rw [visited, unfoldStep, argsOf]
      cases values ptr with
      | none => exact .fails
      | some value =>
          simp only [Option.bind_eq_bind, Option.bind_some]
          split
          · exact .goesOn ⟨remaining, filled'⟩
          · cases value.calledSpec values with
            | none => exact .fails
            | some spec =>
                have inner := @pushInnerVals_args pending rest value remaining spec.argQtt
                rw [Option.bind_some, Option.bind_some]
                cases args : (List.range spec.argQtt).mapM fun i => value.innerVals[i]? with
                | none =>
                    rw [args] at inner
                    rw [inner]
                    exact .fails
                | some args' =>
                    rw [args] at inner
                    obtain ⟨more, pushedInner, containsArgs⟩ := inner
                    rw [pushedInner]
                    exact .goesOn ⟨containsArgs, filled'⟩

end Visit

/-- Building a schedule ends. -/
def SchedulingEnds (values : Values) (malloc : Allocator (Cell ValuePtr)) (entrypoint : ValuePtr)
    (valSchedule : Stack (Cell ValuePtr)) : Prop :=
  ∃ fuel pipeline', lfBuildValSchedule values malloc fuel ⟨some entrypoint, valSchedule⟩ =
    some pipeline'

/-- It does exactly when visiting the entry point does. -/
theorem schedulingEnds_iff_returns (values : Values) (malloc : Allocator (Cell ValuePtr))
    (entrypoint : ValuePtr) {valSchedule : Stack (Cell ValuePtr)} {old : List ValuePtr}
    (contains : valSchedule.Contains pointerSize old)
    (fits : pointerSize ≤ sizeWrap (valSchedule.elemQttInBlock * pointerSize)) :
    SchedulingEnds values malloc entrypoint valSchedule ↔
      ∃ out, Returns (unfoldStep (argsOf values)) ([entrypoint], old) out := by
  have width : (Stack.declared malloc valSchedule.elemQttInBlock pointerSize pointerSize).elemSize =
      pointerSize := rfl
  obtain ⟨empty, init, containsNone, -⟩ := Stack.Contains.init _ width (by decide) (by decide)
    (Nat.dvd_refl _) fits
  obtain ⟨valsToVisit, pushed, toVisit, -⟩ := containsNone.push entrypoint
  have start : Holding (valsToVisit, valSchedule) ([entrypoint], old) := ⟨toVisit, contains⟩
  have loops := returns_iff_of_bisimulation Holding
    (fun s a holding => @visitVal_alike values s a.1 a.2 holding) start
  have built : ∀ fuel, lfBuildValSchedule values malloc fuel ⟨some entrypoint, valSchedule⟩ =
      (iterate (visitVal values) fuel (valsToVisit, valSchedule)).bind fun schedule =>
        some ⟨some entrypoint, schedule⟩ := by
    intro fuel
    simp [lfBuildValSchedule, init, pushed]
  rw [← loops]
  constructor
  · rintro ⟨fuel, pipeline', ends⟩
    rw [built] at ends
    obtain ⟨schedule, returns, -⟩ := Option.bind_eq_some_iff.mp ends
    exact ⟨schedule, fuel, returns⟩
  · rintro ⟨schedule, fuel, returns⟩
    refine ⟨fuel, ⟨some entrypoint, schedule⟩, ?_⟩
    rw [built, returns]
    rfl

/-- **When scheduling ends.** For a schedule that was filled and emptied in any way
before, building ends exactly when the arguments of the entry point and of all values
below it are found, and no chain of arguments goes on forever. When only calls refer to
a definition, that is when the values spell a tree. -/
theorem schedules_iff (values : Values) (malloc : Allocator (Cell ValuePtr))
    (entrypoint : ValuePtr) (stack start : Stack (Cell ValuePtr))
    (width : stack.elemSize = pointerSize) (alignment : stack.elemAlignment = pointerSize)
    (init : lfInitStack stack = some start) (ops : List (StackOp (Cell ValuePtr)))
    (legal : ∀ op ∈ ops, op = .pop ∨ ∃ ptr, op = .push (pieces pointerSize ptr))
    (answers : List (Option (List (Cell ValuePtr)))) (t : Pushed (Cell ValuePtr))
    (runs : run stackStep ops ⟨start, []⟩ = some (answers, t)) :
    (SchedulingEnds values malloc entrypoint t.stack ↔
      Acc (IsKid (argsOf values)) entrypoint ∧
        ∀ ptr, Below (argsOf values) entrypoint ptr → (argsOf values ptr).isSome) ∧
    (OnlyCallsRefer values → (SchedulingEnds values malloc entrypoint t.stack ↔
      ∃ tree : Rose ValuePtr, tree.label = entrypoint ∧ Spells values tree)) := by
  have aligned : stack.elemAlignment ∣ pointerSize := alignment ▸ Nat.dvd_refl _
  obtain ⟨old, contains, qtt⟩ :=
    Stack.contains_of_run init width (by decide) (by decide) aligned legal runs
  have fits := fits_of_init init (by rw [width]; decide) (by rw [width]; decide)
    (by rw [width]; exact aligned)
  rw [width, ← qtt] at fits
  have ends : SchedulingEnds values malloc entrypoint t.stack ↔
      ∃ tree : Rose ValuePtr, tree.label = entrypoint ∧ Unfolds (argsOf values) tree := by
    rw [schedulingEnds_iff_returns values malloc entrypoint contains fits, unfold_returns_iff]
    constructor
    · rintro ⟨trees, labels, each⟩
      obtain ⟨tree, rfl, root⟩ := List.map_eq_singleton_iff.mp labels
      exact ⟨tree, root, each tree (List.mem_singleton_self tree)⟩
    · rintro ⟨tree, rfl, unfolds⟩
      exact ⟨[tree], rfl, List.forall_mem_singleton.mpr unfolds⟩
  refine ⟨ends.trans exists_unfolds_iff, fun refer => ends.trans ?_⟩
  constructor
  · rintro ⟨tree, root, unfolds⟩
    exact ⟨tree, root, spells_of_unfolds refer unfolds⟩
  · rintro ⟨tree, root, spells⟩
    exact ⟨tree, root, spells.unfolds⟩

/-- A call that is its own argument. -/
def loopValues : Values
  | .given 0 => some (.ofNative 1 0)
  | .given 1 => some (.ofCall (.given 0) [.given 1])
  | _ => none

theorem loopValues_refer : OnlyCallsRefer loopValues := by
  intro ptr value found refers
  match ptr, found with
  | .given 0, rfl => cases refers
  | .given 1, rfl => rfl

/-- Scheduling a call that is its own argument goes on forever, and its values spell no
tree. -/
theorem schedules_iff_loop : ∃ start,
    lfInitStack (Stack.declared (Allocator.bump (.raw 0)) 2 pointerSize pointerSize) = some start ∧
    ¬ SchedulingEnds loopValues (Allocator.bump (.raw 0)) (.given 1) start ∧
    ¬ ∃ tree : Rose ValuePtr, tree.label = .given 1 ∧ Spells loopValues tree := by
  obtain ⟨start, init⟩ := Option.isSome_iff_exists.mp
    (by decide +kernel : (lfInitStack (Stack.declared (Allocator.bump (.raw 0)) 2 pointerSize
      pointerSize : Stack (Cell ValuePtr))).isSome = true)
  obtain ⟨ends, spelled⟩ := schedules_iff loopValues (Allocator.bump (.raw 0)) (.given 1) _ start
    rfl rfl init [] (List.forall_mem_nil _) [] ⟨start, []⟩ rfl
  have cycle : IsKid (argsOf loopValues) (.given 1) (.given 1) :=
    ⟨[.given 1], rfl, List.mem_singleton_self _⟩
  have forever : ¬ SchedulingEnds loopValues (Allocator.bump (.raw 0)) (.given 1) start :=
    fun some_end => not_acc_of_cycle (.single cycle) (ends.mp some_end).1
  exact ⟨start, init, forever, fun tree => forever ((spelled loopValues_refer).mpr tree)⟩

end LowFlow
