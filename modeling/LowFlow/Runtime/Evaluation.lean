import LowFlow.Memory.MovedValues
import LowFlow.Planning.ValSchedule
import LowFlow.Runtime.Expressions
import LowFlow.Runtime.FlowRuns

/-!
# Evaluating an expression tree

The value schedule of a tree is moved to a new flow and evaluated there. The flow
is left with the value of the tree when calls are first arguments only and the
schedule fits in one block of the list, and not else (`evaluates_iff`). Where native
functions may fail, an evaluation ends when they are also defined where they are
called (`evaluatesWith_iff`).
-/

set_option autoImplicit false

namespace LowFlow

open Library

/-! ## Expressions in memory -/

mutual

/-- The tree of pointers is an expression: a leaf points to a literal, an inner node to
a call whose inner values are the children, of a function with as many arguments. -/
inductive Encodes (given : Given) : Rose ValuePtr → Expr → Prop
  | literal {ptr : ValuePtr} {value : Value} (found : given.values ptr = some value)
      (kind : value.type ∈ literalTypes) : Encodes given (.node ptr []) (.literal value)
  | call {ptr : ValuePtr} {value : Value} {nativeImpl : ℕ} {kids : List (Rose ValuePtr)}
      {args : List Expr} (found : given.values ptr = some value) (kind : value.type = .funcCall)
      (called : value.calledSpec given.values = some ⟨kids.length, some nativeImpl⟩)
      (inner : ∀ i (inRange : i < kids.length), value.innerVals[i]? = some kids[i].label)
      (each : EncodesAll given kids args) : Encodes given (.node ptr kids) (.call nativeImpl args)

inductive EncodesAll (given : Given) : List (Rose ValuePtr) → List Expr → Prop
  | nil : EncodesAll given [] []
  | cons {kid : Rose ValuePtr} {kids : List (Rose ValuePtr)} {arg : Expr} {args : List Expr}
      (first : Encodes given kid arg) (others : EncodesAll given kids args) :
      EncodesAll given (kid :: kids) (arg :: args)

end

theorem EncodesAll.length_eq {given : Given} : ∀ {kids : List (Rose ValuePtr)} {args : List Expr},
    EncodesAll given kids args → kids.length = args.length
  | _, _, .nil => rfl
  | _, _, .cons _ others => congrArg (· + 1) others.length_eq

/-- The literals are primitive. -/
theorem isPrimitive_of_literal {kind : ValueType} (literal : kind ∈ literalTypes) :
    kind.isPrimitive = true := by
  revert kind
  decide

mutual

/-- The tree is one that can be scheduled. -/
theorem Encodes.spells {given : Given} : ∀ {tree : Rose ValuePtr} {expr : Expr},
    Encodes given tree expr → Spells given.values tree
  | _, _, .literal found kind =>
      ⟨_, found, .inl ⟨isPrimitive_of_literal kind, rfl⟩⟩
  | _, _, .call found kind called inner each =>
      ⟨_, found, .inr ⟨kind, ⟨_, called, rfl⟩, inner, each.spells⟩⟩

theorem EncodesAll.spells {given : Given} : ∀ {kids : List (Rose ValuePtr)} {args : List Expr},
    EncodesAll given kids args → SpellsAll given.values kids
  | _, _, .nil => trivial
  | _, _, .cons first others => ⟨first.spells, others.spells⟩

end

mutual

/-- The post-order of the tree has the entries of the expression. -/
theorem Encodes.describes {given : Given} : ∀ {tree : Rose ValuePtr} {expr : Expr},
    Encodes given tree expr →
      List.Forall₂ (fun ptr entry => Entry.Describes given ptr entry) tree.postorder expr.entries
  | _, _, .literal found kind => .cons (.literal found kind) .nil
  | _, _, .call found kind called _ each => by
      have here := Entry.Describes.call found kind called
      rw [each.length_eq] at here
      exact List.rel_append each.describes (.cons here .nil)

theorem EncodesAll.describes {given : Given} : ∀ {kids : List (Rose ValuePtr)} {args : List Expr},
    EncodesAll given kids args →
      List.Forall₂ (fun ptr entry => Entry.Describes given ptr entry) (Rose.postorderAll kids)
        (Expr.entriesAll args)
  | _, _, .nil => .nil
  | _, _, .cons first others => List.rel_append first.describes others.describes

end

/-! ## From the tree to its value -/

/-- What `malloc` does for each of the stacks and lists. -/
structure Mallocs where
  valsToVisit : Allocator (Cell ValuePtr)
  valSchedule : Allocator (Cell ValuePtr)
  flowSchedule : Allocator (Cell ValuePtr)
  frameVals : Allocator (Cell ValuePtr)
  newVals : Allocator (Cell Value)

/-- `lf_build_val_schedule` on a new pipeline, for at most so many visits. -/
def buildSchedule (given : Given) (mallocs : Mallocs) (elemQttInBlock visits : ℕ)
    (entrypoint : ValuePtr) : Option (Stack (Cell ValuePtr)) := do
  let valSchedule ← lfInitStack
    (Stack.declared mallocs.valSchedule elemQttInBlock pointerSize pointerSize)
  let pipeline ← lfBuildValSchedule given.values mallocs.valsToVisit visits
    ⟨some entrypoint, valSchedule⟩
  some pipeline.valSchedule

/-- The schedule is moved to a new flow, as `lf_partition_flows` does. -/
def moveSchedule (mallocs : Mallocs) (elemQttInBlock : ℕ) (valSchedule : Stack (Cell ValuePtr)) :
    Option Flow := do
  let flow ← lfInitFlow
    (Flow.declared mallocs.flowSchedule mallocs.frameVals mallocs.newVals elemQttInBlock)
  let (_, valSchedule) ← lfStackToList valSchedule flow.valSchedule
  some { flow with valSchedule }

/-- One live value is on the frame, this one. -/
structure Flow.Leaves (flow : Flow) (given : Given) (value : Value) : Prop where
  counted : flow.frameVals.elemCount = 1
  live : ∀ n, flow.frameVals.HasLive n ↔ n ≤ 1
  value : ∃ ptr frameVals, flow.frameVals.popValue pointerSize = some (ptr, frameVals) ∧
    flow.values given ptr = some value

/-- Whatever `malloc` returns, the tree is scheduled, moved and evaluated, which
leaves this value. -/
def EvaluatesTo (given : Given) (natives : Natives) (elemQttInBlock : ℕ) (tree : Rose ValuePtr)
    (value : Value) : Prop :=
  ∀ mallocs : Mallocs, ∃ visits valSchedule flow rounds flow',
    buildSchedule given mallocs elemQttInBlock visits tree.label = some valSchedule ∧
    moveSchedule mallocs elemQttInBlock valSchedule = some flow ∧
    lfEvalFlow given natives rounds flow = some flow' ∧ flow'.Leaves given value

section Tree

variable {given : Given} {natives : Natives} {mallocs : Mallocs} {elemQttInBlock : ℕ}
  {tree : Rose ValuePtr} {expr : Expr}

theorem Flow.Frames.leaves {flow : Flow} {value : Value} (frames : flow.Frames given ⟨[value], 0⟩) :
    flow.Leaves given value where
  counted := frames.count
  live := by
    intro n
    obtain ⟨-, -, used, live, ptrs, -, stores, denotes⟩ := frames
    rw [stores.hasLive_iff, denotes.length_eq]
    rfl
  value := by
    obtain ⟨ptr, frameVals, popped, found, -⟩ := frames.take
    exact ⟨ptr, frameVals, popped, found⟩

/-- More visits change nothing. -/
theorem buildSchedule_unique {visits visits' : ℕ} {one two : Stack (Cell ValuePtr)} {ptr : ValuePtr}
    (built : buildSchedule given mallocs elemQttInBlock visits ptr = some one)
    (built' : buildSchedule given mallocs elemQttInBlock visits' ptr = some two) : one = two := by
  simp only [buildSchedule, lfBuildValSchedule, Option.bind_eq_bind, Option.bind_eq_some_iff,
    Option.some.injEq] at built built'
  obtain ⟨start, init, _, ⟨_, rfl, empty, initEmpty, toVisit, pushed, schedule, ends, rfl⟩, rfl⟩ :=
    built
  obtain ⟨start', init', _, ⟨_, rfl, empty', initEmpty', toVisit', pushed', schedule', ends', rfl⟩,
    rfl⟩ := built'
  obtain rfl := Option.some.inj (init.symm.trans init')
  obtain rfl := Option.some.inj (initEmpty.symm.trans initEmpty')
  obtain rfl := Option.some.inj (pushed.symm.trans pushed')
  exact Returns.unique ⟨visits, ends⟩ ⟨visits', ends'⟩

/-- A schedule of a new pipeline, with these values on it. -/
structure IsSchedule (elemQttInBlock : ℕ) (ptrs : List ValuePtr)
    (valSchedule : Stack (Cell ValuePtr)) : Prop where
  contains : valSchedule.Contains pointerSize ptrs
  inUse : valSchedule.HeadInUse
  blockSize : valSchedule.arena.blockSize = sizeWrap (elemQttInBlock * pointerSize)
  alignment : valSchedule.elemAlignment = pointerSize
  padded : valSchedule.elemPaddedSize = pointerSize
  qtt : valSchedule.elemQttInBlock = elemQttInBlock

/-- The tree is scheduled. -/
theorem buildSchedule_spec (mallocs : Mallocs) (encodes : Encodes given tree expr)
    (some_in_block : elemQttInBlock ≠ 0) (room : sizeWrap (elemQttInBlock * pointerSize) ≠ 0) :
    ∃ visits valSchedule,
      buildSchedule given mallocs elemQttInBlock visits tree.label = some valSchedule ∧
      IsSchedule elemQttInBlock tree.postorder valSchedule := by
  let declared := Stack.declared mallocs.valSchedule elemQttInBlock pointerSize pointerSize
  have fits : pointerSize ≤ sizeWrap (elemQttInBlock * pointerSize) :=
    fits_of_dvd (by decide) room
  obtain ⟨start, used, init, holds, blocks, qtt, size, alignment, count⟩ :=
    @Stack.Holds.init _ declared pointerSize_pos (Nat.pos_of_ne_zero some_in_block)
      paddedSize_pointerSize fits
  have contains : start.Contains pointerSize [] := ⟨size, count, used, [], holds, rfl⟩
  obtain ⟨visits, pipeline, built, scheduled⟩ :=
    lfBuildValSchedule_contains encodes.spells mallocs.valsToVisit contains (by rwa [qtt])
  rw [List.append_nil] at scheduled
  have done : buildSchedule given mallocs elemQttInBlock visits tree.label =
      some pipeline.valSchedule := by
    simp [buildSchedule, declared, init, built]
  -- a push keeps the geometry and leaves the head block in use
  have kept := lfBuildValSchedule_keeps
    (fun stack => (∃ values, stack.Contains pointerSize values) ∧ start.Keeps stack ∧
      (stack.elemCount = 0 ∨ stack.HeadInUse)) ?_ ⟨⟨[], contains⟩, .refl _, .inl count⟩ built
  · obtain ⟨-, keeps, inUse⟩ := kept
    have nonempty : pipeline.valSchedule.elemCount ≠ 0 := by
      rw [scheduled.2.1, Rose.length_postorder]
      cases tree
      simp [Rose.nodes]
    have padded : start.elemPaddedSize = pointerSize := holds.padded.trans size
    exact ⟨visits, pipeline.valSchedule, done,
      { contains := scheduled
        inUse := inUse.resolve_left nonempty
        blockSize := keeps.arena.blockSize.trans blocks
        alignment := keeps.alignment.trans alignment
        padded := keeps.padded.trans padded
        qtt := keeps.qtt.trans qtt }⟩
  · rintro stack val stack' ⟨⟨values, contains⟩, keeps, -⟩ pushed
    obtain ⟨contains', keeps', inUse⟩ := contains.push_inUse pushed
    exact ⟨⟨_, contains'⟩, keeps.trans keeps', .inr inUse⟩

/-- The schedule of the flow that a schedule is moved to. -/
theorem moveSchedule_spec (given : Given) (mallocs : Mallocs) (two : 2 ≤ elemQttInBlock)
    (room : sizeWrap (elemQttInBlock * pointerSize) ≠ 0) {valSchedule : Stack (Cell ValuePtr)}
    {ptrs : List ValuePtr} (isSchedule : IsSchedule elemQttInBlock ptrs valSchedule)
    (some_values : ptrs ≠ []) :
    ∃ flow after deck elems, moveSchedule mallocs elemQttInBlock valSchedule = some flow ∧
      flow.Frames given .empty ∧ flow.valSchedule.Lists after deck (elems.map Prod.fst) ∧
      elems.map Prod.snd = ptrs ∧ flow.valSchedule.AnyCursor deck flow.valSchedule ∧
      LFList.Passes (flow.valSchedule.AnyCursor deck) pointerSize elems ∧
      (ptrs.length * pointerSize ≤ sizeWrap (elemQttInBlock * pointerSize) → after = none) ∧
      (∀ unset, (∀ q, (mallocs.flowSchedule.header q).next = unset) →
        sizeWrap (elemQttInBlock * pointerSize) < ptrs.length * pointerSize → after = unset) ∧
      ∀ p b, flow.valSchedule.arena.heap.block p = some b →
        p < 2 + valSchedule.arena.blockCount := by
  obtain ⟨fresh, init, initList, frames⟩ :=
    @lfInitFlow_spec given mallocs.flowSchedule mallocs.frameVals mallocs.newVals _ two room
  obtain ⟨⟨-, cursor, h, hb, rep, -⟩, size, alignment, qtt, positive, padded, blockSize, -⟩ :=
    LFList.Unused.init initList
  obtain ⟨malloc, serial, known⟩ := lfInitList_heap initList
  have width : fresh.valSchedule.elemPaddedSize = pointerSize := by
    rw [size, alignment] at padded
    exact Option.some.inj (padded.symm.trans paddedSize_pointerSize)
  have geometry : SameGeometry valSchedule fresh.valSchedule := {
    size := size.trans isSchedule.contains.1.symm
    alignment := alignment.trans isSchedule.alignment.symm
    padded := width.trans isSchedule.padded.symm
    qtt := qtt.trans isSchedule.qtt.symm
    blockSize := by
      rw [blockSize, width, qtt, isSchedule.blockSize]
      rfl }
  have whole : pointerSize ∣ valSchedule.arena.blockSize := by
    rw [isSchedule.blockSize]
    exact (Nat.dvd_mod_iff (by decide)).mpr (Nat.dvd_mul_left ..)
  obtain ⟨list, after, deck, elems, moved, lists, same, atCursor, passes, one, several⟩ :=
    isSchedule.contains.moved some_values isSchedule.inUse whole rep
      (cursor.trans rep.head_eq) geometry
  refine ⟨{ fresh with valSchedule := list }, after, deck, elems, ?_, frames.withSchedule list,
    lists, same, atCursor, passes, ?_, ?_, ?_⟩
  · simp [moveSchedule, init, moved]
  · rw [← isSchedule.blockSize]
    exact one
  · intro unset unlinked large
    refine several unset (?_) (by rwa [isSchedule.blockSize])
    intro q
    rw [malloc]
    exact unlinked q
  · intro p b found
    rcases lfStackToList_known moved found with ⟨b', there⟩ | new
    · rcases known p b' there with rfl | none
      · exact Nat.lt_of_lt_of_le Nat.two_pos (Nat.le_add_right ..)
      · cases none
    · rw [serial] at new
      exact Nat.lt_of_lt_of_le new (Nat.add_le_add_left (Nat.sub_le ..) 2)

/-- What is not empty and fits in an area fits in no empty one. -/
theorem room_of_fits {ptrs : List ValuePtr} {area : ℕ} (some_values : ptrs ≠ [])
    (fits : ptrs.length * pointerSize ≤ area) : area ≠ 0 := by
  have taken : 0 < ptrs.length * pointerSize :=
    Nat.mul_pos (List.length_pos_of_ne_nil some_values) (by decide)
  exact Nat.ne_of_gt (Nat.lt_of_lt_of_le taken fits)

/-- A schedule that fits in a block is a schedule of the flow. -/
theorem moveSchedule_scheduled (mallocs : Mallocs) (two : 2 ≤ elemQttInBlock)
    {valSchedule : Stack (Cell ValuePtr)} {ptrs : List ValuePtr} {entries : List Entry}
    (isSchedule : IsSchedule elemQttInBlock ptrs valSchedule) (some_values : ptrs ≠ [])
    (describes : List.Forall₂ (fun ptr entry => Entry.Describes given ptr entry) ptrs entries)
    (fits : ptrs.length * pointerSize ≤ sizeWrap (elemQttInBlock * pointerSize)) :
    ∃ flow, moveSchedule mallocs elemQttInBlock valSchedule = some flow ∧
      flow.Scheduled given entries := by
  obtain ⟨flow, after, deck, elems, moved, frames, lists, rfl, atCursor, passes, one, -⟩ :=
    moveSchedule_spec given mallocs two (room_of_fits some_values fits) isSchedule some_values
  obtain rfl := one fits
  exact ⟨flow, moved, frames, _, elems, lists.walks passes, atCursor,
    List.forall₂_map_left_iff.mp describes⟩

/-- With more than fits in a block the evaluation fails when the last new block links
to no block. -/
theorem moveSchedule_fails (mallocs : Mallocs) (two : 2 ≤ elemQttInBlock)
    (room : sizeWrap (elemQttInBlock * pointerSize) ≠ 0) {valSchedule : Stack (Cell ValuePtr)}
    {ptrs : List ValuePtr} {entries : List Entry}
    (isSchedule : IsSchedule elemQttInBlock ptrs valSchedule) (some_values : ptrs ≠ [])
    (describes : List.Forall₂ (fun ptr entry => Entry.Describes given ptr entry) ptrs entries)
    (large : sizeWrap (elemQttInBlock * pointerSize) < ptrs.length * pointerSize)
    (dangling : ∀ q, (mallocs.flowSchedule.header q).next = some (2 + valSchedule.arena.blockCount))
    (unfinished : Frame.run natives.partials (entries ++ [.refused]) .empty = none) :
    ∃ flow, moveSchedule mallocs elemQttInBlock valSchedule = some flow ∧
      ∀ rounds, lfEvalFlow given natives rounds flow = none := by
  obtain ⟨flow, after, deck, elems, moved, frames, lists, rfl, atCursor, passes, -, several,
    known⟩ :=
    moveSchedule_spec given mallocs two room isSchedule some_values
  obtain rfl := several _ dangling large
  have missing : flow.valSchedule.arena.heap.block (2 + valSchedule.arena.blockCount) = none := by
    by_contra found
    obtain ⟨b, found⟩ := Option.ne_none_iff_exists'.mp found
    exact absurd (known _ b found) (Nat.lt_irrefl _)
  have breaks := lists.breaks missing passes
  replace describes := List.forall₂_map_left_iff.mp describes
  obtain ⟨s, start, here⟩ := evalStart_spec breaks.toPasses atCursor describes frames
  have some_entries : entries ≠ [] := by
    rintro rfl
    cases describes
    exact some_values rfl
  refine ⟨flow, moved, ?_⟩
  intro rounds
  have fails := evalStepWith_run_breaks (runNative_implements given natives entries) breaks here
    some_entries unfinished rounds
  simp [lfEvalFlow, lfEvalFlowWith, start, fails]

theorem postorder_ne_nil (tree : Rose ValuePtr) : tree.postorder ≠ [] := by
  cases tree
  simp [Rose.postorder]

/-- A left-nested expression is evaluated when its schedule fits in a block. -/
theorem EvaluatesTo.of_leftNested (encodes : Encodes given tree expr) (two : 2 ≤ elemQttInBlock)
    (nested : expr.leftNested)
    (fits : tree.nodes * pointerSize ≤ sizeWrap (elemQttInBlock * pointerSize)) :
    EvaluatesTo given natives elemQttInBlock tree (expr.eval natives) := by
  intro mallocs
  rw [← Rose.length_postorder] at fits
  obtain ⟨visits, valSchedule, built, isSchedule⟩ :=
    buildSchedule_spec mallocs encodes (by omega) (room_of_fits (postorder_ne_nil tree) fits)
  obtain ⟨flow, moved, scheduled⟩ := moveSchedule_scheduled mallocs two isSchedule
    (postorder_ne_nil tree) encodes.describes fits
  have ends := lfEvalFlowWith_run (runNative_implements given natives _) scheduled
  rw [Expr.run_entries, if_pos nested, Expr.evalWith_partials] at ends
  obtain ⟨rounds, flow', evaluated, frames⟩ := ends
  exact ⟨visits, valSchedule, flow, rounds, flow', built, moved, evaluated, frames.leaves⟩

/-- The flow of an expression that is evaluated is, in some number of rounds. -/
theorem EvaluatesTo.rounds {value : Value} {visits : ℕ} {valSchedule : Stack (Cell ValuePtr)}
    {flow : Flow} (evaluates : EvaluatesTo given natives elemQttInBlock tree value)
    (built : buildSchedule given mallocs elemQttInBlock visits tree.label = some valSchedule)
    (moved : moveSchedule mallocs elemQttInBlock valSchedule = some flow) :
    ∃ rounds flow', lfEvalFlow given natives rounds flow = some flow' := by
  obtain ⟨visits', valSchedule', flow₁, rounds, flow', built', moved', evaluated, -⟩ :=
    evaluates mallocs
  obtain rfl := buildSchedule_unique built built'
  obtain rfl := Option.some.inj (moved.symm.trans moved')
  exact ⟨rounds, flow', evaluated⟩

/-- Calls of `malloc` that return blocks one after the other. -/
def Mallocs.bump : Mallocs :=
  ⟨.bump (.raw 0), .bump (.raw 0), .bump (.raw 0), .bump (.raw 0), .bump (.raw 0)⟩

/-- An expression that is evaluated whatever `malloc` returns has a schedule that fits
in a block. -/
theorem EvaluatesTo.fits {value : Value} (encodes : Encodes given tree expr)
    (two : 2 ≤ elemQttInBlock) (room : sizeWrap (elemQttInBlock * pointerSize) ≠ 0)
    (evaluates : EvaluatesTo given natives elemQttInBlock tree value) :
    tree.nodes * pointerSize ≤ sizeWrap (elemQttInBlock * pointerSize) := by
  by_contra large
  rw [not_le, ← Rose.length_postorder] at large
  obtain ⟨visits, valSchedule, built, isSchedule⟩ :=
    buildSchedule_spec .bump encodes (by omega) room
  -- the schedule that is built does not depend on the allocator of the list
  let unlinked : Mallocs :=
    { Mallocs.bump with
      flowSchedule :=
        { Mallocs.bump.flowSchedule with
          header := fun q => { Mallocs.bump.flowSchedule.header q with
            next := some (2 + valSchedule.arena.blockCount) } } }
  obtain ⟨flow, moved, fails⟩ := @moveSchedule_fails given natives _ unlinked two room _ _ _
    isSchedule (postorder_ne_nil tree) encodes.describes large (fun _ => rfl)
    (Expr.run_entries_refused natives.partials expr)
  obtain ⟨rounds, flow', evaluated⟩ := @EvaluatesTo.rounds given natives unlinked _ _ _ _ _ _
    evaluates built moved
  rw [fails rounds] at evaluated
  cases evaluated

/-- An expression that is evaluated is left-nested. -/
theorem EvaluatesTo.leftNested {value : Value} (encodes : Encodes given tree expr)
    (two : 2 ≤ elemQttInBlock) (room : sizeWrap (elemQttInBlock * pointerSize) ≠ 0)
    (evaluates : EvaluatesTo given natives elemQttInBlock tree value) : expr.leftNested := by
  have fits := evaluates.fits encodes two room
  rw [← Rose.length_postorder] at fits
  by_contra nested
  obtain ⟨visits, valSchedule, built, isSchedule⟩ :=
    buildSchedule_spec .bump encodes (by omega) room
  obtain ⟨flow, moved, scheduled⟩ := moveSchedule_scheduled .bump two isSchedule
    (postorder_ne_nil tree) encodes.describes fits
  obtain ⟨rounds, flow', evaluated⟩ := evaluates.rounds built moved
  have ends := lfEvalFlowWith_run (runNative_implements given natives _) scheduled
  rw [Expr.run_entries, if_neg nested] at ends
  rw [lfEvalFlow, ends rounds] at evaluated
  cases evaluated

/-- **When a tree is evaluated.** -/
theorem evaluates_iff (encodes : Encodes given tree expr) (two : 2 ≤ elemQttInBlock)
    (room : sizeWrap (elemQttInBlock * pointerSize) ≠ 0) :
    EvaluatesTo given natives elemQttInBlock tree (expr.eval natives) ↔
      expr.leftNested ∧ tree.nodes * pointerSize ≤ sizeWrap (elemQttInBlock * pointerSize) := by
  constructor
  · intro evaluates
    exact ⟨evaluates.leftNested encodes two room, evaluates.fits encodes two room⟩
  · rintro ⟨nested, fits⟩
    exact .of_leftNested encodes two nested fits

end Tree

/-! ## Native functions that may fail -/

/-- An evaluation has one result, however many rounds are enough for it. -/
theorem lfEvalFlowWith_unique {given : Given} {impls : NativeImpls} {flow flow₁ flow₂ : Flow}
    {fuel fuel' : ℕ} (one : lfEvalFlowWith given impls fuel flow = some flow₁)
    (two : lfEvalFlowWith given impls fuel' flow = some flow₂) : flow₁ = flow₂ := by
  simp only [lfEvalFlowWith, Option.bind_eq_bind, Option.bind_eq_some_iff] at one two
  obtain ⟨s, start, ends⟩ := one
  obtain ⟨s', start', ends'⟩ := two
  obtain rfl := Option.some.inj (start.symm.trans start')
  exact Returns.unique ⟨fuel, ends⟩ ⟨fuel', ends'⟩

/-- **Evaluating with native functions** that compute these partial functions ends
exactly when calls are first arguments only and no function fails. Then the value of the
expression is on top of the frame. -/
theorem evaluatesWith_iff {given : Given} {impls : NativeImpls} {fs : Partials} {expr : Expr}
    {flow : Flow} (scheduled : flow.Scheduled given expr.entries)
    (implements : impls.Implement given fs expr.entries) :
    ((∃ fuel flow', lfEvalFlowWith given impls fuel flow = some flow') ↔
      expr.leftNested = true ∧ (expr.evalWith fs).isSome = true) ∧
    ∀ fuel flow', lfEvalFlowWith given impls fuel flow = some flow' →
      ∃ ptr frameVals, flow'.frameVals.popValue pointerSize = some (ptr, frameVals) ∧
        flow'.values given ptr = expr.evalWith fs := by
  have ends := lfEvalFlowWith_run implements scheduled
  rw [Expr.run_entries] at ends
  by_cases nested : expr.leftNested
  · cases evaluated : expr.evalWith fs with
    | none =>
        simp only [nested, evaluated, ↓reduceIte, Option.map_none] at ends
        simp [ends]
    | some value =>
        simp only [nested, evaluated, ↓reduceIte, Option.map_some] at ends
        obtain ⟨fuel, flow₁, ended, frames⟩ := ends
        refine ⟨⟨fun _ => ⟨nested, rfl⟩, fun _ => ⟨fuel, flow₁, ended⟩⟩,
          ?_⟩
        intro fuel' flow₂ ended'
        obtain rfl := lfEvalFlowWith_unique ended ended'
        obtain ⟨ptr, frameVals, popped, found, -⟩ := frames.take
        exact ⟨ptr, frameVals, popped, found⟩
  · simp only [nested, Bool.false_eq_true, ↓reduceIte] at ends
    simp [ends, nested]

/-! ## Two sums -/

/-- `+`, the numbers 1, 2 and 3, `+(2, 3)`, `+(+(2, 3), 1)` and `+(1, +(2, 3))`. -/
def nestedSums : Given
  | 0 => some (.ofNative 2 0)
  | 1 => some (.ofInt 1)
  | 2 => some (.ofInt 2)
  | 3 => some (.ofInt 3)
  | 4 => some (.ofCall (.given 0) [.given 2, .given 3])
  | 5 => some (.ofCall (.given 0) [.given 4, .given 1])
  | 6 => some (.ofCall (.given 0) [.given 1, .given 4])
  | _ => none

/-- The number that a value holds. -/
def Value.toInt (value : Value) : BitVec 32 :=
  match value.content with
  | .int value => value
  | _ => 0

def sumNatives : Natives := fun _ args =>
  .ofInt (args.foldl (fun total arg => total + arg.toInt) 0)

/-- A call of `+` in memory. -/
theorem encodes_sum {id : ℕ} {left right : Rose ValuePtr} {one two : Expr}
    (found : nestedSums id = some (.ofCall (.given 0) [left.label, right.label]))
    (first : Encodes nestedSums left one) (second : Encodes nestedSums right two) :
    Encodes nestedSums (.node (.given id) [left, right]) (.call 0 [one, two]) := by
  refine .call found rfl rfl ?_ (.cons first (.cons second .nil))
  intro i inRange
  match i, inRange with
  | 0, _ => rfl
  | 1, _ => rfl

theorem encodes_number {id : ℕ} {value : BitVec 32} (found : nestedSums id = some (.ofInt value)) :
    Encodes nestedSums (.node (.given id) []) (.literal (.ofInt value)) :=
  .literal found (List.mem_cons_self ..)

/-- `+(2, 3)`. -/
def innerTree : Rose ValuePtr := .node (.given 4) [.node (.given 2) [], .node (.given 3) []]

def innerExpr : Expr := .call 0 [.literal (.ofInt 2), .literal (.ofInt 3)]

theorem encodes_inner : Encodes nestedSums innerTree innerExpr :=
  encodes_sum rfl (encodes_number rfl) (encodes_number rfl)

/-- `+(+(2, 3), 1)` is evaluated. -/
theorem evaluates_iff_left :
    EvaluatesTo nestedSums sumNatives 256 (.node (.given 5) [innerTree, .node (.given 1) []])
      (.ofInt 6) := by
  have encodes := @encodes_sum 5 _ _ _ _ rfl encodes_inner (@encodes_number 1 1 rfl)
  refine (@evaluates_iff nestedSums sumNatives 256 _ _ encodes (by decide) (by decide)).mpr
    ⟨rfl, ?_⟩
  simp [Rose.nodes, Rose.nodesAll, innerTree, pointerSize, sizeWrap, sizeModulus]

/-- `+(1, +(2, 3))` is not: the inner call leaves its result only. -/
theorem not_evaluates_right :
    ¬ EvaluatesTo nestedSums sumNatives 256 (.node (.given 6) [.node (.given 1) [], innerTree])
      (.ofInt 6) := by
  intro evaluates
  have nested := evaluates.leftNested (encodes_sum rfl (encodes_number rfl) encodes_inner)
    (by decide) (by decide)
  simp [Expr.leftNested, innerExpr, Expr.isLiteral] at nested

end LowFlow
