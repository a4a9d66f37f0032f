import LowFlow.Planning.PassStrings
import LowFlow.Runtime.Evaluation

/-!
# Runs of the pass pipeline

What a pipeline is for: its passes make a plan. Building the schedule puts the
post-order of the expression tree on top of it, and partitioning hands what is on
it to a new flow. `Plan` does this with lists, and `Planner` has the passes as well.
When the memory of the strings happens to lead to arenas, a pipeline goes through any
calls in any order after it is initialized, and has the passes, the schedule and the
flow of the planner (`pipeline_refines_planner`). A flow that got a schedule can be
evaluated (`pipeline_evaluates`).
-/

set_option autoImplicit false

namespace LowFlow

open Library

/-! ## Plans -/

/-- What the passes have planned: the schedule, top first, and the schedule of the
flow that was made last. -/
structure Plan where
  schedule : List ValuePtr
  flow : Option (List ValuePtr)
deriving DecidableEq

namespace Plan

def empty : Plan := ⟨[], none⟩

/-- What a pass does to the plan. -/
def pass (tree : Rose ValuePtr) (plan : Plan) : PassFn → Plan
  | .buildValSchedule => { plan with schedule := tree.postorder ++ plan.schedule }
  | .partitionFlows => { plan with flow := some plan.schedule }

/-- The plan after these passes. -/
def after (tree : Rose ValuePtr) (plan : Plan) (passes : List PassFn) : Plan :=
  passes.foldl (pass tree) plan

@[simp] theorem after_nil (tree : Rose ValuePtr) (plan : Plan) : after tree plan [] = plan := rfl

@[simp] theorem after_cons (tree : Rose ValuePtr) (plan : Plan) (fn : PassFn)
    (passes : List PassFn) :
    after tree plan (fn :: passes) = after tree (plan.pass tree fn) passes :=
  rfl

/-- The passes of `src/` push no passes. -/
def effect (tree : Rose ValuePtr) : Effect PassFn Plan :=
  fun applyFn plan => (plan.pass tree applyFn, [])

/-- Working off a queue of passes gives their plan. -/
theorem drains (tree : Rose ValuePtr) (plan : Plan) (passes : List (Pass PassFn)) :
    Drains (effect tree) passes plan passes (plan.after tree (passes.map Pass.applyFn)) := by
  induction passes generalizing plan with
  | nil => exact .empty plan
  | cons pass passes ih =>
      refine .apply rfl ?_
      rw [List.append_nil, List.map_cons, after_cons]
      exact ih (plan.pass tree pass.applyFn)

/-- What is planned is the post-order of the tree, a number of times. -/
def Repeats (tree : Rose ValuePtr) (plan : Plan) : Prop :=
  (∃ n, plan.schedule = (List.replicate n tree.postorder).flatten) ∧
    ∀ ptrs, plan.flow = some ptrs → ∃ n, ptrs = (List.replicate n tree.postorder).flatten

theorem Repeats.pass {tree : Rose ValuePtr} {plan : Plan} (repeats : plan.Repeats tree)
    (fn : PassFn) : (plan.pass tree fn).Repeats tree := by
  obtain ⟨⟨n, schedule⟩, flow⟩ := repeats
  cases fn with
  | buildValSchedule =>
      refine ⟨⟨n + 1, ?_⟩, flow⟩
      rw [List.replicate_succ, List.flatten_cons, ← schedule]
      rfl
  | partitionFlows =>
      refine ⟨⟨n, schedule⟩, ?_⟩
      rintro ptrs planned
      exact ⟨n, (Option.some.inj planned).symm.trans schedule⟩

theorem Repeats.after {tree : Rose ValuePtr} {plan : Plan} (repeats : plan.Repeats tree)
    (passes : List PassFn) : (plan.after tree passes).Repeats tree := by
  induction passes generalizing plan with
  | nil => exact repeats
  | cons fn passes ih => exact ih (repeats.pass fn)

end Plan

/-- What a caller has made of a pipeline: the passes that are in it, and their plan. -/
structure Planner where
  passes : List PassFn
  plan : Plan
deriving DecidableEq

namespace Planner

/-- Nothing was pushed, and nothing is planned. -/
def new : Planner := ⟨[], .empty⟩

/-- What a call does. Initializing forgets the passes and the schedule, but not the
flow. Processing applies all passes, those that were applied before as well. -/
def call (tree : Rose ValuePtr) (planner : Planner) : PipelineCall → Planner
  | .initPassPipeline => ⟨[], { planner.plan with schedule := [] }⟩
  | .pushPass _ applyFn => { planner with passes := planner.passes ++ [applyFn] }
  | .processPassPipeline => { planner with plan := planner.plan.after tree planner.passes }

/-- What these calls do. -/
def calls (tree : Rose ValuePtr) (planner : Planner) (calls : List PipelineCall) : Planner :=
  calls.foldl (call tree) planner

@[simp] theorem calls_nil (tree : Rose ValuePtr) (planner : Planner) :
    planner.calls tree [] = planner := rfl

@[simp] theorem calls_cons (tree : Rose ValuePtr) (planner : Planner) (c : PipelineCall)
    (calls : List PipelineCall) :
    planner.calls tree (c :: calls) = (planner.call tree c).calls tree calls := rfl

/-- What is planned is still the post-order of the tree, a number of times. -/
theorem repeats_call {tree : Rose ValuePtr} {planner : Planner}
    (repeats : planner.plan.Repeats tree) (c : PipelineCall) :
    (planner.call tree c).plan.Repeats tree := by
  cases c with
  | initPassPipeline => exact ⟨⟨0, rfl⟩, repeats.2⟩
  | pushPass name applyFn => exact repeats
  | processPassPipeline => exact repeats.after planner.passes

theorem repeats_calls {tree : Rose ValuePtr} {planner : Planner}
    (repeats : planner.plan.Repeats tree) (calls : List PipelineCall) :
    (planner.calls tree calls).plan.Repeats tree := by
  induction calls generalizing planner with
  | nil => exact repeats
  | cons c calls ih => exact ih (repeats_call repeats c)

/-- Pushing passes and processing them plans what they do. -/
theorem calls_push_process (tree : Rose ValuePtr) (planner : Planner)
    (passes : List (List UInt8 × PassFn)) :
    planner.calls tree
        (passes.map (fun pass => .pushPass pass.1 pass.2) ++ [.processPassPipeline]) =
      ⟨planner.passes ++ passes.map Prod.snd,
        planner.plan.after tree (planner.passes ++ passes.map Prod.snd)⟩ := by
  induction passes generalizing planner with
  | nil => simp [call]
  | cons pass passes ih =>
      rw [List.map_cons, List.cons_append, calls_cons, ih]
      simp [call]

end Planner

/-! ## Strings in memory that leads to arenas -/

/-- No arena of these objects is lost in the others. -/
def Objects.ArenasIn (objects objects' : Objects) : Prop :=
  ∀ address, (objects.arenas address).isSome = true → (objects'.arenas address).isSome = true

/-- What was in the memory of the strings leads to arenas, and to no slices. -/
def Setting.StringsLead (setting : Setting) (objects : Objects) : Prop :=
  ∀ n, (setting.leftover n).arena ≠ 0 ∧ (setting.leftover n).slice = 0 ∧
    (objects.arenas (setting.leftover n).arena).isSome = true

/-- These members lead to an arena, and to no slice. -/
def StringMembers.Leads (str : StringMembers) (objects : Objects) : Prop :=
  str.arena.value ≠ 0 ∧ str.slice.value = 0 ∧ (objects.arenas str.arena.value).isSome = true

theorem StringMembers.Leads.mono {str : StringMembers} {objects objects' : Objects}
    (leads : str.Leads objects) (kept : objects.ArenasIn objects') : str.Leads objects' :=
  ⟨leads.1, leads.2.1, kept _ leads.2.2⟩

theorem Setting.StringsLead.mono {setting : Setting} {objects objects' : Objects}
    (lead : setting.StringsLead objects) (kept : objects.ArenasIn objects') :
    setting.StringsLead objects' := by
  intro n
  obtain ⟨address, slice, found⟩ := lead n
  exact ⟨address, slice, kept _ found⟩

/-- The string is a new one, with one block of this many characters. -/
def Objects.NewString (objects : Objects) (str : StringMembers) (size : ℕ) : Prop :=
  str.arena.value ≠ 0 ∧ str.slice.value = 0 ∧ ∃ arena p b,
    objects.arenas str.arena.value = some arena ∧ Represents arena [(p, b)] ∧
      arena.blockSize = size ∧ b.rightOffset = 0

theorem StringMembers.save_arenasIn (str : StringMembers) (objects : Objects)
    (value : LFString UInt8) : objects.ArenasIn (str.save objects value) := by
  intro address found
  by_cases same : address = str.arena.value
  · simp [StringMembers.save, same]
  · simpa [StringMembers.save, same] using found

/-- A string whose memory leads to an arena is initialized. -/
theorem initStringMembers_gives {str : StringMembers} {objects : Objects}
    (leads : str.Leads objects) {size : ℕ} (qtt : str.charQttInBlock.value = size)
    (positive : 0 < size) :
    (initStringMembers str objects).Gives fun objects' =>
      objects.ArenasIn objects' ∧ objects'.NewString str size := by
  obtain ⟨address, slice, found⟩ := leads
  obtain ⟨arena, there⟩ := Option.isSome_iff_exists.mp found
  obtain ⟨arena', init, rep, blockSize, -⟩ :=
    lfInitArena_spec { arena with blockSize := size, blockOffset := .left } positive
  have loaded : str.load objects = some ⟨arena, none, size⟩ := by
    simp [StringMembers.load, address, slice, there, qtt]
  have made : lfInitString ⟨arena, none, size⟩ = some ⟨arena', none, size⟩ := by
    simp [lfInitString, init]
  refine (Recording.Gives.record _).bind ?_
  intro _ _
  refine (Recording.Gives.ofOption loaded rfl).bind ?_
  intro _ same
  subst same
  refine (Recording.Gives.ofOption made rfl).bind ?_
  intro _ same
  subst same
  refine .pure ⟨str.save_arenasIn objects _, address, slice, arena', _, _, ?_, rep, blockSize, rfl⟩
  simp [StringMembers.save]

/-- Characters that fit are stored in a new string. -/
theorem Objects.NewString.store {objects : Objects} {str : StringMembers} {chars : List UInt8}
    (new : objects.NewString str chars.length) (some_chars : chars ≠ []) :
    ∃ objects', storeChars str objects chars = some objects' ∧ objects.ArenasIn objects' := by
  obtain ⟨address, slice, arena, p, b, found, rep, blockSize, right⟩ := new
  have loaded : str.load objects = some ⟨arena, none, str.charQttInBlock.value⟩ := by
    simp [StringMembers.load, address, slice, found]
  obtain ⟨ptr, arena', deck', alloc, change, rep', keeps, -⟩ :=
    rep.allocAtTail (List.length_pos_iff.mpr some_chars) (le_of_eq blockSize.symm)
  obtain ⟨front, q, c, offset, rfl, rfl, ends⟩ := change.last
  have inside : offset + chars.length ≤ arena'.blockSize := by
    have bounded := change.bounded (le_of_eq blockSize.symm) rep.sized (by simp [right])
    rw [keeps.blockSize, ← ends]
    exact bounded (q, c) (by simp)
  obtain ⟨heap, stored, -⟩ := rep'.store (p := q) (by simp) inside
  refine ⟨str.save objects ⟨{ arena' with heap }, none, str.charQttInBlock.value⟩, ?_,
    str.save_arenasIn objects _⟩
  simp [storeChars, loaded, lfAllocString, alloc, stored]

/-- A logger whose buffer leads to an arena is initialized. -/
theorem lfInitLogger_gives {logger : Logger} {objects : Objects}
    (leads : logger.buf.Leads objects) :
    (lfInitLogger logger objects).Gives fun result =>
      objects.ArenasIn result.2 ∧ result.1.buf.Leads result.2 := by
  have initialized := @initStringMembers_gives
    { logger.buf with charQttInBlock := .stored loggerBufCharQttInBlock } objects leads
    loggerBufCharQttInBlock rfl (by decide)
  apply initialized.bind
  intro objects' kept
  exact .pure ⟨kept.1, leads.mono kept.1⟩

/-! ## The schedule of the pipeline -/

/-- The schedule of a pipeline, with these values on it. -/
structure Schedules (ptrs : List ValuePtr) (stack : Stack (Cell ValuePtr)) : Prop where
  contains : stack.Contains pointerSize ptrs
  inUse : ptrs ≠ [] → stack.HeadInUse
  blockSize : stack.arena.blockSize = passPipelineValScheduleQttInBlock * pointerSize
  alignment : stack.elemAlignment = pointerSize
  padded : stack.elemPaddedSize = pointerSize
  qtt : stack.elemQttInBlock = passPipelineValScheduleQttInBlock

namespace Schedules

variable {ptrs : List ValuePtr} {stack : Stack (Cell ValuePtr)} {values : Values}
  {tree : Rose ValuePtr}

theorem of_init (malloc : Allocator (Cell ValuePtr)) :
    ∃ stack, lfInitStack (Stack.declared malloc passPipelineValScheduleQttInBlock pointerSize
      pointerSize) = some stack ∧ Schedules [] stack := by
  obtain ⟨stack, used, init, holds, blockSize, qtt, size, alignment, count⟩ :=
    @Stack.Holds.init _ (Stack.declared malloc passPipelineValScheduleQttInBlock pointerSize
        pointerSize) pointerSize_pos
      (show 0 < passPipelineValScheduleQttInBlock by decide)
      paddedSize_pointerSize
      (show pointerSize ≤ sizeWrap (passPipelineValScheduleQttInBlock * pointerSize) by decide)
  exact ⟨stack, init,
    { contains := ⟨size, count, used, [], holds, rfl⟩
      inUse := fun some_values => absurd rfl some_values
      blockSize := blockSize.trans (sizeWrap_of_lt
        (show passPipelineValScheduleQttInBlock * pointerSize < sizeModulus by decide))
      alignment := alignment
      padded := holds.padded.trans size
      qtt := qtt }⟩

/-- Building puts the post-order of the tree on top, in any number of rounds from
some number on. -/
theorem build (schedules : Schedules ptrs stack) (spells : Spells values tree)
    (malloc : Allocator (Cell ValuePtr)) :
    ∃ least stack', (∀ rounds ≥ least, lfBuildValSchedule values malloc rounds
        ⟨some tree.label, stack⟩ = some ⟨some tree.label, stack'⟩) ∧
      Schedules (tree.postorder ++ ptrs) stack' := by
  obtain ⟨least, pipeline, built, scheduled⟩ :=
    lfBuildValSchedule_contains spells malloc schedules.contains (by rw [schedules.qtt]; decide)
  have kept := lfBuildValSchedule_keeps
    (fun other => (∃ values, other.Contains pointerSize values) ∧ stack.Keeps other ∧
      (other.elemCount ≠ 0 → other.HeadInUse)) ?_ ⟨⟨ptrs, schedules.contains⟩, .refl _, ?_⟩ built
  · obtain ⟨-, keeps, inUse⟩ := kept
    refine ⟨least, pipeline.valSchedule, ?_, ?_⟩
    · intro rounds more
      simp only [lfBuildValSchedule, Option.bind_eq_bind, Option.bind_some,
        Option.bind_eq_some_iff, Option.some.injEq] at built ⊢
      obtain ⟨empty, init, toVisit, pushed, valSchedule, ends, rfl⟩ := built
      exact ⟨empty, init, toVisit, pushed, valSchedule, iterate_mono ends more, rfl⟩
    · exact {
        contains := scheduled
        inUse := fun some_values => inUse (by
          rw [scheduled.2.1]
          exact Nat.ne_of_gt (List.length_pos_of_ne_nil some_values))
        blockSize := keeps.arena.blockSize.trans schedules.blockSize
        alignment := keeps.alignment.trans schedules.alignment
        padded := keeps.padded.trans schedules.padded
        qtt := keeps.qtt.trans schedules.qtt }
  · rintro other val other' ⟨⟨values, contains⟩, keeps, -⟩ pushed
    obtain ⟨contains', keeps', inUse⟩ := contains.push_inUse pushed
    exact ⟨⟨_, contains'⟩, keeps.trans keeps', fun _ => inUse⟩
  · intro counted
    apply schedules.inUse
    rintro rfl
    exact counted schedules.contains.2.1

end Schedules

/-! ## The flow of the pipeline -/

/-- A flow that was not evaluated yet, with these values as its schedule. With no
more of them than in a block the walk through them ends. -/
structure Flow.Plans (flow : Flow) (ptrs : List ValuePtr) : Prop where
  frames : ∀ given, flow.Frames given .empty
  vals : ∃ In elems, LFList.Passes In pointerSize elems ∧ In flow.valSchedule ∧
    elems.map Prod.snd = ptrs ∧
    (ptrs.length ≤ passPipelineValScheduleQttInBlock → LFList.Walks In pointerSize elems)

/-- A schedule is moved to a new list. -/
theorem Schedules.moved {ptrs : List ValuePtr} {stack : Stack (Cell ValuePtr)}
    (schedules : Schedules ptrs stack) {list : LFList (Cell ValuePtr)} {h : BlockPtr}
    {hb : Slab (Cell ValuePtr)} (fresh : Represents list.arena [(h, hb)])
    (cursor : list.arena.cursorBlock = some h) (geometry : SameGeometry stack list) :
    ∃ list' In elems, lfStackToList stack list = some (stack, list') ∧
      LFList.Passes In pointerSize elems ∧ In list' ∧ elems.map Prod.snd = ptrs ∧
      (ptrs.length ≤ passPipelineValScheduleQttInBlock → LFList.Walks In pointerSize elems) := by
  have whole : pointerSize ∣ stack.arena.blockSize := by
    rw [schedules.blockSize]
    exact Nat.dvd_mul_left ..
  by_cases none : ptrs = []
  · subst none
    obtain ⟨width, count, used, live, holds, same⟩ := schedules.contains
    obtain rfl : live = [] := List.map_eq_nil_iff.mp same
    obtain ⟨⟨p, b⟩, rest, rfl⟩ := List.exists_cons_of_ne_nil holds.nonempty
    obtain ⟨list', after, c, copies, places, moved, lists, reads, -⟩ :=
      lfStackToList_spec holds count (.inr (width ▸ whole)) fresh cursor geometry.size
        geometry.alignment geometry.padded geometry.qtt geometry.blockSize
    cases reads
    have walks : LFList.Walks (fun other => other = list') pointerSize [] :=
      { read := by simp
        first := by
          rintro _ rfl
          exact ⟨_, lists.nothing.1, rfl⟩
        next := by simp
        last := by simp }
    exact ⟨list', _, [], moved, walks.toPasses, rfl, rfl, fun _ => walks⟩
  · obtain ⟨list', after, deck, elems, moved, lists, same, atCursor, passes, one, -⟩ :=
      schedules.contains.moved none (schedules.inUse none) whole fresh cursor geometry
    refine ⟨list', _, elems, moved, passes, atCursor, same, ?_⟩
    intro fits
    obtain rfl := one (by rw [schedules.blockSize]; exact Nat.mul_le_mul_right _ fits)
    exact lists.walks passes

/-- A flow that can be walked through is scheduled for evaluation. -/
theorem Flow.Plans.scheduled {flow : Flow} {ptrs : List ValuePtr} (plans : flow.Plans ptrs)
    (fits : ptrs.length ≤ passPipelineValScheduleQttInBlock) {given : Given} {entries : List Entry}
    (describes : List.Forall₂ (fun ptr entry => Entry.Describes given ptr entry) ptrs entries) :
    flow.Scheduled given entries := by
  obtain ⟨frames, In, elems, passes, inList, rfl, walks⟩ := plans
  exact ⟨frames given, In, elems, walks fits, inList, List.forall₂_map_left_iff.mp describes⟩

/-- A schedule is handed to a new flow. -/
theorem Schedules.handed {ptrs : List ValuePtr} {stack : Stack (Cell ValuePtr)}
    (schedules : Schedules ptrs stack) (vals : Allocator (Cell ValuePtr))
    (newVals : Allocator (Cell Value)) :
    ∃ flow valSchedule,
      lfInitFlow (Flow.declared vals vals newVals stack.elemQttInBlock) = some flow ∧
      lfStackToList stack flow.valSchedule = some (stack, valSchedule) ∧
      Flow.Plans { flow with valSchedule } ptrs := by
  have two : 2 ≤ stack.elemQttInBlock := by
    rw [schedules.qtt]
    decide
  have room : sizeWrap (stack.elemQttInBlock * pointerSize) ≠ 0 := by
    rw [schedules.qtt]
    decide
  obtain ⟨flow, initFlow, initSchedule, -⟩ :=
    @lfInitFlow_spec (fun _ => none) vals vals newVals _ two room
  have frames : ∀ given, flow.Frames given .empty := by
    intro given
    obtain ⟨flow', initFlow', -, frames⟩ := @lfInitFlow_spec given vals vals newVals _ two room
    obtain rfl := Option.some.inj (initFlow.symm.trans initFlow')
    exact frames
  obtain ⟨⟨-, cursor, h, hb, rep, -⟩, size, alignment, qtt, -, padded, blocks, -⟩ :=
    LFList.Unused.init initSchedule
  have wide : flow.valSchedule.elemPaddedSize = pointerSize := by
    rw [size, alignment] at padded
    exact Option.some.inj (padded.symm.trans paddedSize_pointerSize)
  have geometry : SameGeometry stack flow.valSchedule := {
    size := size.trans schedules.contains.1.symm
    alignment := alignment.trans schedules.alignment.symm
    padded := wide.trans schedules.padded.symm
    qtt := qtt
    blockSize := by
      rw [blocks, wide, qtt, schedules.blockSize]
      change sizeWrap (stack.elemQttInBlock * pointerSize) = _
      rw [schedules.qtt]
      exact sizeWrap_of_lt (by decide) }
  obtain ⟨list, In, elems, moved, passes, inList, same, walks⟩ :=
    schedules.moved rep (cursor.trans rep.head_eq) geometry
  exact ⟨flow, list, initFlow, moved, fun given => (frames given).withSchedule list, In, elems,
    passes, inList, same, walks⟩

/-- The list of flows has room for the one flow. -/
theorem exists_parentFlow (malloc : Allocator UInt8) :
    ∃ flows parentFlow flows', lfInitList (LFList.declared malloc 1 flowSize 8) = some flows ∧
      lfAllocListElem flows = some (parentFlow, flows') := by
  obtain ⟨flows, p, b, init, rep, blockSize, -, -, -, -, -, -, -, width, -⟩ :=
    lfInitList_spec (LFList.declared malloc 1 flowSize 8) (show 0 < flowSize by decide) Nat.one_pos
      (show paddedSize flowSize 8 = some flowSize by decide)
      (show 0 < sizeWrap (1 * flowSize) by decide)
  have some_size : 0 < sizeWrap (1 * flows.elemPaddedSize) := by
    rw [width]
    decide
  obtain ⟨parentFlow, arena, deck, alloc, -⟩ := rep.allocAtTail some_size
    (by rw [width]; exact le_of_eq blockSize.symm)
  refine ⟨flows, parentFlow, { flows with arena, elemCount := flows.elemCount + 1 }, init, ?_⟩
  simp only [lfAllocListElem, lfAllocListElems, Nat.one_ne_zero, ↓reduceIte, alloc,
    Option.bind_eq_bind, Option.bind_some]

/-! ## The passes -/

/-- The pipeline for the tree has this plan. -/
structure LFPassPipeline.Follows (pipeline : LFPassPipeline) (setting : Setting)
    (tree : Rose ValuePtr) (plan : Plan) : Prop where
  entrypoint : pipeline.entrypoint = some tree.label
  strategy : pipeline.flowPartitionStrategy = .none
  strings : setting.StringsLead pipeline.objects
  buffer : pipeline.logger.buf.Leads pipeline.objects
  schedule : Schedules plan.schedule pipeline.valSchedule
  flow : Option.Rel (fun made ptrs => made.2.Plans ptrs) pipeline.parentFlow plan.flow

/-- The setting with this number of rounds. -/
def Setting.withRounds (setting : Setting) (rounds : ℕ) : Setting :=
  { setting with rounds }

namespace LFPassPipeline.Follows

variable {setting : Setting} {tree : Rose ValuePtr} {pipeline : LFPassPipeline} {plan : Plan}

/-- The list of passes is not part of the plan. -/
theorem withPasses (follows : pipeline.Follows setting tree plan)
    (passes : LFList (Cell LFPass)) : Follows { pipeline with passes } setting tree plan :=
  ⟨follows.entrypoint, follows.strategy, follows.strings, follows.buffer, follows.schedule,
    follows.flow⟩

/-- Partitioning hands the schedule to a new flow. -/
theorem partition (follows : pipeline.Follows setting tree plan) :
    (pipeline.partitionFlows setting).Gives fun pipeline' =>
      pipeline'.Follows setting tree (plan.pass tree .partitionFlows) ∧
        pipeline'.passes = pipeline.passes := by
  obtain ⟨entrypoint, strategy, strings, buffer, schedule, -⟩ := follows
  have noPartition : ¬ pipeline.flowPartitionStrategy ≠ .none := not_not.mpr strategy
  have enough : ¬ pipeline.valSchedule.elemQttInBlock < 2 := by
    rw [schedule.qtt]
    decide
  obtain ⟨flows, parentFlow, flows', initFlows, allocFlow⟩ := exists_parentFlow setting.flowsMalloc
  obtain ⟨flow, valSchedule, initFlow, moved, plans⟩ :=
    schedule.handed setting.valsMalloc setting.newValsMalloc
  have initLogger := @lfInitLogger_gives ⟨.stored flowLoggerMinLevel,
    (setting.leftover pipeline.created).members, .stored none⟩ pipeline.objects
    (strings pipeline.created)
  rw [LFPassPipeline.partitionFlows]
  simp only [noPartition, ↓reduceIte]
  refine (Recording.Gives.ofOption initFlows rfl).bind ?_
  intro _ here
  subst here
  refine (Recording.Gives.ofOption allocFlow rfl).bind ?_
  intro _ _
  simp only [enough, ↓reduceIte]
  apply initLogger.bind
  rintro ⟨logger, objects⟩ ⟨kept, -⟩
  refine (Recording.Gives.ofOption initFlow rfl).bind ?_
  intro _ here
  subst here
  refine (Recording.Gives.ofOption moved rfl).bind ?_
  intro _ here
  subst here
  exact .pure ⟨⟨entrypoint, strategy, strings.mono kept, buffer.mono kept, schedule, .some plans⟩,
    rfl⟩

/-- **One pass** does what it does to the plan, in any number of rounds from some
number on. -/
theorem apply (follows : pipeline.Follows setting tree plan) (spells : Spells setting.values tree)
    (fn : PassFn) :
    ∃ least pipeline', (∀ rounds ≥ least,
        (pipeline.apply (setting.withRounds rounds) fn).result = some pipeline') ∧
      pipeline'.Follows setting tree (plan.pass tree fn) ∧ pipeline'.passes = pipeline.passes := by
  cases fn with
  | buildValSchedule =>
      obtain ⟨entrypoint, strategy, strings, buffer, schedule, flow⟩ := follows
      obtain ⟨least, valSchedule, built, scheduled⟩ := schedule.build spells setting.valsMalloc
      refine ⟨least, { pipeline with valSchedule }, ?_,
        ⟨entrypoint, strategy, strings, buffer, scheduled, flow⟩, rfl⟩
      intro rounds more
      have done : lfBuildValSchedule (setting.withRounds rounds).values
          (setting.withRounds rounds).valsMalloc (setting.withRounds rounds).rounds
          ⟨pipeline.entrypoint, pipeline.valSchedule⟩ = some ⟨some tree.label, valSchedule⟩ := by
        rw [entrypoint]
        exact built rounds more
      simp only [LFPassPipeline.apply, done]
      rfl
  | partitionFlows =>
      obtain ⟨pipeline', done, follows', same⟩ := follows.partition
      exact ⟨0, pipeline', fun rounds _ => done, follows', same⟩

/-- A pushed pass is behind the others, and changes nothing of the plan. -/
theorem push (follows : pipeline.Follows setting tree plan) {elems : List (Ptr × LFPass)}
    (queue : pipeline.passes.Queue passSize elems) (name : List UInt8) (fn : PassFn) :
    (pipeline.pushPass setting name fn).Gives fun pipeline' =>
      pipeline'.Follows setting tree plan ∧ ∃ e, e.2.applyFn = fn ∧
        pipeline'.passes.Queue passSize (elems ++ [e]) := by
  obtain ⟨entrypoint, strategy, strings, buffer, schedule, flow⟩ := follows
  let str := { (setting.leftover pipeline.created).members with
    charQttInBlock := .stored (name.length + 1) }
  obtain ⟨ptr, passes₁, passes, alloc, written, queue'⟩ := queue.push (⟨str, fn⟩ : LFPass)
  have initialized := @initStringMembers_gives str pipeline.objects (strings pipeline.created)
    (name ++ [0]).length (by simp [str, Member.value]) (by simp)
  rw [LFPassPipeline.pushPass]
  refine (Recording.Gives.ofOption alloc rfl).bind ?_
  intro _ here
  subst here
  apply initialized.bind
  rintro objects ⟨kept, new⟩
  obtain ⟨objects', stored, kept'⟩ := new.store (by simp)
  refine (Recording.Gives.ofOption stored rfl).bind ?_
  intro _ here
  subst here
  refine (Recording.Gives.ofOption written rfl).bind ?_
  intro _ here
  subst here
  exact .pure ⟨⟨entrypoint, strategy, (strings.mono kept).mono kept',
    (buffer.mono kept).mono kept', schedule, flow⟩, (ptr, ⟨str, fn⟩), rfl, queue'⟩

/-- **Working off the passes** does what they do to the plan. The induction is on the
passes that are left. -/
theorem processFrom (spells : Spells setting.values tree) {waiting : List (Ptr × LFPass)} :
    ∀ {applied : List (Ptr × LFPass)} {pipeline : LFPassPipeline} {plan : Plan},
      pipeline.Follows setting tree plan →
      pipeline.passes.Queue passSize (applied ++ waiting) →
      ∃ least pipeline', (∀ rounds ≥ least, ∀ fuel > waiting.length,
          (processFrom (setting.withRounds rounds) fuel (waiting.head?.map Prod.fst)
            pipeline).result = some pipeline') ∧
        pipeline'.Follows setting tree (plan.after tree (waiting.map fun e => e.2.applyFn)) ∧
        pipeline'.passes.Queue passSize (applied ++ waiting) := by
  induction waiting with
  | nil =>
      intro applied pipeline plan follows queue
      refine ⟨0, pipeline, ?_, follows, queue⟩
      intro rounds _ fuel enough
      obtain ⟨fuel, rfl⟩ := Nat.exists_eq_succ_of_ne_zero (Nat.ne_of_gt enough)
      rfl
  | cons e waiting ih =>
      intro applied pipeline plan follows queue
      obtain ⟨least, pipeline₁, done, follows₁, same⟩ := follows.apply spells e.2.applyFn
      have member : (e.1, e.2) ∈ applied ++ e :: waiting := by simp
      have loaded := queue.values.read member
      have queue₁ := queue
      rw [← same] at queue₁
      obtain ⟨passes, next, queue₂⟩ :=
        (LFList.Queue.walks passSize (applied ++ e :: waiting)).onward rfl pipeline₁.passes queue₁
      obtain ⟨least', pipeline', onward, follows', queue'⟩ := @ih (applied ++ [e])
        { pipeline₁ with passes } _ (follows₁.withPasses passes) (by simpa using queue₂)
      refine ⟨max least least', pipeline', ?_, follows',
        by simpa using queue'⟩
      intro rounds more fuel enough
      obtain ⟨fuel, rfl⟩ := Nat.exists_eq_succ_of_ne_zero (Nat.ne_of_gt (Nat.zero_lt_of_lt enough))
      have here := done rounds (le_trans (le_max_left ..) more)
      have there := onward rounds (le_trans (le_max_right ..) more) fuel
        (Nat.lt_of_succ_lt_succ enough)
      rw [List.head?_cons, Option.map_some, LFPassPipeline.processFrom,
        Recording.ofOption_bind loaded, Recording.result_bind here, Recording.ofOption_bind next]
      exact there

/-- A pipeline whose passes are queued follows their plan when it is processed. -/
theorem process (spells : Spells setting.values tree) {elems : List (Ptr × LFPass)}
    (follows : pipeline.Follows setting tree plan) (queue : pipeline.passes.Queue passSize elems) :
    ∃ least pipeline', (∀ rounds ≥ least,
        (pipeline.process (setting.withRounds rounds)).result = some pipeline') ∧
      pipeline'.Follows setting tree (plan.after tree (elems.map fun e => e.2.applyFn)) ∧
      pipeline'.passes.Queue passSize elems := by
  obtain ⟨passes, first, queue'⟩ :=
    (LFList.Queue.walks passSize elems).first pipeline.passes queue
  obtain ⟨least, pipeline', done, follows', kept⟩ := processFrom spells (follows.withPasses passes)
    (show passes.Queue passSize ([] ++ elems) from queue')
  refine ⟨max least (elems.length + 1), pipeline', ?_, follows', kept⟩
  intro rounds more
  rw [LFPassPipeline.process, Recording.ofOption_bind first]
  exact done rounds (le_trans (le_max_left ..) more) rounds
    (le_trans (le_max_right least _) more)

/-- An initialized pipeline has no passes and nothing on its schedule, but the flow that
it had. -/
theorem init (entrypoint : pipeline.entrypoint = some tree.label)
    (strategy : pipeline.flowPartitionStrategy = .none)
    (strings : setting.StringsLead pipeline.objects)
    (buffer : pipeline.logger.buf.Leads pipeline.objects)
    (flow : Option.Rel (fun made ptrs => made.2.Plans ptrs) pipeline.parentFlow plan.flow) :
    (pipeline.init setting).Gives fun pipeline' =>
      pipeline'.Follows setting tree { plan with schedule := [] } ∧
        pipeline'.passes.Queue passSize [] := by
  have initLogger := lfInitLogger_gives buffer
  obtain ⟨passes, initPasses, queue⟩ := @LFList.Queue.of_init _ setting.passesMalloc
    passPipelinePassQtt passSize 8 (by decide) (by decide) (by decide) (by decide) (by decide)
  obtain ⟨valSchedule, initSchedule, schedules⟩ := Schedules.of_init setting.valsMalloc
  obtain ⟨flows, -, -, initFlows, -⟩ := lfInitList_spec
    (LFList.declared setting.valsMalloc passPipelineFlowQttInBlock pointerSize pointerSize)
    pointerSize_pos (show 0 < passPipelineFlowQttInBlock by decide)
    paddedSize_pointerSize
    (show 0 < sizeWrap (passPipelineFlowQttInBlock * pointerSize) by decide)
  apply initLogger.bind
  rintro ⟨logger, objects'⟩ ⟨kept, leads⟩
  refine (Recording.Gives.ofOption initPasses rfl).bind ?_
  intro _ here
  subst here
  refine (Recording.Gives.ofOption initSchedule rfl).bind ?_
  intro _ here
  subst here
  refine (Recording.Gives.ofOption initFlows rfl).bind ?_
  intro _ here
  exact .pure ⟨⟨entrypoint, strategy, strings.mono kept, leads, schedules, flow⟩, queue⟩

end LFPassPipeline.Follows

/-- The pipeline for the tree is what the planner says. -/
structure LFPassPipeline.Refines (pipeline : LFPassPipeline) (setting : Setting)
    (tree : Rose ValuePtr) (planner : Planner) : Prop where
  follows : pipeline.Follows setting tree planner.plan
  passes : ∃ elems, pipeline.passes.Queue passSize elems ∧
    elems.map (fun e => e.2.applyFn) = planner.passes

namespace LFPassPipeline.Refines

variable {setting : Setting} {tree : Rose ValuePtr} {pipeline : LFPassPipeline} {planner : Planner}

/-- **One call** does what it does to the planner, in any number of rounds from some
number on. -/
theorem call (refines : pipeline.Refines setting tree planner)
    (spells : Spells setting.values tree) (c : PipelineCall) :
    ∃ least pipeline', (∀ rounds ≥ least,
        (pipelineCall (setting.withRounds rounds) pipeline c).result = some pipeline') ∧
      pipeline'.Refines setting tree (planner.call tree c) := by
  obtain ⟨follows, elems, queue, fns⟩ := refines
  cases c with
  | initPassPipeline =>
      obtain ⟨pipeline', done, follows', queue'⟩ :=
        LFPassPipeline.Follows.init follows.entrypoint follows.strategy follows.strings
          follows.buffer follows.flow
      exact ⟨0, pipeline', fun rounds _ => done, follows', [], queue', rfl⟩
  | pushPass name applyFn =>
      obtain ⟨pipeline', done, follows', e, same, queue'⟩ := follows.push queue name applyFn
      refine ⟨0, pipeline', fun rounds _ => done, follows', elems ++ [e], queue', ?_⟩
      rw [List.map_append, fns, List.map_singleton, same]
      rfl
  | processPassPipeline =>
      obtain ⟨least, pipeline', done, follows', queue'⟩ := follows.process spells queue
      rw [fns] at follows'
      exact ⟨least, pipeline', done, follows', elems, queue', fns⟩

/-- **The calls** of a caller. -/
theorem calls (refines : pipeline.Refines setting tree planner)
    (spells : Spells setting.values tree) (calls : List PipelineCall) :
    ∃ least pipeline', (∀ rounds ≥ least,
        (pipelineCalls (setting.withRounds rounds) pipeline calls).result = some pipeline') ∧
      pipeline'.Refines setting tree (planner.calls tree calls) := by
  induction calls generalizing pipeline planner with
  | nil => exact ⟨0, pipeline, fun rounds _ => rfl, refines⟩
  | cons c calls ih =>
      obtain ⟨least, pipeline₁, first, refines₁⟩ := refines.call spells c
      obtain ⟨least', pipeline', rest, refines'⟩ := ih refines₁
      refine ⟨max least least', pipeline', ?_, refines'⟩
      intro rounds more
      have here := first rounds (le_trans (le_max_left ..) more)
      have there := rest rounds (le_trans (le_max_right ..) more)
      exact (Recording.result_bind here).trans there

/-- A pipeline whose passes have any effects, here the effects on the plan, is processed
as this one is. -/
theorem processes (refines : pipeline.Refines setting tree planner)
    (spells : Spells setting.values tree) {view : Pipeline PassFn Plan}
    {pushed : List (Ptr × Pass PassFn)} (queued : view.Queued pushed)
    (passes : pushed.map (fun e => e.2.applyFn) = planner.passes)
    (state : view.others = planner.plan) :
    ∃ result least pipeline', view.Processes (Plan.effect tree) pushed result ∧
      (∀ rounds ≥ least,
        (pipeline.process (setting.withRounds rounds)).result = some pipeline') ∧
      pipeline'.Refines setting tree
        ⟨result.applied.map fun e => e.2.applyFn, result.pipeline.others⟩ := by
  obtain ⟨list, first, queue⟩ := (LFList.Queue.walks passSize pushed).first view.passes queued
  obtain ⟨result, returns, -, order, last, -⟩ :=
    @processPass_drains _ _ _ _ _ _ _ _ (Plan.drains tree view.others (pushed.map Prod.snd))
      { view with passes := list } [] pushed queue rfl rfl
  obtain ⟨least, pipeline', done, refines'⟩ := refines.call spells .processPassPipeline
  have applied : result.applied.map (fun e => e.2.applyFn) = planner.passes := by
    rw [← passes,
      show (fun e : Ptr × Pass PassFn => e.2.applyFn) = Pass.applyFn ∘ Prod.snd from rfl,
      ← List.map_map, ← List.map_map, order]
    rfl
  have plan : result.pipeline.others = planner.plan.after tree planner.passes := by
    rw [last, state, List.map_map, ← passes]
    rfl
  exact ⟨result, least, pipeline', ⟨_, list, first, returns⟩, done, applied ▸ plan ▸ refines'⟩

end LFPassPipeline.Refines

/-! ## Runs -/

/-- A caller that initializes the pipeline first gets what a planner gets. -/
theorem LFPassPipeline.exists_refined {setting : Setting} (minLevel : Member LogLevel)
    (timeFmt : Member (Option String)) {tree : Rose ValuePtr} (spells : Spells setting.values tree)
    {objects : Objects} (strings : setting.StringsLead objects) (calls : List PipelineCall) :
    ∃ least pipeline', (∀ rounds ≥ least,
        (pipelineCalls (setting.withRounds rounds)
          (.declared setting minLevel timeFmt (some tree.label) .none objects)
          (.initPassPipeline :: calls)).result = some pipeline') ∧
      pipeline'.Refines setting tree (Planner.new.calls tree calls) := by
  obtain ⟨pipeline, init, follows, queue⟩ := @LFPassPipeline.Follows.init setting tree
    (.declared setting minLevel timeFmt (some tree.label) .none objects) .empty rfl rfl strings
    (strings 0) .none
  have refines : pipeline.Refines setting tree .new := ⟨follows, [], queue, rfl⟩
  obtain ⟨least, pipeline', done, refines'⟩ := refines.calls spells calls
  exact ⟨least, pipeline', fun rounds more => (Recording.result_bind init).trans (done rounds more),
    refines'⟩

/-- **A pipeline is a planner.** When the memory of the strings happens to lead to
arenas, a caller that initializes the pipeline can then initialize it again, push passes
and process them in any order and any number of times. All of it goes through, in any
number of rounds from some number on, and the passes, the schedule and the parent flow
are what the planner has. -/
theorem pipeline_refines_planner (setting : Setting) (minLevel : Member LogLevel)
    (timeFmt : Member (Option String)) (tree : Rose ValuePtr)
    (spells : Spells setting.values tree) (objects : Objects)
    (strings : setting.StringsLead objects) (calls : List PipelineCall) :
    ∃ least pipeline', (∀ rounds ≥ least,
        (pipelineCalls (setting.withRounds rounds)
          (.declared setting minLevel timeFmt (some tree.label) .none objects)
          (.initPassPipeline :: calls)).result = some pipeline') ∧
      (∃ elems, pipeline'.passes.Queue passSize elems ∧
        elems.map (fun e => e.2.applyFn) = (Planner.new.calls tree calls).passes) ∧
      pipeline'.valSchedule.Contains pointerSize (Planner.new.calls tree calls).plan.schedule ∧
      Option.Rel (fun made ptrs => made.2.Plans ptrs) pipeline'.parentFlow
        (Planner.new.calls tree calls).plan.flow := by
  obtain ⟨least, pipeline', done, follows, passes⟩ :=
    LFPassPipeline.exists_refined minLevel timeFmt spells strings calls
  exact ⟨least, pipeline', done, passes, follows.schedule.contains, follows.flow⟩

/-- The memory of the strings leads to arenas one after the other. -/
def sumLeftover (n : ℕ) : RawString := ⟨n + 1, 0, 0⟩

def sumObjects : Objects :=
  ⟨fun _ => some (Arena.declared (.bump (0 : UInt8)) 0 .left), fun _ => none⟩

theorem sum_strings : (sumSetting sumLeftover).StringsLead sumObjects :=
  fun n => ⟨Nat.succ_ne_zero n, rfl, rfl⟩

/-- The passes of `main`, processed twice: the schedule is built twice, and the flow is
made of both. Then the pipeline is initialized again, which leaves the flow. -/
theorem pipeline_refines_planner_sum :
    ∃ least pipeline', (∀ rounds ≥ least,
        (pipelineCalls ((sumSetting sumLeftover).withRounds rounds)
          (.declared (sumSetting sumLeftover) (.stored .debug) (.stored none) (some (.given 3))
            .none sumObjects)
          [.initPassPipeline, .pushPass [115] .buildValSchedule, .pushPass [112] .partitionFlows,
            .processPassPipeline, .processPassPipeline, .initPassPipeline]).result =
          some pipeline') ∧
      pipeline'.valSchedule.Contains pointerSize [] ∧
      Option.Rel (fun made ptrs => made.2.Plans ptrs) pipeline'.parentFlow
        (some (sumTree.postorder ++ sumTree.postorder)) := by
  obtain ⟨least, pipeline', done, -, schedule, flow⟩ :=
    pipeline_refines_planner (sumSetting sumLeftover) (.stored .debug) (.stored none) sumTree
      sum_spells sumObjects sum_strings
      [.pushPass [115] .buildValSchedule, .pushPass [112] .partitionFlows, .processPassPipeline,
        .processPassPipeline, .initPassPipeline]
  exact ⟨least, pipeline', done, schedule, flow⟩

/-! ## Evaluating what was planned -/

/-- The entries of an expression, a number of times, leave its value on top. -/
theorem Expr.run_repeated {natives : Natives} {expr : Expr} (nested : expr.leftNested) (n : ℕ)
    (frame : Frame) :
    ∃ others lost', Frame.run natives.partials (List.replicate (n + 1) expr.entries).flatten frame =
      some ⟨expr.eval natives :: others, lost'⟩ := by
  induction n generalizing frame with
  | zero =>
      obtain ⟨others, leaves, -⟩ := expr.leaves_cons natives frame
      refine ⟨others, (expr.leaves natives frame).lost, ?_⟩
      rw [List.replicate_one, List.flatten_singleton, ← List.append_nil expr.entries,
        runsTo_leaves nested, ← leaves]
      rfl
  | succ n ih =>
      rw [List.replicate_succ, List.flatten_cons, runsTo_leaves nested]
      exact ih _

/-- The entries of the post-order of a tree, a number of times. -/
theorem Encodes.describes_repeated {given : Given} {tree : Rose ValuePtr} {expr : Expr}
    (encodes : Encodes given tree expr) (n : ℕ) :
    List.Forall₂ (fun ptr entry => Entry.Describes given ptr entry)
      (List.replicate n tree.postorder).flatten (List.replicate n expr.entries).flatten := by
  induction n with
  | zero => exact .nil
  | succ n ih =>
      rw [List.replicate_succ, List.replicate_succ, List.flatten_cons, List.flatten_cons]
      exact List.rel_append encodes.describes ih

/-- A flow with the post-order of a tree as its schedule, at least once, is evaluated
to the value of the expression, or fails, as calls are first arguments only or not. -/
theorem Flow.Plans.evaluates {flow : Flow} {given : Given} {natives : Natives}
    {tree : Rose ValuePtr} {expr : Expr} (encodes : Encodes given tree expr) {n : ℕ}
    (plans : flow.Plans (List.replicate (n + 1) tree.postorder).flatten)
    (fits : (List.replicate (n + 1) tree.postorder).flatten.length ≤
      passPipelineValScheduleQttInBlock) :
    (expr.leftNested → ∃ fuel flow' ptr frameVals, lfEvalFlow given natives fuel flow = some flow' ∧
      flow'.frameVals.popValue pointerSize = some (ptr, frameVals) ∧
      flow'.values given ptr = some (expr.eval natives)) ∧
    (¬ expr.leftNested → ∀ fuel, lfEvalFlow given natives fuel flow = none) := by
  have scheduled := plans.scheduled fits (encodes.describes_repeated (n + 1))
  have ends := lfEvalFlowWith_run (runNative_implements given natives _) scheduled
  refine ⟨?_, ?_⟩
  · intro nested
    obtain ⟨others, lost, runs⟩ := @Expr.run_repeated natives expr nested n .empty
    rw [runs] at ends
    obtain ⟨fuel, flow', evaluated, frames⟩ := ends
    obtain ⟨ptr, frameVals, popped, found, -⟩ := frames.take
    exact ⟨fuel, flow', ptr, frameVals, evaluated, popped, found⟩
  · intro nested
    have past := Expr.run_of_not_leftNested natives.partials nested .empty
      (List.replicate n expr.entries).flatten
    rw [List.replicate_succ, List.flatten_cons, past] at ends
    exact ends

/-- A plan with a flow is followed by a parent flow. -/
theorem exists_planned_flow {setting : Setting} (minLevel : Member LogLevel)
    (timeFmt : Member (Option String)) {tree : Rose ValuePtr} (spells : Spells setting.values tree)
    {objects : Objects} (strings : setting.StringsLead objects)
    {calls : List PipelineCall} {ptrs : List ValuePtr}
    (planned : (Planner.new.calls tree calls).plan.flow = some ptrs) :
    ∃ least pipeline' logger flow, (∀ rounds ≥ least,
        (pipelineCalls (setting.withRounds rounds)
          (.declared setting minLevel timeFmt (some tree.label) .none objects)
          (.initPassPipeline :: calls)).result = some pipeline') ∧
      pipeline'.parentFlow = some (logger, flow) ∧ flow.Plans ptrs := by
  obtain ⟨least, pipeline', done, follows, -⟩ :=
    LFPassPipeline.exists_refined minLevel timeFmt spells strings calls
  have made := follows.flow
  rw [planned] at made
  generalize hasFlow : pipeline'.parentFlow = parentFlow at made
  cases made with
  | @some made _ plans =>
      obtain ⟨logger, flow⟩ := made
      exact ⟨least, pipeline', logger, flow, done, hasFlow, plans⟩

/-- **What a pipeline planned can be evaluated.** After any calls of a caller in any
order, when the last partition found a schedule of the entry point that fits in one
block, evaluating the parent flow ends and leaves the value of the expression on top
of the frame if calls are first arguments only, and else fails. -/
theorem pipeline_evaluates (setting : Setting) (given : Given) (natives : Natives)
    (values : setting.values = given.values) (minLevel : Member LogLevel)
    (timeFmt : Member (Option String)) (tree : Rose ValuePtr) (expr : Expr)
    (encodes : Encodes given tree expr) (objects : Objects) (strings : setting.StringsLead objects)
    (calls : List PipelineCall) (ptrs : List ValuePtr)
    (planned : (Planner.new.calls tree calls).plan.flow = some ptrs)
    (some_values : ptrs ≠ []) (fits : ptrs.length ≤ passPipelineValScheduleQttInBlock) :
    ∃ least pipeline' logger flow, (∀ rounds ≥ least,
        (pipelineCalls (setting.withRounds rounds)
          (.declared setting minLevel timeFmt (some tree.label) .none objects)
          (.initPassPipeline :: calls)).result = some pipeline') ∧
      pipeline'.parentFlow = some (logger, flow) ∧
      (expr.leftNested → ∃ fuel flow' ptr frameVals,
        lfEvalFlow given natives fuel flow = some flow' ∧
        flow'.frameVals.popValue pointerSize = some (ptr, frameVals) ∧
        flow'.values given ptr = some (expr.eval natives)) ∧
      (¬ expr.leftNested → ∀ fuel, lfEvalFlow given natives fuel flow = none) := by
  have spells : Spells setting.values tree := values ▸ encodes.spells
  have repeats : (Planner.new.calls tree calls).plan.Repeats tree :=
    Planner.repeats_calls ⟨⟨0, rfl⟩, fun ptrs none => by cases none⟩ calls
  obtain ⟨n, rfl⟩ := repeats.2 ptrs planned
  obtain ⟨n, rfl⟩ :=
    Nat.exists_eq_succ_of_ne_zero (fun zero : n = 0 => some_values (by simp [zero]))
  obtain ⟨least, pipeline', logger, flow, done, hasFlow, plans⟩ :=
    exists_planned_flow minLevel timeFmt spells strings planned
  exact ⟨least, pipeline', logger, flow, done, hasFlow, plans.evaluates encodes fits⟩

/-- The values of `+(4, 5)`, as the caller declared them. -/
def sumGiven : Given := fun id => sumValues (.given id)

theorem sumGiven_values : sumGiven.values = sumValues := by
  funext ptr
  cases ptr with
  | given id => rfl
  | slot ptr => rfl

theorem sum_encodes : Encodes sumGiven sumTree
    (.call 0 [.literal (.ofInt 4), .literal (.ofInt 5)]) := by
  have call : sumGiven.values (.given 3) = some (.ofCall (.given 0) [.given 1, .given 2]) := rfl
  have four : sumGiven.values (.given 1) = some (.ofInt 4) := rfl
  have five : sumGiven.values (.given 2) = some (.ofInt 5) := rfl
  refine .call call rfl rfl ?_
    (.cons (.literal four (by decide)) (.cons (.literal five (by decide)) .nil))
  intro i inRange
  match i, inRange with
  | 0, _ => rfl
  | 1, _ => rfl

/-- The passes of `main` plan `+(4, 5)`, and evaluating the flow leaves 9. -/
theorem pipeline_evaluates_sum :
    ∃ pipeline' logger flow, (∃ rounds,
        (pipelineCalls ((sumSetting sumLeftover).withRounds rounds)
          (.declared (sumSetting sumLeftover) (.stored .debug) (.stored none) (some (.given 3))
            .none sumObjects)
          sumCalls).result = some pipeline') ∧
      pipeline'.parentFlow = some (logger, flow) ∧
      ∃ fuel flow' ptr frameVals, lfEvalFlow sumGiven sumNatives fuel flow = some flow' ∧
        flow'.frameVals.popValue pointerSize = some (ptr, frameVals) ∧
        flow'.values sumGiven ptr = some (.ofInt 9) := by
  obtain ⟨least, pipeline', logger, flow, done, made, evaluated, -⟩ :=
    pipeline_evaluates (sumSetting sumLeftover) sumGiven sumNatives sumGiven_values.symm
      (.stored .debug) (.stored none) sumTree _ sum_encodes sumObjects sum_strings
      sumCalls.tail sumTree.postorder rfl (by decide) (by decide)
  exact ⟨pipeline', logger, flow, ⟨least, done least le_rfl⟩, made, evaluated rfl⟩

end LowFlow
